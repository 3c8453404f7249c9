import IgnoreAtlas.Place
import IgnoreAtlas.Settings.Toml

/-!
# The file of settings

Settings are kept in a file. Loading reads it; saving writes it and makes the directories above it
that are missing. A user who has no file yet gets one with the usual settings.
-/

namespace IgnoreAtlas

/-- Why settings are not loaded or saved. -/
inductive SettingsTrouble
  | file (fault : Fault)
  /-- The text of the file keeps no settings, or the settings have no text. -/
  | text
  deriving DecidableEq

namespace SettingsTrouble

/-- The first line that is said about it. -/
def message : SettingsTrouble → String
  | file fault => fault.message
  | text => "TOML parse error"

end SettingsTrouble

namespace Settings

/-- The settings in a file. -/
def load (place : Place) (file : Path) : Except SettingsTrouble Settings :=
  match place.readText file with
  | .error fault => .error (.file fault)
  | .ok text =>
    match ofToml? place.home text with
    | some settings => .ok settings
    | none => .error .text

/-- The files after the settings have been written to a file; together with the fault, if there was
one, because directories may have been made before it. -/
def save (place : Place) (settings : Settings) (file : Path) :
    Option SettingsTrouble × FileSystem :=
  match settings.render? with
  | none => (some .text, place.files)
  | some text =>
    let above := match file.parent? with
      | some parent => place.files.createDirs place.cwd parent
      | none => .ok place.files
    match above with
    | .error fault => (some (.file fault), place.files)
    | .ok files =>
      match files.write place.cwd file (.literal (Utf8.encode text)) with
      | .ok files => (none, files)
      | .error fault => (some (.file fault), files)

/-- The directory of configuration files: the one that was set, if it is absolute, or else the usual
one. -/
def configDir (place : Place) : Path :=
  let usual := place.home.join (.ofString ".config")
  match place.configHome with
  | some dir => if dir.isAbsolute then dir else usual
  | none => usual

/-- The file that is used unless another one is named. -/
def usualFile (place : Place) : Path :=
  ((configDir place).join (.ofString "repo-ignore-tracker")).join (.ofString "config.toml")

/-- The settings in the usual file. If there is nothing, the usual settings are written there. -/
def loadOrCreate (place : Place) : Except SettingsTrouble Settings × FileSystem :=
  let file := usualFile place
  if place.exists? file then (load place file, place.files)
  else
    let settings := Settings.default place.home
    match save place settings file with
    | (none, files) => (.ok settings, files)
    | (some trouble, files) => (.error trouble, files)

end Settings

end IgnoreAtlas
