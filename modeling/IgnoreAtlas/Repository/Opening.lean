import IgnoreAtlas.Repository.Basic
import IgnoreAtlas.Repository.Settings

/-!
# Opening a repository

A git directory holds a file `HEAD` and directories `objects` and `refs`; the two directories may
lie in a common directory that a file `commondir` names. The repository of a directory `d` is found

- in `d/.git`, when that is a git directory;
- where `d/.git` points, when that is a file `gitdir: …`;
- in `d` itself.

No directory above `d` is looked at.

The file `config` of the common directory can keep a repository from being opened: by a format or an
extension that is not known, and by a place for the files that leads nowhere. No other settings are
asked.
-/

namespace IgnoreAtlas

/-- The name `.git`. -/
def Name.git : Name := ⟨[46, 103, 105, 116], by decide⟩

namespace Repository

/-- What opening a directory can find. -/
inductive Kind
  | worktree
  | bare
  deriving DecidableEq

/-- A git directory and the directory that holds what it shares with others. -/
structure GitDir where
  path : Path
  common : Path
  deriving DecidableEq

namespace GitDir

/-- A file of the directory. -/
def entry (dir : Path) (name : String) : Path := dir.join (.ofString name)

/-- White space at the end of a line of bytes. -/
def trimEnd (bytes : Bytes) : Bytes :=
  (bytes.reverse.dropWhile fun b => b == 32 || (9 ≤ b && b ≤ 13)).reverse

/-- White space at the start of a line of bytes. -/
def trimStart (bytes : Bytes) : Bytes :=
  bytes.dropWhile fun b => b == 32 || (9 ≤ b && b ≤ 13)

/-- The canonical path of something that exists. -/
def canonical? (place : Place) (p : Path) : Option Path :=
  match place.files.resolve place.cwd p with
  | .ok location => some (.ofLocation location)
  | .error _ => none

/-- The directory is a git directory. -/
def ofDir? (place : Place) (dir : Path) : Option GitDir := do
  let link := entry dir "commondir"
  let common ←
    if place.isFile link then do
      match place.read link with
      | .ok text => canonical? place (dir.join ⟨trimEnd text⟩)
      | .error _ => none
    else some dir
  if place.isFile (entry dir "HEAD") && place.isDir (entry common "objects") &&
      place.isDir (entry common "refs") then
    some ⟨dir, common⟩
  else none

/-- What a file `.git` begins with. -/
def pointerWord : Bytes := Utf8.encode "gitdir:"

/-- The git directory that the file `.git` of `dir` points to. -/
def ofPointer? (place : Place) (dir pointer : Path) : Option GitDir := do
  match place.read pointer with
  | .error _ => none
  | .ok text =>
    let text := trimEnd text
    if pointerWord.isPrefixOf text && pointerWord.length < text.length then
      let target := dir.join ⟨trimStart (text.drop pointerWord.length)⟩
      ofDir? place (← canonical? place target)
    else none

/-- The git directory of a directory. -/
def find? (place : Place) (dir : Path) : Option GitDir := do
  let dir ← canonical? place dir
  let dotGit := dir.child .git
  match place.find? dotGit with
  | some (.file _) => ofPointer? place dir dotGit
  | some (.dir _) => (ofDir? place dotGit).or (ofDir? place dir)
  | _ => ofDir? place dir

/-- The file that says where the files of a linked work tree are. -/
def backLink (gitDir : GitDir) : Path := entry gitDir.path "gitdir"

/-- The files are those of a linked work tree: its git directory shares another one and leads back. -/
def isLinked (place : Place) (gitDir : GitDir) : Bool :=
  !gitDir.path.same gitDir.common && place.exists? gitDir.backLink

end GitDir

/-- The newest format of repositories that can be opened. -/
def newestFormat : Int := 1

/-- The extensions that a repository of the newest format may use. -/
def knownExtensions : List String := ["noop", "objectformat", "worktreeconfig", "preciousobjects"]

/-- The names of objects that can be read. -/
def objectFormat : String := "sha1"

/-- The setting is no extension, or one that is known. -/
def isKnown (s : Setting) : Bool :=
  !"extensions.".isPrefixOf s.group && (s.group != "extensions" || knownExtensions.contains s.key)

/-- The settings of a repository of the newest format ask for nothing that is not known. -/
def knowsAll (settings : List Setting) : Bool :=
  settings.all isKnown &&
    (Setting.last? "extensions" "objectformat" settings).all fun s => s.value == some objectFormat

/-- The settings allow the repository to be opened. -/
def supported (settings : List Setting) : Bool :=
  match Setting.last? "core" "repositoryformatversion" settings with
  | none => true
  | some s =>
    match s.value.bind Setting.number? with
    | none => false
    | some version =>
      decide (0 ≤ version) && decide (version ≤ newestFormat) &&
        (version != newestFormat || knowsAll settings)

/-- What says where the files of a repository are leads somewhere. For a linked work tree that is a
file of its own, for any other it can be a setting. Without one the files are around the git
directory. -/
def findsFiles (place : Place) (gitDir : GitDir) (settings : List Setting) : Bool :=
  if gitDir.isLinked place then place.isFile gitDir.backLink
  else
    match (Setting.last? "core" "worktree" settings).bind Setting.value with
    | none => true
    | some value => !value.isEmpty && place.exists? (gitDir.path.join (.ofString value))

/-- What opening the directory finds; nothing when there is no repository that can be opened. A
repository is bare when its settings say so, but a linked work tree never is. -/
def open? (place : Place) (dir : Path) : Option Kind := do
  let gitDir ← GitDir.find? place dir
  let file := GitDir.entry gitDir.common "config"
  let settings ←
    if place.isFile file then Setting.parse? (place.readOrNothing file) else some []
  if supported settings then
    let bare ←
      match Setting.last? "core" "bare" settings with
      | none => some false
      | some s => s.truth?
    if bare && !gitDir.isLinked place then some .bare
    else if findsFiles place gitDir settings then some .worktree
    else none
  else none

end Repository

end IgnoreAtlas
