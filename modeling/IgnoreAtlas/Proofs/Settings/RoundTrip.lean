import IgnoreAtlas.Proofs.FileSystem.Writing
import IgnoreAtlas.Proofs.Toml.Tables
import IgnoreAtlas.Settings.File

/-!
# Settings that are saved are loaded

Whatever settings have been saved to a file, loading the file gives them back, texts, names and
switches as they were (`loaded_of_saved`). Names that are skipped are a set: a name that was listed
twice is there once.

A depth is the exception. No bound is written as no line, and without a line the usual bound is
read. So settings come back as they were exactly if their depth has a bound (`unbounded_lost`).
-/

namespace IgnoreAtlas

open Toml (Field Line)

/-! ## Fields -/

namespace Toml

/-- Texts are read from a list of them. -/
theorem texts?_array (texts : List String) :
    (Toml.array (texts.map .text)).texts? = some texts := by
  rw [texts?, List.mapM_map]
  induction texts with
  | nil => rfl
  | cons text texts ih => simp_all [text?]

namespace Field

variable {name : String} {field : Field} {fields : List Field}

def ofTruth (name : String) (value : Bool) : Field := ⟨name, truthText value, .truth value⟩

def ofText (name text : String) : Field := ⟨name, quote text, .text text⟩

def ofTexts (name : String) (texts : List String) : Field :=
  ⟨name, arrayText (texts.map quote), .array (texts.map .text)⟩

def ofNat (name : String) (n : Nat) : Field := ⟨name, toString n, .integer n⟩

theorem sound_ofTruth (h : IsBare name) (value : Bool) : (ofTruth name value).Sound :=
  ⟨h, spells_truthText value⟩

theorem sound_ofText (h : IsBare name) (text : String) : (ofText name text).Sound :=
  ⟨h, spells_quote text⟩

theorem sound_ofTexts (h : IsBare name) (texts : List String) : (ofTexts name texts).Sound :=
  ⟨h, spells_arrayText texts⟩

theorem sound_ofNat (h : IsBare name) {n : Nat} (hn : n < integerBound) : (ofNat name n).Sound :=
  ⟨h, spells_toString hn⟩

/-- The characters of the lines of fields. -/
def chars (fields : List Field) : List Char := (fields.map line).flatMap Line.chars

/-- A field that is there is read, if no two fields have a name. -/
theorem optional_of_mem {α : Type} (hnodup : (fields.map Field.name).Nodup) (hmem : field ∈ fields)
    (usual : α) (read : Toml → Option α) :
    Record.optional (fields.map pair) field.name usual read = read field.value := by
  have hlookup : (fields.map pair).lookup field.name = some field.value := by
    obtain ⟨before, after, rfl⟩ := List.append_of_mem hmem
    rw [List.lookup_eq_some_iff]
    refine ⟨before.map pair, after.map pair, by simp [pair], fun found hfound => ?_⟩
    obtain ⟨other, hother, rfl⟩ := List.mem_map.mp hfound
    simp only [List.map_append, List.map_cons, List.nodup_append] at hnodup
    have hne := hnodup.2.2 other.name (List.mem_map_of_mem hother) field.name List.mem_cons_self
    simpa [pair] using hne.symm
  rw [Record.optional, hlookup]

theorem optional_ofTruth {value : Bool} (hnodup : (fields.map Field.name).Nodup)
    (hmem : ofTruth name value ∈ fields) (usual : Bool) :
    Record.optional (fields.map pair) name usual truth? = some value :=
  optional_of_mem hnodup hmem usual truth?

theorem optional_ofTexts {texts : List String} (hnodup : (fields.map Field.name).Nodup)
    (hmem : ofTexts name texts ∈ fields) (usual : List String)
    (change : List String → List String) :
    Record.optional (fields.map pair) name usual (fun value => value.texts?.map change) =
      some (change texts) := by
  refine (optional_of_mem hnodup hmem usual _).trans ?_
  rw [ofTexts, texts?_array, Option.map_some]

/-- A field that is not there is as usual. -/
theorem optional_of_not_mem {α : Type} (h : name ∉ fields.map Field.name) (usual : α)
    (read : Toml → Option α) :
    Record.optional (fields.map pair) name usual read = some usual := by
  have hpairs : (fields.map pair).map Prod.fst = fields.map Field.name := List.map_map ..
  rw [Record.optional, lookup_eq_none (hpairs ▸ h)]

end Field

end Toml

/-! ## How repositories are looked for -/

namespace DiscoverySettings

variable {settings : DiscoverySettings} {text : String}

/-- The field of a depth, if there is one. -/
def depthFields : Option Nat → List Field
  | none => []
  | some depth => [.ofNat "max_depth" depth]

/-- The fields that are written. -/
def fields (settings : DiscoverySettings) : List Field :=
  depthFields settings.maxDepth ++ [.ofTruth "follow_symlinks" settings.followLinks,
    .ofTexts "skip_directories" settings.skipNames, .ofTruth "scan_hidden" settings.scanHidden]

/-- The settings that are read when these have been written. -/
def reread (settings : DiscoverySettings) : DiscoverySettings :=
  { settings with
    maxDepth := settings.maxDepth.or ({} : DiscoverySettings).maxDepth
    skipNames := settings.skipNames.eraseDups }

/-- A depth that is written fits, and has its field. -/
theorem of_depthLine? {maxDepth : Option Nat} (h : depthLine? maxDepth = some text) :
    (∀ depth, maxDepth = some depth → depth ≤ writtenDepth) ∧
      text.toList = Field.chars (depthFields maxDepth) := by
  cases maxDepth with
  | none =>
    cases h
    exact ⟨nofun, rfl⟩
  | some depth =>
    rw [depthLine?] at h
    split at h
    · next hfits =>
      cases h
      refine ⟨fun _ heq => Option.some.inj heq ▸ hfits, ?_⟩
      simp [Field.chars, depthFields, Field.line, Line.chars, Field.ofNat]
    · cases h

/-- What is written are the lines of the fields, and they are sound. -/
theorem of_render? (h : settings.render? = some text) :
    text.toList = Field.chars settings.fields ∧ ∀ field ∈ settings.fields, field.Sound := by
  rw [render?, Option.bind_eq_bind, Option.bind_eq_some_iff] at h
  obtain ⟨line, hline, htext⟩ := h
  cases htext
  obtain ⟨hfits, hchars⟩ := of_depthLine? hline
  constructor
  · simpa [fields, Field.chars, Field.line, Line.chars, Field.ofTruth, Field.ofTexts] using hchars
  · intro field hfield
    simp only [fields, List.mem_append, List.mem_cons, List.not_mem_nil, or_false] at hfield
    obtain hfield | rfl | rfl | rfl := hfield
    · cases hdepth : settings.maxDepth with
      | none => rw [hdepth] at hfield; cases hfield
      | some depth =>
        rw [hdepth] at hfield
        obtain rfl := List.mem_singleton.mp hfield
        exact Field.sound_ofNat (by decide) (Nat.lt_of_le_of_lt (hfits depth hdepth) (by decide))
    · exact Field.sound_ofTruth (by decide) _
    · exact Field.sound_ofTexts (by decide) _
    · exact Field.sound_ofTruth (by decide) _

theorem nodup_fields (settings : DiscoverySettings) : (settings.fields.map Field.name).Nodup := by
  unfold fields
  cases settings.maxDepth <;> simp [depthFields, Field.ofNat, Field.ofTruth, Field.ofTexts]

/-- The depth that is read is the one that was written, or the usual one. -/
theorem optional_depth (settings : DiscoverySettings) :
    Toml.Record.optional (settings.fields.map Field.pair) "max_depth" (some 6)
      (fun v => v.nat?.map some) = some settings.reread.maxDepth := by
  cases hdepth : settings.maxDepth with
  | none =>
    have habsent : "max_depth" ∉ settings.fields.map Field.name := by
      simp [fields, hdepth, depthFields, Field.ofTruth, Field.ofTexts]
    rw [Field.optional_of_not_mem habsent, reread, hdepth]
    rfl
  | some depth =>
    have hmem : Field.ofNat "max_depth" depth ∈ settings.fields := by
      simp [fields, hdepth, depthFields]
    refine (Field.optional_of_mem settings.nodup_fields hmem _ _).trans ?_
    rw [reread, hdepth]
    rfl

theorem ofToml?_fields (settings : DiscoverySettings) :
    ofToml? (.table .stated (settings.fields.map Field.pair)) = some settings.reread := by
  have hnodup := settings.nodup_fields
  have hlinks : Field.ofTruth "follow_symlinks" settings.followLinks ∈ settings.fields := by
    simp [fields]
  have hnames : Field.ofTexts "skip_directories" settings.skipNames ∈ settings.fields := by
    simp [fields]
  have hscan : Field.ofTruth "scan_hidden" settings.scanHidden ∈ settings.fields := by
    simp [fields]
  simp only [ofToml?, Toml.record?, Option.bind_eq_bind, Option.bind_some, optional_depth,
    Field.optional_ofTruth hnodup hlinks, Field.optional_ofTexts hnodup hnames,
    Field.optional_ofTruth hnodup hscan]
  rfl

end DiscoverySettings

/-! ## Which rules decide -/

namespace TrackerSettings

variable {settings : TrackerSettings}

/-- The fields that are written. -/
def fields (settings : TrackerSettings) : List Field :=
  [.ofTruth "git_ignore" settings.gitIgnore, .ofTruth "git_exclude" settings.gitExclude,
    .ofTruth "git_global" settings.gitGlobal, .ofTruth "include_git_dir" settings.includeGitDir]

theorem toList_render (settings : TrackerSettings) :
    settings.render.toList = Field.chars settings.fields := by
  simp [render, Field.chars, fields, Field.line, Line.chars, Field.ofTruth]

theorem sound_fields (settings : TrackerSettings) : ∀ field ∈ settings.fields, field.Sound := by
  intro field hfield
  simp only [fields, List.mem_cons, List.not_mem_nil, or_false] at hfield
  obtain rfl | rfl | rfl | rfl := hfield <;> exact Field.sound_ofTruth (by decide) _

theorem nodup_fields (settings : TrackerSettings) : (settings.fields.map Field.name).Nodup := by
  simp [fields, Field.ofTruth]

theorem ofToml?_fields (settings : TrackerSettings) :
    ofToml? (.table .stated (settings.fields.map Field.pair)) = some settings := by
  rfl

end TrackerSettings

/-! ## How output looks -/

namespace OutputSettings

variable {settings : OutputSettings}

/-- The fields that are written. -/
def fields (settings : OutputSettings) : List Field :=
  [.ofText "format" settings.format.word, .ofText "time_format" settings.timeFormat]

theorem toList_render (settings : OutputSettings) :
    settings.render.toList = Field.chars settings.fields := by
  simp [render, Field.chars, fields, Field.line, Line.chars, Field.ofText]

theorem sound_fields (settings : OutputSettings) : ∀ field ∈ settings.fields, field.Sound := by
  intro field hfield
  simp only [fields, List.mem_cons, List.not_mem_nil, or_false] at hfield
  obtain rfl | rfl := hfield <;> exact Field.sound_ofText (by decide) _

theorem nodup_fields (settings : OutputSettings) : (settings.fields.map Field.name).Nodup := by
  simp [fields, Field.ofText]

theorem ofToml?_fields (settings : OutputSettings) :
    ofToml? (.table .stated (settings.fields.map Field.pair)) = some settings := by
  obtain ⟨format, timeFormat⟩ := settings
  cases format <;> rfl

end OutputSettings

/-! ## All settings -/

namespace Settings

variable {settings : Settings} {text : String} {place : Place} {file : Path} {files : FileSystem}

/-- The fields in front of the tables. -/
def topFields (settings : Settings) : List Field :=
  [.ofTexts "workspace_paths" settings.workspacePaths]

/-- The tables that are written, each with a header. -/
def tables (settings : Settings) : List (String × List Field) :=
  [("discovery", settings.discovery.fields), ("tracker", settings.tracker.fields),
    ("output", settings.output.fields)]

/-- The settings that are read when these have been written. -/
def reread (settings : Settings) : Settings :=
  { settings with discovery := settings.discovery.reread }

/-- What is written are the lines of the fields and tables, and they are sound. -/
theorem of_render? (h : settings.render? = some text) :
    text.toList = (Toml.linesOfAll settings.topFields settings.tables).flatMap Line.chars ∧
      ∀ line ∈ Toml.linesOfAll settings.topFields settings.tables, line.Sound := by
  rw [render?, Option.bind_eq_bind, Option.bind_eq_some_iff] at h
  obtain ⟨discovery, hdiscovery, htext⟩ := h
  cases htext
  obtain ⟨hchars, hsound⟩ := DiscoverySettings.of_render? hdiscovery
  constructor
  · have htracker := settings.tracker.toList_render
    have houtput := settings.output.toList_render
    simp only [Field.chars] at hchars htracker houtput
    simp [Toml.linesOfAll, Toml.linesOf, topFields, tables, Field.line, Line.chars, Field.ofTexts,
      hchars, htracker, houtput]
  · refine Toml.sound_linesOfAll ?_ ?_
    · intro field hfield
      obtain rfl := List.mem_singleton.mp hfield
      exact Field.sound_ofTexts (by decide) _
    · intro table htable
      simp only [tables, List.mem_cons, List.not_mem_nil, or_false] at htable
      obtain rfl | rfl | rfl := htable
      · exact ⟨(by decide : Toml.IsBare "discovery"), hsound⟩
      · exact ⟨(by decide : Toml.IsBare "tracker"), settings.tracker.sound_fields⟩
      · exact ⟨(by decide : Toml.IsBare "output"), settings.output.sound_fields⟩

theorem ofToml?_of_render? (h : settings.render? = some text) (home : Path) :
    ofToml? home text = some settings.reread := by
  obtain ⟨hchars, hsound⟩ := of_render? h
  have hnames : (settings.topFields.map Field.name ++ settings.tables.map Prod.fst).Nodup := by
    simp [topFields, tables, Field.ofTexts]
  have hparse := Toml.parse?_linesOfAll hchars hsound hnames fun table htable => by
    simp only [tables, List.mem_cons, List.not_mem_nil, or_false] at htable
    obtain rfl | rfl | rfl := htable
    · exact settings.discovery.nodup_fields
    · exact settings.tracker.nodup_fields
    · exact settings.output.nodup_fields
  rw [ofToml?, hparse, Option.bind_some]
  simp [ofFields?, topFields, tables, Field.pair, Field.ofTexts, Toml.Record.optional,
    List.lookup_cons, Toml.texts?_array, DiscoverySettings.ofToml?_fields,
    TrackerSettings.ofToml?_fields, OutputSettings.ofToml?_fields, reread]

/-! ## The file -/

/-- When settings have been saved, the file holds their text. -/
theorem exists_text_of_save (h : save place settings file = (none, files)) :
    ∃ text, settings.render? = some text ∧
      files.read place.cwd file = .ok (.literal (Utf8.encode text)) := by
  unfold save at h
  split at h
  · cases h
  · next text hrender =>
    simp only at h
    split at h
    · cases h
    · split at h
      · next hwrite =>
        cases h
        exact ⟨text, hrender, FileSystem.read_of_write hwrite⟩
      · cases h

/-- So they are read from it. -/
theorem load_of_save (h : save place settings file = (none, files)) :
    load { place with files := files } file = .ok settings.reread := by
  obtain ⟨text, hrender, hread⟩ := exists_text_of_save h
  have htext : Place.readText { place with files := files } file = .ok text := by
    simp only [Place.readText, Place.read, hread, Except.map, FileSystem.ok_bind, Content.bytes,
      Utf8.decode?_encode]
    rfl
  rw [load, htext]
  simp only [ofToml?_of_render? hrender]

/-- Settings that have been saved are loaded, every field as it was but for the depth: no bound has
become the usual one. -/
theorem loaded_of_saved (h : save place settings file = (none, files)) :
    ∃ loaded, load { place with files := files } file = .ok loaded ∧
      loaded.workspacePaths = settings.workspacePaths ∧
      loaded.discovery.followLinks = settings.discovery.followLinks ∧
      (∀ name, name ∈ loaded.discovery.skipNames ↔ name ∈ settings.discovery.skipNames) ∧
      loaded.discovery.scanHidden = settings.discovery.scanHidden ∧
      loaded.tracker = settings.tracker ∧ loaded.output = settings.output ∧
      loaded.discovery.maxDepth = settings.discovery.maxDepth.or (some 6) ∧
      (loaded.discovery.maxDepth = settings.discovery.maxDepth ↔
        settings.discovery.maxDepth ≠ none) := by
  refine ⟨settings.reread, load_of_save h, rfl, rfl, fun name => List.mem_eraseDups, rfl, rfl, rfl,
    rfl, ?_⟩
  cases hdepth : settings.discovery.maxDepth with
  | none => simp [reread, DiscoverySettings.reread, hdepth]
  | some depth => simp [reread, DiscoverySettings.reread, hdepth]

/-! ## A file of settings -/

/-- A place with one directory. -/
def denPlace : Place where
  files := { top := .dir (.spell "den") .empty .empty, distinct := by decide +kernel }
  cwd := []
  home := .ofString "/home"

/-- The file, in a directory that is still to be made. -/
def denFile : Path := .ofString "/den/lair/settings"

/-- Settings with texts that need quotes of every kind, and a name that is listed twice. -/
def denSettings : Settings where
  workspacePaths := ["/den/it's", "C:\\den", "\"\"\"'''\n", ""]
  discovery := { maxDepth := some 2, skipNames := ["a", "b", "a"] }

/-- The same settings without a bound. -/
def boundlessSettings : Settings := { denSettings with discovery := { maxDepth := none } }

/-- Settings with a bound come back. -/
theorem loaded_of_saved_denPlace :
    ∃ files, save denPlace denSettings denFile = (none, files) ∧
      ∃ loaded, load { denPlace with files := files } denFile = .ok loaded ∧
        loaded.workspacePaths = denSettings.workspacePaths ∧
        loaded.discovery.maxDepth = some 2 := by
  have hsaved : (save denPlace denSettings denFile).1 = none := by decide +kernel
  have hsave : save denPlace denSettings denFile =
      (none, (save denPlace denSettings denFile).2) := Prod.ext hsaved rfl
  obtain ⟨loaded, hload, hpaths, -, -, -, -, -, hdepth, -⟩ := loaded_of_saved hsave
  exact ⟨_, hsave, loaded, hload, hpaths, hdepth⟩

/-- Settings without one come back with the usual one. -/
theorem unbounded_lost :
    ∃ files, save denPlace boundlessSettings denFile = (none, files) ∧
      ∃ loaded, load { denPlace with files := files } denFile = .ok loaded ∧
        boundlessSettings.discovery.maxDepth = none ∧ loaded.discovery.maxDepth = some 6 := by
  have hsaved : (save denPlace boundlessSettings denFile).1 = none := by decide +kernel
  have hsave : save denPlace boundlessSettings denFile =
      (none, (save denPlace boundlessSettings denFile).2) := Prod.ext hsaved rfl
  exact ⟨_, hsave, _, load_of_save hsave, rfl, rfl⟩

end Settings

end IgnoreAtlas
