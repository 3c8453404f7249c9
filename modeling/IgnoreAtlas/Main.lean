import IgnoreAtlas.Command.Arguments
import Std.Time.DateTime.Timestamp

/-!
# The program

Reads the command line, takes a picture of the files that the command is about, carries the command
out on the picture, prints, and writes the file of settings if the command has changed it.

A picture holds directories, links and files. The bytes of a file are taken along only if it can
hold rules or settings; of all other files only the size is. The target of a link is taken along
with what is in it if the settings ask for links to be followed; otherwise only as far as it tells
whether a repository is there.
-/

namespace IgnoreAtlas.Program

/-- The content of a directory. -/
abbrev Tree := { listing : Listing // listing.Distinct }

/-- The name that a text spells. -/
def name? (text : String) : Option Name :=
  if h : IsName (Utf8.encode text) then some ⟨_, h⟩ else none

/-- The tree with one more entry. -/
def Tree.add (tree : Tree) (n : Name) (entry : Entry) (h : Listing.Inner entry) : Tree :=
  ⟨tree.1.set n entry, tree.2.set h⟩

/-- Files of these names can hold rules or settings. -/
def keptNames : List String :=
  [".gitignore", ".git", ".gitconfig", "config", "HEAD", "commondir", "exclude", "ignore"]

/-- What a file holds, or as much of it as is needed. -/
def contentOf (path fileName : String) (size : Nat) : IO Content := do
  if keptNames.contains fileName then
    return .literal (← IO.FS.readBinFile path).data.toList
  return .fill 0 size

/-- Where a link leads. A link that leads nowhere leads to an empty name. -/
def targetOf (path : String) : IO Path := do
  try
    return .ofString (← IO.FS.realPath path).toString
  catch _ => return .ofString "/\x00"

/-- All that is below a directory. What cannot be looked at is left out. -/
partial def treeAt (dir : String) : IO Tree := do
  let mut tree : Tree := ⟨.empty, trivial⟩
  for entry in ← (← IO.FS.realPath dir).readDir do
    let path := dir ++ "/" ++ entry.fileName
    if let some n := name? entry.fileName then
      try
        let info ← entry.path.symlinkMetadata
        match info.type with
        | .dir =>
          let inside ← treeAt path
          tree := tree.add n (.dir inside.1) inside.2
        | .symlink => tree := tree.add n (.link (← targetOf path)) trivial
        | .file =>
          tree := tree.add n (.file (← contentOf path entry.fileName info.byteSize.toNat)) trivial
        | .other => pure ()
      catch _ => pure ()
  return tree

/-- A directory of which only is known whether a repository is there. -/
def stubAt (dir : String) : IO Tree := do
  let tree : Tree := ⟨.empty, trivial⟩
  match name? ".git" with
  | some n =>
    try
      let _ ← (← IO.FS.realPath (dir ++ "/.git")).metadata
      return tree.add n (.dir .empty) trivial
    catch _ => return tree
  | none => return tree

/-- The place of an absolute path that holds neither links nor dots. -/
def locationOf (path : String) : Location :=
  (Path.ofString path).components.filterMap fun
    | .name n => some n
    | _ => none

/-- The result, or what there was before. -/
def orBefore (files : FileSystem) : Except Fault FileSystem → FileSystem
  | .ok files => files
  | .error _ => files

/-- The picture with what is at a path, which holds neither links nor dots. -/
def addAt (files : FileSystem) (path : String) (deep : Bool) : IO FileSystem := do
  let location := locationOf path
  let info ← (← IO.FS.realPath path).metadata
  match info.type, location.getLast? with
  | .dir, none => if deep then return let t := (← treeAt path); ⟨t.1, t.2⟩ else return files
  | .dir, some n =>
    if (files.listing? location).isSome && !deep then return files
    let tree ← if deep then treeAt path else stubAt path
    let files := orBefore files (files.createDirs [] (.ofLocation location.dropLast))
    return files.put location.dropLast n (.dir tree.1) tree.2
  | .file, some n =>
    let files := orBefore files (files.createDirs [] (.ofLocation location.dropLast))
    let bytes := (← IO.FS.readBinFile path).data.toList
    return files.putFile location.dropLast n (.literal bytes)
  | _, _ => return files

/-- The picture with all that a path goes through, and with what it leads to. -/
def addSpelled (files : FileSystem) (path : String) (deep : Bool) : IO FileSystem := do
  let mut files := files
  let mut here := ""
  for component in (Path.ofString path).components do
    match component with
    | .up => here := (Path.ofString here).parent?.elim "" Path.display
    | .name n =>
      let next := here ++ "/" ++ Utf8.lossy n.bytes
      try
        let real := (← IO.FS.realPath next).toString
        if real ≠ next then
          let above := orBefore files (files.createDirs [] (.ofString here))
          files := orBefore above (above.createLink [] (.ofString next) (.ofString real))
        here := real
      catch _ => return files
    | _ => pure ()
  try addAt files (if here.isEmpty then "/" else here) deep catch _ => return files

/-- The targets of the links below a directory. -/
def targets : Listing → List Path
  | .empty => []
  | .file _ _ rest => targets rest
  | .link _ target rest => target :: targets rest
  | .dir _ inside rest => targets inside ++ targets rest

/-- The picture with the targets of its links, and with the targets of the links in them. -/
partial def addTargets (files : FileSystem) (deep : Bool) (known : List String) :
    IO FileSystem := do
  let fresh := ((targets files.top).map Path.display).eraseDups.filter fun t =>
    !known.contains t && (files.entry? (locationOf t)).isNone
  if fresh.isEmpty then return files
  let mut grown := files
  for target in fresh do
    grown ← addSpelled grown target deep
  addTargets grown deep (fresh ++ known)

/-- An absolute spelling of a path. -/
def absolute (cwd path : String) : String :=
  ((Path.ofString cwd).join (.ofString path)).display

/-- The time now. -/
def now : IO Calendar.Moment := do
  let nanos : Int := (← Std.Time.Timestamp.now).toNanosecondsSinceUnixEpoch.val
  return ⟨nanos / 1000000000, (nanos % 1000000000).toNat⟩

/-- The place with the files that the settings and the shared rules are kept in. -/
def placeFor (request : Request) : IO Place := do
  let cwd := (← IO.currentDir).toString
  let home := (← IO.getEnv "HOME").getD "/"
  let configHome ← IO.getEnv "XDG_CONFIG_HOME"
  let start : Place :=
    { files := orBefore .empty (FileSystem.empty.createDirs [] (.ofString cwd))
      cwd := locationOf cwd, home := .ofString home, configHome := configHome.map Path.ofString }
  let mut files := start.files
  for file in [request.settingsFile.getD (Settings.usualFile start),
      start.home.join (.ofString ".gitconfig"),
      (Rule.configHome start).join (.ofString "git/config")] do
    files ← addSpelled files (absolute cwd file.display) false
  files ← addSpelled files (Rule.sharedFile { start with files }).display false
  return { start with files }

/-- The place with the files that a command is about. -/
def addWorkspace (prepared : Prepared) : IO Prepared := do
  let place := prepared.place
  let cwd := (Path.ofLocation place.cwd).display
  let deep := prepared.settings.discovery.followLinks
  let mut files := place.files
  if let some command := prepared.workspaceCommand? then
    for directory in command.directories do
      files ← addSpelled files (absolute cwd directory.display) true
    files ← addTargets files deep []
    if let .check checked := command.task then
      for file in checked do
        if (files.find? place.cwd file).isNone then
          files ← addSpelled files (absolute cwd file.display) false
    for shared in [Rule.sharedFile { place with files }] do
      files ← addSpelled files shared.display false
  return { prepared with place := { place with files } }

/-- Writes the file of settings if it is another one now. -/
def keepSettings (before after : Place) (file : Path) : IO Unit := do
  match before.read file, after.read file with
  | old, .ok bytes =>
    let same := match old with
      | .ok old => old == bytes
      | .error _ => false
    if !same then
      if let some above := file.parent? then
        if !above.bytes.isEmpty then IO.FS.createDirAll above.display
      IO.FS.writeBinFile file.display ⟨bytes.toArray⟩
  | _, .error _ => pure ()

/-- Prints what a command has to say and answers with its status. -/
def tell (finish : Done) : IO UInt32 := do
  IO.print finish.text
  match finish.ending with
  | .done => pure ()
  | .failed message => IO.eprintln ("Error: " ++ message)
  | .panicked message => IO.eprintln message
  return UInt32.ofNat finish.status

/-- Carries out a request. -/
def run (request : Request) : IO UInt32 := do
  let place ← placeFor request
  let file := request.settingsFile.getD (Settings.usualFile place)
  match request.prepare place with
  | .error finish => tell finish
  | .ok prepared =>
    keepSettings place prepared.place file
    let started ← now
    let clock ← IO.monoNanosNow
    let prepared ← addWorkspace prepared
    match prepared.begin with
    | .error finish => tell finish
    | .ok findings =>
      let took := (← IO.monoNanosNow) - clock
      let finish := prepared.finish ⟨started, ⟨took / 1000000000, took % 1000000000⟩⟩ findings
      keepSettings prepared.place { prepared.place with files := finish.files } file
      tell finish

end IgnoreAtlas.Program

open IgnoreAtlas in
def main (words : List String) : IO UInt32 := do
  match Invocation.ofArguments words with
  | .run request => Program.run request
  | .version => IO.print Invocation.versionText; return 0
  | .help => IO.print Invocation.usage; return 0
  | .misuse => IO.eprint Invocation.usage; return 2
