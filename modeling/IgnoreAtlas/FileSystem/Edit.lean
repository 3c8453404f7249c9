import IgnoreAtlas.FileSystem.Resolve

/-!
# Changing a tree

Writing a file, making directories, making a link, and removing what stands at a path. Every
operation answers with the new tree or with the fault that stopped it; a fault changes nothing.
-/

namespace IgnoreAtlas.FileSystem

/-! ## One entry of one directory -/

/-- The tree with an entry placed in the directory at `location`. The entry must not hold a name
twice. -/
def put (fs : FileSystem) (location : Location) (n : Name) (e : Entry) (h : Listing.Inner e) :
    FileSystem :=
  ⟨fs.top.modify (·.set n e) location, fs.distinct.modify (fun _ hl => hl.set h) location⟩

/-- The tree with a file placed in the directory at `location`. -/
def putFile (fs : FileSystem) (location : Location) (n : Name) (content : Content) : FileSystem :=
  fs.put location n (.file content) trivial

/-- The tree without the entry `n` of the directory at `location`. -/
def drop (fs : FileSystem) (location : Location) (n : Name) : FileSystem :=
  ⟨fs.top.modify (·.erase n) location, fs.distinct.modify (fun _ hl => hl.erase) location⟩

/-! ## Places for new entries -/

/-- The directory and the name that the steps lead to, a link as the last step not followed. -/
def placeOf (fs : FileSystem) (start : Location) (steps : List Step) :
    Except Fault (Location × Name) :=
  match steps.getLast? with
  | some (.enter n) => do
    let location ← fs.walk false mostLinks start steps.dropLast
    let _ ← fs.standing location
    if longestName < n.bytes.length then throw .nameTooLong
    pure (location, n)
  | _ => do
    let _ ← fs.walk false mostLinks start steps
    throw .exists

/-- Walks the steps to where writing puts a file: the directory that the last step is made from, and
the name of that step, whether there is such an entry or not. A link, the last step too, is handed
to `follow` with the directory that holds it and the steps behind it. -/
def spotWith (fs : FileSystem)
    (follow : Location → List Step → Except Fault (Location × Name)) :
    Location → List Step → Except Fault (Location × Name)
  | _, [] => .error .isDirectory
  | location, .stay :: steps => do
    let _ ← fs.standing location
    fs.spotWith follow location steps
  | location, .up :: steps => do
    let _ ← fs.standing location
    fs.spotWith follow location.dropLast steps
  | location, .enter n :: steps => do
    let inside ← fs.standing location
    if longestName < n.bytes.length then throw .nameTooLong
    match inside.find? n with
    | some (.link target) =>
      follow (if target.isAbsolute then [] else location) (target.steps ++ steps)
    | some _ =>
      if steps.isEmpty then pure (location, n) else fs.spotWith follow (location ++ [n]) steps
    | none => if steps.isEmpty then pure (location, n) else throw .missing

/-- Where writing to the steps puts a file, with at most `links` links followed on the whole way. -/
def spot (fs : FileSystem) : Nat → Location → List Step → Except Fault (Location × Name)
  | 0 => fs.spotWith fun _ _ => .error .tooManyLinks
  | links + 1 => fs.spotWith (fs.spot links)

/-- Where a walk along `p` starts. -/
def startOf (cwd : Location) (p : Path) : Location := if p.isAbsolute then [] else cwd

/-- The path is something that the system can be asked about. -/
def checkSpelling (p : Path) : Except Fault Unit :=
  if p.bytes = [] then .error .missing else if 0 ∈ p.bytes then .error .nulByte else .ok ()

/-! ## Operations -/

/-- The content of the file that the path leads to. -/
def read (fs : FileSystem) (cwd : Location) (p : Path) : Except Fault Content := do
  match fs.entry? (← fs.resolve cwd p) with
  | some (.file content) => pure content
  | some _ => throw .isDirectory
  | none => throw .missing

/-- Replaces or creates the file that the path leads to. -/
def write (fs : FileSystem) (cwd : Location) (p : Path) (content : Content) :
    Except Fault FileSystem := do
  checkSpelling p
  let start := startOf cwd p
  if p.segments.getLast? = some [] then
    let named := (p.steps.reverse.dropWhile (· = .stay)).reverse
    let _ ← fs.walk false mostLinks start named.dropLast
    throw .isDirectory
  else
    match p.steps.getLast? with
    | some (.enter _) =>
      let (location, n) ← fs.spot mostLinks start p.steps
      match (← fs.standing location).find? n with
      | some (.dir _) => throw .isDirectory
      | _ => pure (fs.putFile location n content)
    | _ =>
      let _ ← fs.resolve cwd p
      throw .isDirectory

/-- Makes one directory. -/
def createDir (fs : FileSystem) (start : Location) (steps : List Step) :
    Except Fault FileSystem := do
  let (location, n) ← fs.placeOf start steps
  match (← fs.standing location).find? n with
  | some _ => throw .exists
  | none => pure (fs.put location n (.dir .empty) trivial)

/-- The steps lead to a directory. -/
def leadsToDir (fs : FileSystem) (start : Location) (steps : List Step) : Bool :=
  match fs.walk false mostLinks start steps with
  | .ok location => (fs.listing? location).isSome
  | .error _ => false

/-- Makes the directory whose steps are given last first, and those above it that are missing. A
directory that stands there already is no fault. -/
def createDirsFrom (fs : FileSystem) (start : Location) : List Step → Except Fault FileSystem
  | [] => .ok fs
  | last :: above =>
    let steps := (last :: above).reverse
    let tolerant (fs : FileSystem) (fault : Fault) : Except Fault FileSystem :=
      if fs.leadsToDir start steps then .ok fs else .error fault
    match fs.createDir start steps with
    | .ok fs => .ok fs
    | .error .missing => do
      let fs ← fs.createDirsFrom start above
      match fs.createDir start steps with
      | .ok fs => .ok fs
      | .error fault => tolerant fs fault
    | .error fault => tolerant fs fault

/-- Makes the directory at the path and all that is missing above it. -/
def createDirs (fs : FileSystem) (cwd : Location) (p : Path) : Except Fault FileSystem :=
  if p.bytes = [] then .ok fs
  else do
    checkSpelling p
    let steps := p.components.filterMap fun
      | .root => none
      | .here => some .stay
      | .up => some .up
      | .name n => some (.enter n)
    match steps with
    | [] => .ok fs
    | _ => fs.createDirsFrom (startOf cwd p) steps.reverse

/-- Makes a symbolic link. -/
def createLink (fs : FileSystem) (cwd : Location) (p target : Path) : Except Fault FileSystem := do
  checkSpelling p
  let (location, n) ← fs.placeOf (startOf cwd p) p.steps
  match (← fs.standing location).find? n with
  | some _ => throw .exists
  | none => pure (fs.put location n (.link target) trivial)

/-- Removes the file, the link or the whole directory at the path. -/
def remove (fs : FileSystem) (cwd : Location) (p : Path) : Except Fault FileSystem := do
  let location ← fs.locate cwd true p
  match location.getLast? with
  | none => pure empty
  | some n => pure (fs.drop location.dropLast n)

end IgnoreAtlas.FileSystem
