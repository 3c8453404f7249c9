import IgnoreAtlas.Place
import IgnoreAtlas.Rule.Chain
import IgnoreAtlas.Repository.Opening
import IgnoreAtlas.Settings.Basic

/-!
# Where rules come from

Each directory of a repository can hold a file `.gitignore`. The root can have excludes, in
`info/exclude` of its git directory or of the common directory that a file `.git` leads to. The
shared rules are in a file that the user's settings name, or at a usual place.

A rule file that is missing, or is no file, holds no rules.

The directories around the root are only asked whether a repository begins there, and only when the
files `.gitignore` are read.
-/

namespace IgnoreAtlas

/-- The name `.gitignore`. -/
def Name.gitignore : Name := ⟨[46, 103, 105, 116, 105, 103, 110, 111, 114, 101], by decide⟩

/-- The name `.jj`. -/
def Name.jj : Name := ⟨[46, 106, 106], by decide⟩

namespace Rule

/-! ## The shared rules -/

/-- White space in a settings file. -/
def isBlankByte (b : UInt8) : Bool := b == 32 || (9 ≤ b && b ≤ 13)

/-- The same byte in lower case. -/
def lowerByte (b : UInt8) : UInt8 := if 65 ≤ b && b ≤ 90 then b + 32 else b

/-- A byte that quotes a value. -/
def quoteByte : UInt8 := 34

/-- Behind a value: white space, perhaps a quote and white space, and the end of a line. -/
def endsLine (rest : Bytes) : Bool :=
  let closed (bytes : Bytes) :=
    let blank := bytes.takeWhile isBlankByte
    blank.contains newlineByte || blank.length == bytes.length
  closed rest ||
    match rest.dropWhile isBlankByte with
    | b :: rest => b == quoteByte && closed rest
    | [] => false

/-- The shortest value at the front behind which the line ends; `taken` are its bytes so far, last
first. -/
def shortestValue? (taken : Bytes) : Bytes → Option Bytes
  | [] => none
  | b :: rest =>
    if isBlankByte b then none
    else if endsLine rest then some (b :: taken).reverse
    else shortestValue? (b :: taken) rest

/-- The word that is looked for. -/
def excludesWord : Bytes := Utf8.encode "excludesfile"

/-- The value, if a line `excludesfile = value` is at the front. A quote in front of the value is no
part of it unless there is no value without it. -/
def valueAt? (input : Bytes) : Option Bytes :=
  let word := input.takeWhile fun b => !isBlankByte b && b != 61
  if (word.map lowerByte) = excludesWord then
    match (input.drop word.length).dropWhile isBlankByte with
    | 61 :: rest =>
      let rest := rest.dropWhile isBlankByte
      let bare := shortestValue? [] rest
      match rest with
      | b :: quoted =>
        if b = quoteByte then (shortestValue? [] (quoted.dropWhile isBlankByte)).or bare else bare
      | [] => none
    | _ => none
  else none

/-- The first value for `excludesfile` in a file; `lineStart` says that only white space is in front
on the line. -/
def excludesValue? (lineStart : Bool) : Bytes → Option Bytes
  | [] => none
  | b :: rest =>
    let here := if lineStart then valueAt? (b :: rest) else none
    here.or (excludesValue? (b = newlineByte || (lineStart && isBlankByte b)) rest)

/-- A value with each `~` replaced by the home directory. -/
def expandHome (place : Place) (value : String) : Path :=
  let home := place.home.display.toList
  .ofString (String.ofList (value.toList.flatMap fun c => if c = '~' then home else [c]))

/-- The file that a settings file names for the shared rules. A value that is no text names none. -/
def namedBy? (place : Place) (file : Path) : Option Path := do
  match place.read file with
  | .ok bytes =>
    let value ← excludesValue? true bytes
    (Utf8.decode? value).map (expandHome place)
  | .error _ => none

/-- The directory of the user's settings. -/
def configHome (place : Place) : Path :=
  match place.configHome with
  | some dir => if dir.bytes = [] then place.home.join (.ofString ".config") else dir
  | none => place.home.join (.ofString ".config")

/-- The file of the shared rules. -/
def sharedFile (place : Place) : Path :=
  ((namedBy? place (place.home.join (.ofString ".gitconfig"))).or
    (namedBy? place ((configHome place).join (.ofString "git/config")))).getD
      ((configHome place).join (.ofString "git/ignore"))

/-- The shared rules. They are meant from the current directory; without one there are none. -/
def sharedRules (place : Place) : RuleFile :=
  let file := sharedFile place
  match place.currentDir? with
  | some _ => if place.isFile file then .ofBytes (place.readOrNothing file) else []
  | none => []

/-! ## The excludes of a repository -/

/-- The first line of a file, if it is a text. -/
def firstLine? (place : Place) (file : Path) : Option String :=
  match place.read file with
  | .ok bytes => (linesOf bytes).head?.bind Utf8.decode?
  | .error _ => none

/-- What a file `.git` begins with. -/
def pointerWord : String := "gitdir: "

/-- The directory that holds `info/exclude` for the root of a repository. -/
def excludesDir? (place : Place) (root : Path) : Option Path := do
  let dotGit := root.child .git
  if place.isFile dotGit then
    let line ← firstLine? place dotGit
    if pointerWord.isPrefixOf line then
      let gitDir := Path.ofString (line.drop pointerWord.length).toString
      let common ← firstLine? place (gitDir.join (.ofString "commondir"))
      some (if common.startsWith "." then gitDir.join (.ofString common) else .ofString common)
    else none
  else some dotGit

/-- The excludes of the repository with that root. -/
def excludes (place : Place) (root : Path) : RuleFile :=
  match excludesDir? place root with
  | some dir => .ofBytes (place.readOrNothing (dir.join (.ofString "info/exclude")))
  | none => []

end Rule

/-! ## The rules of directories -/

namespace Place

/-- The bytes behind a name of a directory whose content is known. A link is followed from the
location of the directory; what is no file has no bytes. -/
def bytesIn (place : Place) (location : Location) (inside : Listing) (n : Name) : Bytes :=
  match inside.find? n with
  | some (.file content) => content.bytes
  | some (.link _) => place.readOrNothing (.ofLocation (location ++ [n]))
  | _ => []

/-- The name leads to something in a directory whose content is known. -/
def presentIn (place : Place) (location : Location) (inside : Listing) (n : Name) : Bool :=
  match inside.find? n with
  | none => false
  | some (.link _) => place.exists? (.ofLocation (location ++ [n]))
  | some _ => true

/-- A repository begins at a directory above a location. -/
def isEnclosed (place : Place) (location : Location) : Bool :=
  (List.range location.length).any fun depth =>
    let above := Path.ofLocation (location.take depth)
    place.exists? (above.child .git) || place.exists? (above.child .jj)

end Place

namespace Chain

/-- Rules are read at all. -/
def active (settings : TrackerSettings) : Bool := settings.gitIgnore || settings.gitExclude

/-- The rules that a directory below the root brings along. -/
def frameOf (place : Place) (settings : TrackerSettings) (path : Path) (location : Location)
    (inside : Listing) : Frame where
  base := dropHere path.bytes
  rules := if settings.gitIgnore then .ofBytes (place.bytesIn location inside .gitignore) else []
  excludes := []
  boundary := active settings && place.presentIn location inside .jj

/-- The rules that the root of a repository brings along. -/
def rootFrame (place : Place) (settings : TrackerSettings) (root : Path) (location : Location)
    (inside : Listing) : Frame :=
  let frame := frameOf place settings root location inside
  { frame with
    excludes := if settings.gitExclude then Rule.excludes place root else []
    boundary := frame.boundary || (active settings && place.presentIn location inside .git) }

/-- The rules for the entries of the root. -/
def ofRoot (place : Place) (settings : TrackerSettings) (root : Path) (location : Location)
    (inside : Listing) : Chain where
  frames := [rootFrame place settings root location inside]
  enclosed := settings.gitIgnore && place.isEnclosed location
  shared := if settings.gitGlobal then Rule.sharedRules place else []
  sharedBase := (Path.ofLocation place.cwd).bytes

end Chain

end IgnoreAtlas
