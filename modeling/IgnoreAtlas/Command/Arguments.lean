import IgnoreAtlas.Command.Basic

/-!
# The command line

The words of a command line are read from left to right. A word that begins with `-` is an option,
or several short ones together; an option that takes a value has it in the same word or as the next
one. The first other word names the command, and the words behind it are what the command is for.
Behind a lone `--` every word is one of those.

The options for the file of settings and for more messages may stand in front of the command and
behind it; if a file is named in both places, the later one counts. No option that can be given once
may be given twice in one place.
-/

namespace IgnoreAtlas

/-- What a command line asks for. -/
inductive Invocation
  | run (request : Request)
  | version
  | help
  /-- The words make no command. -/
  | misuse
  deriving DecidableEq

namespace Arguments

/-- Options. -/
inductive Switch
  | settingsFile
  | verbose
  | help
  | version
  | format
  | workspace
  deriving DecidableEq

/-- The option takes a value. -/
def Switch.takesValue : Switch → Bool
  | settingsFile => true
  | format => true
  | workspace => true
  | _ => false

/-- Which part of a command line is being read. -/
inductive Level
  | top
  | listRepositories
  | scan
  | check
  | stats
  | settings
  | settingsTask (task : SettingsTask)
  deriving DecidableEq

/-- An option, its letter and its word. -/
abbrev Spelling := Switch × Char × String

/-- The options that stand everywhere. -/
def everywhere : List Spelling :=
  [(.settingsFile, 'c', "config"), (.verbose, 'v', "verbose"), (.help, 'h', "help")]

/-- The option for the format. -/
def formatSpelling : Spelling := (.format, 'f', "format")

/-- The options of a level. -/
def Level.spellings : Level → List Spelling
  | top => (.version, 'V', "version") :: everywhere
  | check => (.workspace, 'w', "workspace") :: formatSpelling :: everywhere
  | listRepositories => formatSpelling :: everywhere
  | scan => formatSpelling :: everywhere
  | stats => formatSpelling :: everywhere
  | settings => everywhere
  | settingsTask _ => everywhere

/-- The option with that letter. -/
def Level.byLetter? (level : Level) (letter : Char) : Option Switch :=
  (level.spellings.find? (·.2.1 == letter)).map (·.1)

/-- The option with that word. -/
def Level.byWord? (level : Level) (word : List Char) : Option Switch :=
  (level.spellings.find? (·.2.2.toList == word)).map (·.1)

/-- The commands. -/
def commands : List (String × Level) :=
  [("repos", .listRepositories), ("scan", .scan), ("check", .check), ("stats", .stats),
    ("config", .settings)]

/-- The commands on the settings. -/
def settingsCommands : List (String × Level) :=
  [("show", .settingsTask .show), ("reset", .settingsTask .reset), ("path", .settingsTask .path)]

/-- What has been read. -/
structure Reading where
  /-- The options given at this level. -/
  given : List Switch := []
  settingsFile : Option Path := none
  verbose : Bool := false
  format : Option OutputFormat := none
  workspace : List String := []
  words : List String := []

/-- An option that takes no value. Help and version end the reading. -/
def Reading.set (reading : Reading) (switch : Switch) : Except Invocation Reading :=
  match switch with
  | .help => .error .help
  | .version => .error .version
  | _ =>
    if switch ∈ reading.given then .error .misuse
    else .ok { reading with given := switch :: reading.given, verbose := true }

/-- An option with its value. -/
def Reading.give (reading : Reading) (switch : Switch) (value : List Char) :
    Except Invocation Reading :=
  let text := String.ofList value
  if switch = .workspace then .ok { reading with workspace := reading.workspace ++ [text] }
  else if switch ∈ reading.given then .error .misuse
  else
    let reading := { reading with given := switch :: reading.given }
    match switch with
    | .settingsFile =>
      if value.isEmpty then .error .misuse
      else .ok { reading with settingsFile := some (.ofString text) }
    | .format =>
      match OutputFormat.words.lookup text with
      | some format => .ok { reading with format := some format }
      | none => .error .misuse
    | _ => .error .misuse

/-- Reads short options that stand together. An option that takes a value takes all that is behind
it, a `=` left out; if nothing is behind it, it is still open. -/
def readLetters (level : Level) (reading : Reading) :
    List Char → Except Invocation (Reading × Option Switch)
  | [] => .ok (reading, none)
  | letter :: rest =>
    match level.byLetter? letter with
    | none => .error .misuse
    | some switch =>
      if switch.takesValue then
        match rest with
        | [] => .ok (reading, some switch)
        | '=' :: value => (reading.give switch value).map (·, none)
        | value => (reading.give switch value).map (·, none)
      else
        match reading.set switch with
        | .ok reading => readLetters level reading rest
        | .error invocation => .error invocation

/-- Reads a long option. A value is behind `=`; without one, an option that takes a value is open.
-/
def readLong (level : Level) (reading : Reading) (word : List Char) :
    Except Invocation (Reading × Option Switch) :=
  let name := word.takeWhile (· ≠ '=')
  match level.byWord? name, word.drop name.length with
  | none, _ => .error .misuse
  | some switch, [] =>
    if switch.takesValue then .ok (reading, some switch) else (reading.set switch).map (·, none)
  | some switch, _ :: value =>
    if switch.takesValue then (reading.give switch value).map (·, none) else .error .misuse

/-- The options in a word; nothing when the word is none. -/
def readOption? (level : Level) (reading : Reading) (word : List Char) :
    Option (Except Invocation (Reading × Option Switch)) :=
  match word with
  | '-' :: '-' :: long => some (readLong level reading long)
  | '-' :: letter :: letters => some (readLetters level reading (letter :: letters))
  | _ => none

/-- The word can be the value of an option. -/
def isValue (word : List Char) : Bool := word.head? ≠ some '-' || word.length = 1

/-- The level that a word leads to, or a word that the command is for. -/
def readWord (level : Level) (reading : Reading) (word : String) :
    Except Invocation (Level × Reading) :=
  match level with
  | .top =>
    match commands.lookup word with
    | some level => .ok (level, { reading with given := [] })
    | none => .error (if word = "help" then .help else .misuse)
  | .settings =>
    match settingsCommands.lookup word with
    | some level => .ok (level, { reading with given := [] })
    | none => .error (if word = "help" then .help else .misuse)
  | .settingsTask _ => .error .misuse
  | .check =>
    if word.isEmpty then .error .misuse
    else .ok (level, { reading with words := reading.words ++ [word] })
  | _ => .ok (level, { reading with words := reading.words ++ [word] })

/-- A word behind `--`. -/
def readPlain (level : Level) (reading : Reading) (word : String) : Except Invocation Reading :=
  match level with
  | .top => .error .misuse
  | .settings => .error .misuse
  | _ => (readWord level reading word).map (·.2)

/-- What the words ask for when all have been read. -/
def conclude (level : Level) (reading : Reading) : Invocation :=
  let run (command : Command) : Invocation :=
    .run ⟨command, reading.settingsFile, reading.verbose⟩
  match level with
  | .top => .misuse
  | .settings => .misuse
  | .settingsTask task => run (.settings task)
  | .listRepositories => run (.workspace .listRepositories reading.words reading.format)
  | .scan => run (.workspace .scan reading.words reading.format)
  | .stats => run (.workspace .stats reading.words reading.format)
  | .check =>
    if reading.words.isEmpty then .misuse
    else
      let files := reading.words.map Path.ofString
      run (.workspace (.check files) reading.workspace reading.format)

/-- The end of reading. -/
def finish : Except Invocation Invocation → Invocation
  | .ok invocation => invocation
  | .error invocation => invocation

/-- Reads the words behind `--`. -/
def readRest (level : Level) (reading : Reading) (words : List String) : Invocation :=
  finish ((words.foldlM (readPlain level) reading).map (conclude level))

/-- Reads the words from a level on; an open option takes the next word for its value. -/
def read : Level → Reading → Option Switch → List String → Invocation
  | level, reading, none, [] => conclude level reading
  | _, _, some _, [] => .misuse
  | level, reading, some switch, word :: words =>
    if isValue word.toList then
      match reading.give switch word.toList with
      | .ok reading => read level reading none words
      | .error invocation => invocation
    else .misuse
  | level, reading, none, word :: words =>
    if word = "--" then readRest level reading words
    else
      match readOption? level reading word.toList with
      | some (.ok (reading, switch)) => read level reading switch words
      | some (.error invocation) => invocation
      | none =>
        match readWord level reading word with
        | .ok (level, reading) => read level reading none words
        | .error invocation => invocation

end Arguments

/-- What a command line asks for. -/
def Invocation.ofArguments (words : List String) : Invocation :=
  Arguments.read .top {} none words

namespace Invocation

/-- The text for a wrong command line and for those who ask for help. -/
def usage : String :=
  "用法: repo-ignore-tracker [选项] <repos|scan|check|stats|config> [参数]\n"

/-- The text for those who ask for the version. -/
def versionText : String := "repo-ignore-tracker 0.1.0\n"

end Invocation

end IgnoreAtlas
