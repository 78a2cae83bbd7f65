import JsonCleave.Batch
import JsonCleave.Text.Numeral
/-!
# The command line

The arguments are classified word by word, then read from left to right: an option takes its value
from behind an equals sign or from the next plain word, the first plain word left is
the file, and every other word is left over. Long options may be shortened as far as they
stay unambiguous. Behind a double dash all words are plain.
-/

namespace JsonCleave

inductive Flag where
  | help
  | outputDir
  | workers
  | dryRun
deriving DecidableEq, Repr

namespace Flag

def spellings : List (String × Flag) :=
  [("-h", .help), ("--help", .help), ("--output-dir", .outputDir), ("--workers", .workers),
    ("--dry-run", .dryRun)]

def title : Flag → String
  | .help => "-h/--help"
  | .outputDir => "--output-dir"
  | .workers => "--workers"
  | .dryRun => "--dry-run"

def takesValue : Flag → Bool
  | .outputDir | .workers => true
  | .help | .dryRun => false

end Flag

/-- Why parsing the arguments ends without a result. -/
inductive Refusal where
  | help
  | wrong (message : String)
deriving DecidableEq, Repr

inductive Word where
  | plain (text : String)
  | separator
  | stray (text : String)
  | long (flag : Flag) (value : Option String)
  | short (rest : Option (List Char))
deriving DecidableEq, Repr

namespace Word

def cut (text : List Char) : List Char × Option (List Char) :=
  match text.dropWhile (· ≠ '=') with
  | [] => (text, none)
  | _ :: value => (text.takeWhile (· ≠ '='), some value)

def isNumeric (text : List Char) : Bool :=
  let text := if text.getLast? = some '\n' then text.dropLast else text
  let isDigit (c : Char) : Bool := (decimalDigit? c).isSome
  match text.dropWhile isDigit with
  | [] => !text.isEmpty
  | c :: rest => c == '.' && !rest.isEmpty && rest.all isDigit

def ofUnknown (text : String) (chars : List Char) : Word :=
  if isNumeric chars.tail || chars.contains ' ' then .plain text else .stray text

/-- Resolves a word that begins with `--`: an exact option name, or a prefix of exactly one. -/
def ofLong (text : String) (name : String) (value : Option String) : Except Refusal Word :=
  match Flag.spellings.lookup name with
  | some flag => .ok (.long flag value)
  | none =>
    match Flag.spellings.filter fun spelling => name.toList.isPrefixOf spelling.1.toList with
    | [] => .ok (ofUnknown text text.toList)
    | [(_, flag)] => .ok (.long flag value)
    | several =>
      .error (.wrong ("ambiguous option: " ++ text ++ " could match "
        ++ ", ".intercalate (several.map Prod.fst)))

def classify (text : String) : Except Refusal Word :=
  match text.toList with
  | '-' :: '-' :: rest =>
    let (name, value) := cut ('-' :: '-' :: rest)
    ofLong text (String.ofList name) (value.map String.ofList)
  | ['-', 'h'] => .ok (.short none)
  | '-' :: 'h' :: '=' :: rest => .ok (.short (some rest))
  | '-' :: 'h' :: rest => .ok (.short (some rest))
  | '-' :: c :: rest => .ok (ofUnknown text ('-' :: c :: rest))
  | _ => .ok (.plain text)

def classifyAll : List String → Except Refusal (List Word)
  | [] => .ok []
  | text :: rest =>
    if text = "--" then .ok (.separator :: rest.map .plain)
    else do
      let word ← classify text
      let words ← classifyAll rest
      pure (word :: words)

/-- The rejected rest of a group of short options, if there is one. Only letters of options without
a value may follow the first. -/
def faultyRest : List Char → Option (List Char)
  | ['h'] => none
  | 'h' :: rest => faultyRest rest
  | rest => some rest

end Word

structure Arguments where
  file : Option String := none
  outputDir : Option String := some "split_output"
  workers : Option Int := some 1
  dryRun : Bool := false
  extras : List String := []
deriving DecidableEq, Repr

namespace Arguments

def about (flag : Flag) (message : String) : Refusal :=
  .wrong ("argument " ++ flag.title ++ ": " ++ message)

def ignored (flag : Flag) (value : String) : Refusal :=
  about flag ("ignored explicit argument " ++ quoted value)

def setValue (a : Arguments) (flag : Flag) (value : String) : Except Refusal Arguments :=
  match flag with
  | .workers =>
    if value = "--" then .ok { a with workers := none }
    else
      match readInteger value with
      | .ok workers => .ok { a with workers := some workers }
      | .error _ => .error (about flag ("invalid int value: " ++ quoted value))
  | .outputDir => .ok { a with outputDir := if value = "--" then none else some value }
  | .help | .dryRun => .ok a

def raiseFlag (a : Arguments) (flag : Flag) : Except Refusal Arguments :=
  match flag with
  | .help => .error .help
  | .dryRun => .ok { a with dryRun := true }
  | .outputDir | .workers => .ok a

def leaveOver (a : Arguments) (text : String) : Arguments :=
  { a with extras := a.extras ++ [text] }

def takePlain (a : Arguments) (text : String) : Arguments :=
  if a.file.isNone then { a with file := some text } else a.leaveOver text

/-- Reads the words from left to right. A `--` next to the file is part of it. -/
def readWords (a : Arguments) : List Word → Except Refusal Arguments
  | [] => .ok a
  | .plain text :: .separator :: later =>
    if a.file.isNone then readWords (a.takePlain text) later
    else readWords (a.takePlain text) (.separator :: later)
  | .plain text :: rest => readWords (a.takePlain text) rest
  | .separator :: .plain text :: later =>
    if a.file.isNone then readWords (a.takePlain text) later
    else readWords (a.leaveOver "--") (.plain text :: later)
  | .separator :: rest => readWords (a.leaveOver "--") rest
  | .stray text :: rest => readWords (a.leaveOver text) rest
  | .short none :: _ => .error .help
  | .short (some chars) :: _ =>
    match Word.faultyRest chars with
    | some value => .error (ignored .help (String.ofList value))
    | none => .error .help
  | .long flag (some value) :: rest =>
    if flag.takesValue then do readWords (← a.setValue flag value) rest
    else .error (ignored flag value)
  | .long flag none :: .plain value :: later =>
    if flag.takesValue then do readWords (← a.setValue flag value) later
    else do readWords (← a.raiseFlag flag) (.plain value :: later)
  | .long flag none :: rest =>
    if flag.takesValue then .error (about flag "expected one argument")
    else do readWords (← a.raiseFlag flag) rest

def read (argv : List String) : Except Refusal (String × Arguments) := do
  let words ← Word.classifyAll argv
  let a ← readWords {} words
  match a.file with
  | none => .error (.wrong "the following arguments are required: file")
  | some file =>
    if a.extras.isEmpty then pure (file, a)
    else .error (.wrong ("unrecognized arguments: " ++ " ".intercalate a.extras))

def destination (a : Arguments) : Destination :=
  if a.dryRun then .nowhere
  else
    match a.outputDir with
    | none => .unnamed
    | some text => .directory (.ofText text)

def job (a : Arguments) (file : String) (workers interval : Int) (backend : Option String) :
    BatchJob :=
  { path := .ofText file, output := a.destination, workers, interval, backend }

end Arguments

inductive CommandEnd where
  | refused (refusal : Refusal)
  | failed (fault : Fault)
  | done (count : Nat)

structure CommandRun where
  ending : CommandEnd
  storage : Storage
  log : List Entry

def defaultThreshold : String := "INFO"

/-- Runs the command: arguments, log threshold, worker count, batch, in this order. -/
def runCommand (argv : List String) (threshold : Option String) (interval : Int)
    (storage : Storage) (backend : Option String := none) : CommandRun :=
  match Arguments.read argv with
  | .error refusal => ⟨.refused refusal, storage, []⟩
  | .ok (file, a) =>
    let name := threshold.getD defaultThreshold
    match Level.ofName? name with
    | none => ⟨.failed (.unknownLevel name), storage, []⟩
    | some least =>
      match a.workers with
      | none => ⟨.failed .workersUnnumbered, storage, []⟩
      | some workers =>
        if workers < 1 then
          ⟨.refused (.wrong "--workers must be at least 1"), storage, []⟩
        else
          let run := (a.job file workers interval backend).run storage
          let log := run.log.filter fun e => e.level.passes least
          match run.outcome with
          | .error fault => ⟨.failed fault, run.storage, log⟩
          | .ok count => ⟨.done count, run.storage, log⟩

end JsonCleave
