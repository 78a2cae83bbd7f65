import JsonCleave.Origin
import JsonCleave.Token
import JsonCleave.Payload
import JsonCleave.Text.Numeral
/-!
# Faults

Every way in which a call can fail, by its cause. The wording of a fault is in
`Fault.message` alone.
-/

namespace JsonCleave

/-- The stages that report bad input as their own interruption. -/
inductive Stage where
  | traverse
  | serialize
deriving DecidableEq, Repr

inductive Missing where
  | input
  | policy
  | splitter
  | view
  | payload
deriving DecidableEq, Repr

inductive PathProblem where
  | absent
  | exists_
  | notDirectory
  | isDirectory
  | nameTooLong
deriving DecidableEq, Repr

inductive Fault where
  /-- A `JSONError` or an `OSError`, of the source or raised by a hook or a builder. -/
  | input (origin : Origin)
  | undecodable (flaw : StringFlaw) (place : Nat)
  /-- A broken source ended the traversal or the copy of a container. -/
  | interrupted (stage : Stage) (origin : Origin)
  | unfinishedView
  | unfinishedCopy
  | closedView
  | viewNotClosable
  | unknownDecision (answer : Value)
  | notCopyable (token : Option Token)
  | missing (what : Missing)
  | unknownFormat (label : String)
  | unknownModule (name : String)
  | noParts (owner : String) (part : String)
  | libraryAbsent
  | unknownLevel (name : String)
  | notAnInteger (text : String)
  | tooManyDigits (excess : DigitExcess)
  | sizeTooLarge
  | zeroInterval
  | path (problem : PathProblem) (text : String)
  | directoryUnnamed
  | workersUnnumbered
  | pathWithNul
  /-- An exception from outside, by the name of its class. -/
  | raised (kind : String) (message : String)
deriving Repr

namespace Missing

def label : Missing → String
  | .input => "Input"
  | .policy => "Visitor"
  | .splitter => "JSONSplitter"
  | .view => "Container cursor"
  | .payload => "Handle"

end Missing

namespace Stage

def message : Stage → String
  | .traverse => "Failed to traverse document"
  | .serialize => "Could not serialize the document"

end Stage

namespace PathProblem

def code : PathProblem → Nat
  | .absent => 2
  | .exists_ => 17
  | .notDirectory => 20
  | .isDirectory => 21
  | .nameTooLong => 36

def description : PathProblem → String
  | .absent => "No such file or directory"
  | .exists_ => "File exists"
  | .notDirectory => "Not a directory"
  | .isDirectory => "Is a directory"
  | .nameTooLong => "File name too long"

end PathProblem

namespace Fault

/-- Maximal length of a text quoted in a message, quotes included. -/
def shownLimit : Nat := 200

def engineModule (name : String) : String := "ijson.backends." ++ name

def pathMessage (problem : PathProblem) (text : String) : String :=
  "[Errno " ++ toString problem.code ++ "] " ++ problem.description ++ ": " ++ quoted text

def message : Fault → Option String
  | .input origin => origin.message
  | .undecodable flaw place =>
    some (flaw.label ++ ": line 1 column " ++ toString (place + 1) ++
      " (char " ++ toString place ++ ")")
  | .interrupted stage _ => some stage.message
  | .unfinishedView => some "Token stream ended inside an open container"
  | .unfinishedCopy => some "JSON structure ended before its closing token"
  | .closedView => some "The JSON branch is closed"
  | .viewNotClosable => some "Current JSON branch cannot be closed."
  | .unknownDecision answer => some ("Unknown state: " ++ answer.shown)
  | .notCopyable token =>
    some ("Cannot copy structure starting at token " ++
      match token with
      | some t => quoted t.label
      | none => Value.null.shown)
  | .missing what => some (what.label ++ " cannot be null")
  | .unknownFormat label => some (quoted label ++ " is not a valid Format")
  | .unknownModule name => some ("No module named " ++ quoted name)
  | .noParts owner part =>
    some ("No module named " ++ quoted (owner ++ "." ++ part) ++ "; " ++ quoted owner
      ++ " is not a package")
  | .libraryAbsent => some "YAJL shared object not found."
  | .unknownLevel name => some ("Unknown level: " ++ quoted name)
  | .notAnInteger text =>
    some ("invalid literal for int() with base 10: " ++
      String.ofList ((quoted text).toList.take shownLimit))
  | .tooManyDigits ⟨limit, digits⟩ =>
    some ("Exceeds the limit (" ++ toString limit ++ " digits) for integer string conversion"
      ++ (match digits with
        | some n => ": value has " ++ toString n ++ " digits"
        | none => "")
      ++ "; use sys.set_int_max_str_digits() to increase the limit")
  | .sizeTooLarge => some "cannot fit 'int' into an index-sized integer"
  | .zeroInterval => some "integer modulo by zero"
  | .path problem text => some (pathMessage problem text)
  | .directoryUnnamed => some "'list' object has no attribute 'mkdir'"
  | .workersUnnumbered => some "'<' not supported between instances of 'list' and 'int'"
  | .pathWithNul => some "embedded null byte"
  | .raised _ message => some message

/-- Class names of `OSError`, its aliases and its built-in subclasses. -/
def unreadableKinds : List String :=
  ["OSError", "EnvironmentError", "IOError", "BlockingIOError", "ChildProcessError",
    "ConnectionError", "BrokenPipeError", "ConnectionAbortedError", "ConnectionRefusedError",
    "ConnectionResetError", "FileExistsError", "FileNotFoundError", "InterruptedError",
    "IsADirectoryError", "NotADirectoryError", "PermissionError", "ProcessLookupError",
    "TimeoutError", "UnsupportedOperation"]

/-- Class names of `JSONError` and its subclasses. -/
def malformedKinds : List String := ["JSONError", "IncompleteJSONError", "UnexpectedSymbol"]

/-- The origin of a fault whose class is `JSONError`, `OSError` or a subclass of these. -/
def origin? : Fault → Option Origin
  | .input origin => some origin
  | .path problem text => some (.unreadable (pathMessage problem text))
  | .raised kind message =>
    if kind ∈ unreadableKinds then some (.unreadable message)
    else if kind ∈ malformedKinds then some (.malformed (some message))
    else none
  | _ => none

/-- A fault as it leaves a stage: bad input becomes `interrupted`, any other fault is unchanged. -/
def leaving (stage : Stage) (fault : Fault) : Fault :=
  match fault.origin? with
  | some origin => .interrupted stage origin
  | none => fault

end Fault

def Format.named (label : String) : Except Fault Format :=
  match Format.ofLabel? label with
  | some format => .ok format
  | none => .error (.unknownFormat label)

end JsonCleave
