import JsonCleave.Fault
/-!
# Log entries

What the library reports while it works, each entry with its level and the part of the
library that speaks. A threshold selects the entries that are shown.
-/

namespace JsonCleave

inductive Level where
  | debug
  | info
  | warning
  | error
  | critical
deriving DecidableEq, Repr

namespace Level

def rank : Level → Nat
  | .debug => 10
  | .info => 20
  | .warning => 30
  | .error => 40
  | .critical => 50

def label : Level → String
  | .debug => "DEBUG"
  | .info => "INFO"
  | .warning => "WARNING"
  | .error => "ERROR"
  | .critical => "CRITICAL"

def ofName? (name : String) : Option (Option Level) :=
  match name with
  | "CRITICAL" | "FATAL" => some (some .critical)
  | "ERROR" => some (some .error)
  | "WARN" | "WARNING" => some (some .warning)
  | "INFO" => some (some .info)
  | "DEBUG" => some (some .debug)
  | "NOTSET" => some none
  | _ => none

def passes (level : Level) (threshold : Option Level) : Bool :=
  match threshold with
  | some least => least.rank ≤ level.rank
  | none => true

end Level

inductive Speaker where
  | cursor
  | splitter
  | batch
deriving DecidableEq, Repr

def Speaker.label : Speaker → String
  | .cursor => "jsonsplit.token_cursor"
  | .splitter => "jsonsplit.json_splitter"
  | .batch => "batch_split.split_processor"

inductive Entry where
  | reading (engine : String)
  | emitted (serial : Nat)
  | finished (count : Nat)
  /-- Bad input interrupted a stage. -/
  | interrupted (stage : Stage) (origin : Origin)
  | unsniffable (fault : Fault)
  | noLeadingArray (path : String) (found : String)
  | progress (count : Nat)
  | done (count : Nat)
deriving Repr

namespace Entry

def level : Entry → Level
  | .reading _ => .debug
  | .emitted _ => .debug
  | .finished _ => .info
  | .interrupted _ _ => .error
  | .unsniffable _ => .error
  | .noLeadingArray _ _ => .warning
  | .progress _ => .info
  | .done _ => .info

def speaker : Entry → Speaker
  | .reading _ => .cursor
  | .emitted _ => .splitter
  | .finished _ => .splitter
  | .interrupted _ _ => .splitter
  | .unsniffable _ => .batch
  | .noLeadingArray _ _ => .batch
  | .progress _ => .batch
  | .done _ => .batch

def malformedText : String := "malformed JSON text"

def message (elapsed : String) : Entry → String
  | .reading engine => "reading tokens with ijson backend " ++ engine
  | .emitted serial => "emitted document " ++ toString serial
  | .finished count => "Split finished after " ++ toString count ++ " documents"
  | .interrupted .traverse origin =>
    "traverse failed: " ++ origin.message.getD malformedText
  | .interrupted .serialize origin =>
    "serialize failed: " ++ origin.message.getD malformedText
  | .unsniffable fault => "detect structure failed: " ++ fault.message.getD malformedText
  | .noLeadingArray path found =>
    path ++ " does not start with an array (" ++ found ++ "); splitting the first array found"
  | .progress count => toString count ++ " documents"
  | .done count => "Done " ++ toString count ++ " documents in " ++ elapsed ++ "s"

def line (elapsed : String) (e : Entry) : String :=
  e.level.label ++ " " ++ e.speaker.label ++ ": " ++ e.message elapsed

end Entry

/-- Log entries for a fault that leaves a stage. -/
def Fault.reports (stage : Stage) (fault : Fault) : List Entry :=
  (fault.origin?.map (Entry.interrupted stage)).toList

end JsonCleave
