import JsonCleave.Log
import JsonCleave.Cursor
import JsonCleave.Scan.LooseScanner
/-!
# Cursors over byte streams

A stream is read by a scanning engine, which goes by a name. The caller may name one;
otherwise the environment may; otherwise the default is used.
-/

namespace JsonCleave

inductive Engine where
  | exact
  | loose
deriving DecidableEq, Repr

namespace Engine

def label : Engine → String
  | .exact => "yajl2_c"
  | .loose => "python"

def standard : Engine := .exact

def feed : Engine → Reads → Feed
  | .exact => Feed.ofReads
  | .loose => LooseScanner.feed

def load (name : String) : Except Fault Engine :=
  match name with
  | "yajl2_c" => .ok .exact
  | "python" => .ok .loose
  | "yajl" | "yajl2" => .error .libraryAbsent
  | "yajl2_cffi" => .error (.unknownModule "cffi")
  | _ => .error (.unknownModule (Fault.engineModule name))

/-- The engine of a module name. A dotted name asks for a submodule, and no engine has one. -/
def named (name : String) : Except Fault Engine :=
  match name.splitOn "." with
  | first :: part :: _ =>
    match load first with
    | .ok _ => .error (.noParts (Fault.engineModule first) part)
    | .error fault => .error fault
  | _ => load name

def choose (argument environment : Option String) : Except Fault Engine :=
  match (argument.filter (· ≠ "")) <|> (environment.filter (· ≠ "")) with
  | none => .ok standard
  | some name => named name

end Engine

/-- Opens a stream with the engine named first, by argument or environment. Reads nothing. -/
def Cursor.ofStream (argument environment : Option String) (stream : Option Reads) :
    Except Fault (Cursor × Entry) :=
  match stream with
  | none => .error (.missing .input)
  | some reads =>
    (Engine.choose argument environment).map fun engine =>
      (Cursor.ofFeed (engine.feed reads), .reading engine.label)

theorem Cursor.ofStream_exact {argument environment : Option String}
    (h : Engine.choose argument environment = .ok .exact) (reads : Reads) :
    ofStream argument environment (some reads) =
      .ok (.ofFeed (.ofReads reads), .reading Engine.exact.label) := by
  simp [ofStream, h, Except.map, Engine.feed]

end JsonCleave
