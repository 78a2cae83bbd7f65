import JsonCleave.Log
import JsonCleave.Scan.Scanner
import JsonCleave.Storage
/-!
# How a document begins

A look at the first byte that is no blank tells whether a document is an array, an object
or something else, without reading on.
-/

namespace JsonCleave

inductive Beginning where
  | array
  | object
  | unknown
deriving DecidableEq, Repr

namespace Beginning

def label : Beginning → String
  | .array => "array"
  | .object => "object"
  | .unknown => "unknown"

def ofBytes (bytes : List UInt8) : Beginning :=
  match bytes.dropWhile isBlank with
  | [] => .unknown
  | b :: _ =>
    if b = '['.toUInt8 then .array
    else if b = '\x7b'.toUInt8 then .object
    else .unknown

/-- Structure of the file at a path, by its first non-blank byte. An unreadable file is logged and
unknown. -/
def ofFile (s : Storage) (p : Path) : Except Fault (Beginning × List Entry) :=
  match s.read p with
  | .ok bytes => .ok (ofBytes bytes, [])
  | .error .pathWithNul => .error .pathWithNul
  | .error fault => .ok (.unknown, [.unsniffable fault])

end Beginning

end JsonCleave
