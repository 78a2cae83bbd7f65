import JsonCleave.Fault
import JsonCleave.Storage.Path
import JsonCleave.Text.Utf8
/-!
# Storage

A file system as far as splitting needs one: directories and files below a working directory and a
root, and the documents written into directories under addresses of their own.
-/

namespace JsonCleave

inductive Node where
  | directory
  | file (bytes : List UInt8)
deriving DecidableEq, Repr

/-- A path resolved against the working directory: leading `..` parts, then names. The root is a
name of its own. -/
abbrev Location := List String

namespace Location

def root : Location := ["/"]

def isGiven (place : Location) : Bool := place == root || place.all (· == "..")

def up (place : Location) : Location :=
  if place = root then root
  else if place.all (· == "..") then place ++ [".."]
  else place.dropLast

end Location

structure Document where
  directory : Location
  address : Address
  text : String
deriving DecidableEq, Repr

/-- Nodes that were made, and documents that were written, the newest first. -/
structure Storage where
  nodes : List (Location × Node) := []
  documents : List Document := []
deriving DecidableEq, Repr

namespace Storage

def node? (s : Storage) (place : Location) : Option Node :=
  if place.isGiven then some .directory else s.nodes.lookup place

def put (s : Storage) (place : Location) (node : Node) : Storage :=
  { s with nodes := (place, node) :: s.nodes }

def staysPut (part : String) : Bool := part == "" || part == "."

/-- Resolves names from a location; each name is looked up in a directory. -/
def follow (s : Storage) (place : Location) : List String → Except PathProblem Location
  | [] => .ok place
  | part :: rest =>
    match s.node? place with
    | none => .error .absent
    | some (.file _) => .error .notDirectory
    | some .directory =>
      if staysPut part then follow s place rest
      else if part = ".." then follow s place.up rest
      else if Path.nameLimit < (utf8Bytes part).length then .error .nameTooLong
      else follow s (place ++ [part]) rest

def locate (s : Storage) (p : Path) : Except PathProblem Location :=
  if p.isTooLong then .error .nameTooLong
  else if p.isBlank then .error .absent
  else s.follow (if p.isAbsolute then Location.root else []) p.parts

def isDirectory (s : Storage) (p : Path) : Bool :=
  match s.locate p with
  | .ok place => s.node? place == some .directory
  | .error _ => false

def read (s : Storage) (p : Path) : Except Fault (List UInt8) :=
  if p.hasNul then .error .pathWithNul
  else
    match s.locate p with
    | .error problem => .error (.path problem p.text)
    | .ok place =>
      match s.node? place with
      | none => .error (.path .absent p.text)
      | some .directory => .error (.path .isDirectory p.text)
      | some (.file bytes) => .ok bytes

def makeOne (s : Storage) (p : Path) : Except PathProblem Storage :=
  match s.locate p with
  | .error problem => .error problem
  | .ok place =>
    match s.node? place with
    | some _ => .error .exists_
    | none => .ok (s.put place .directory)

def tolerate (s : Storage) (p : Path) (problem : PathProblem) : Except Fault Unit × Storage :=
  if s.isDirectory p then (.ok (), s) else (.error (.path problem p.text), s)

def makeLast (s : Storage) (p : Path) : Except Fault Unit × Storage :=
  match s.makeOne p with
  | .ok s' => (.ok (), s')
  | .error .absent => (.error (.path .absent p.text), s)
  | .error problem => s.tolerate p problem

/-- Makes the directory at the first `depth` names of a path, with missing parents. -/
def makeUpTo (s : Storage) (p : Path) : Nat → Except Fault Unit × Storage
  | 0 => s.makeLast { p with parts := [] }
  | depth + 1 =>
    let here : Path := { p with parts := p.parts.take (depth + 1) }
    match s.makeOne here with
    | .ok s' => (.ok (), s')
    | .error .absent =>
      match makeUpTo s p depth with
      | (.error fault, s') => (.error fault, s')
      | (.ok _, s') => s'.makeLast here
    | .error problem => s.tolerate here problem

def makeDirectory (s : Storage) (p : Path) : Except Fault Unit × Storage :=
  if p.hasNul then (.error .pathWithNul, s) else s.makeUpTo p p.parts.length

def addDocument (s : Storage) (directory : Location) (address : Address) (text : String) :
    Storage :=
  { s with documents := ⟨directory, address, text⟩ :: s.documents }

def since (before after : Storage) : List (Location × List Document) :=
  let written := after.documents.take (after.documents.length - before.documents.length)
  let made := after.nodes.filterMap fun (place, node) =>
    if node = .directory ∧ before.node? place = none then some place else none
  (made ++ written.map Document.directory).eraseDups.map fun place =>
    (place, written.filter fun d => d.directory = place)

end Storage

end JsonCleave
