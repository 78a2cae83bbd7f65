import JsonCleave.Text.Utf8
/-!
# Paths

A path is a sequence of names. Empty names and single dots between slashes say nothing
and are left out; double dots stay, for only the file system knows where they lead. A path may
also be taken to the letter, with all that stands between its slashes: then an empty name or a
dot behind a name asks for a directory.
-/

namespace JsonCleave

/-- The start of a path: the working directory, `/`, or `//`. -/
inductive Anchor where
  | here
  | root
  | doubleRoot
deriving DecidableEq, Repr

def Anchor.text : Anchor → String
  | .here => ""
  | .root => "/"
  | .doubleRoot => "//"

structure Path where
  anchor : Anchor
  parts : List String
deriving DecidableEq, Repr

namespace Path

def splitFrom (current : List Char) : List Char → List (List Char)
  | [] => [current.reverse]
  | c :: rest =>
    if c = '/' then current.reverse :: splitFrom [] rest else splitFrom (c :: current) rest

def split (text : List Char) : List (List Char) := splitFrom [] text

def isName (part : List Char) : Bool := !part.isEmpty && part != ['.']

def anchorOf (text : List Char) : Anchor :=
  match (text.takeWhile (· = '/')).length with
  | 0 => .here
  | 2 => .doubleRoot
  | _ => .root

def ofText (text : String) : Path :=
  { anchor := anchorOf text.toList
    parts := ((split text.toList).filter isName).map String.ofList }

def literal (text : String) : Path :=
  match text.toList with
  | '/' :: rest => { anchor := .root, parts := (split rest).map String.ofList }
  | chars => { anchor := .here, parts := (split chars).map String.ofList }

def text (p : Path) : String :=
  if p.anchor = .here ∧ p.parts.isEmpty then "."
  else p.anchor.text ++ "/".intercalate p.parts

def isAbsolute (p : Path) : Bool := p.anchor != .here

def isBlank (p : Path) : Bool := p.anchor == .here && p.parts == [""]

def hasNul (p : Path) : Bool := p.parts.any fun part => part.toList.contains '\x00'

def nameLimit : Nat := 255

def textLimit : Nat := 4095

def isTooLong (p : Path) : Bool := textLimit < (utf8Bytes p.text).length

end Path

end JsonCleave
