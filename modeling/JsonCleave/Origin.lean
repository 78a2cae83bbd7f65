/-!
# Where bad input comes from

A source of tokens ends well, or it breaks: its text is malformed, or it cannot be
read any further.
-/

namespace JsonCleave

/-- Why a source delivers no further token. The scanners give malformed text no message; hooks
may. -/
inductive Origin where
  | malformed (message : Option String)
  | unreadable (message : String)
deriving DecidableEq, Repr

inductive StringFlaw where
  | control
  | escape
  | escapeNumber
deriving DecidableEq, Repr

/-- How a source ends behind its last token. -/
inductive Ending where
  | complete
  | broken (origin : Origin)
  | undecodable (flaw : StringFlaw) (place : Nat)
deriving DecidableEq, Repr

def Origin.message : Origin → Option String
  | .malformed message => message
  | .unreadable message => some message

def StringFlaw.label : StringFlaw → String
  | .control => "Invalid control character at"
  | .escape => "Invalid \\escape"
  | .escapeNumber => "Invalid \\uXXXX escape"

end JsonCleave
