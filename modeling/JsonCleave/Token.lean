import JsonCleave.Number
/-!
# Tokens of a JSON stream

A document is read as a sequence of tokens: the brackets of its containers, the
names of members and the scalar values. `Token.shift` is the one rule by which
tokens change the number of open containers.
-/

namespace JsonCleave

inductive Shape where
  | object
  | array
deriving DecidableEq, Repr

inductive Scalar where
  | null
  | boolean (b : Bool)
  | number (n : Number)
  /-- A number token too, but only in ready-made tokens. -/
  | nonFinite (x : NonFinite)
  | string (s : String)
deriving DecidableEq, Repr

inductive Token where
  | opening (shape : Shape)
  | closing (shape : Shape)
  | key (name : String)
  | scalar (value : Scalar)
deriving DecidableEq, Repr

def Scalar.excess? (limit : DigitLimit) : Scalar → Option DigitExcess
  | .number n => n.excess? limit
  | _ => none

namespace Token

def label : Token → String
  | .opening .object => "start_map"
  | .opening .array => "start_array"
  | .closing .object => "end_map"
  | .closing .array => "end_array"
  | .key _ => "map_key"
  | .scalar .null => "null"
  | .scalar (.boolean _) => "boolean"
  | .scalar (.number _) | .scalar (.nonFinite _) => "number"
  | .scalar (.string _) => "string"

def isOpening : Token → Bool
  | .opening _ => true
  | _ => false

def isClosing : Token → Bool
  | .closing _ => true
  | _ => false

/-- The number of open containers after the token. It is not lowered below zero. -/
def shift : Token → Nat → Nat
  | .opening _, depth => depth + 1
  | .closing _, depth => depth - 1
  | _, depth => depth

@[simp] theorem shift_opening (shape : Shape) (depth : Nat) :
    (opening shape).shift depth = depth + 1 := rfl

@[simp] theorem shift_closing (shape : Shape) (depth : Nat) :
    (closing shape).shift depth = depth - 1 := rfl

@[simp] theorem shift_key (name : String) (depth : Nat) : (key name).shift depth = depth := rfl

@[simp] theorem shift_scalar (value : Scalar) (depth : Nat) :
    (scalar value).shift depth = depth := rfl

def excess? (limit : DigitLimit) : Token → Option DigitExcess
  | .scalar value => value.excess? limit
  | _ => none

def IsPrintable (limit : DigitLimit) (t : Token) : Prop := t.excess? limit = none

theorem exists_scalar_of_excess {limit : DigitLimit} {t : Token} {excess : DigitExcess}
    (h : t.excess? limit = some excess) : ∃ value, t = .scalar value := by
  cases t with
  | scalar value => exact ⟨value, rfl⟩
  | _ => cases h

instance (limit : DigitLimit) (t : Token) : Decidable (t.IsPrintable limit) :=
  inferInstanceAs (Decidable (t.excess? limit = none))

def name? : Token → Option String
  | .key name => some name
  | _ => none

def text? : Token → Option String
  | .scalar (.string s) => some s
  | _ => none

def boolean? : Token → Option Bool
  | .scalar (.boolean b) => some b
  | _ => none

def integer? : Token → Option Int
  | .scalar (.number (.integer n)) => some n
  | _ => none

end Token

end JsonCleave
