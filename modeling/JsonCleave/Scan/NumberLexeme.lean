import JsonCleave.Number
/-!
# Number lexemes

The grammar `-?(0|[1-9][0-9]*)(\.[0-9]+)?([eE][+-]?[0-9]+)?`, read byte by byte. The
lexeme carries the value read so far, so that a finished number needs no second pass
over its digits.
-/

namespace JsonCleave

def digit? (b : UInt8) : Option Nat :=
  if '0'.toUInt8 ≤ b ∧ b ≤ '9'.toUInt8 then some (b.toNat - 48) else none

inductive NumberPhase where
  | sign
  | zero
  | whole
  | point
  | fraction
  | mark
  | markSign
  | exponent
deriving DecidableEq, Repr

/-- A number in progress: phase, sign, all digits before the exponent, how many of them are behind
the point, and the exponent. -/
structure NumberLexeme where
  phase : NumberPhase
  negative : Bool
  coefficient : Nat
  places : Nat
  exponentNegative : Bool
  exponent : Nat
deriving DecidableEq, Repr

namespace NumberLexeme

def signed (negative : Bool) : NumberLexeme := ⟨.sign, negative, 0, 0, false, 0⟩

def pushLeading (l : NumberLexeme) (d : Nat) : NumberLexeme :=
  { l with phase := if d = 0 then .zero else .whole, coefficient := d }

def pushWhole (l : NumberLexeme) (d : Nat) : NumberLexeme :=
  { l with coefficient := l.coefficient * 10 + d }

def pushFraction (l : NumberLexeme) (d : Nat) : NumberLexeme :=
  { l with phase := .fraction, coefficient := l.coefficient * 10 + d, places := l.places + 1 }

def pushExponent (l : NumberLexeme) (d : Nat) : NumberLexeme :=
  { l with phase := .exponent, exponent := l.exponent * 10 + d }

def isMark (b : UInt8) : Bool := b == 'e'.toUInt8 || b == 'E'.toUInt8

def push? (l : NumberLexeme) (b : UInt8) : Option NumberLexeme :=
  match l.phase, digit? b with
  | .sign, some d => some (l.pushLeading d)
  | .whole, some d => some (l.pushWhole d)
  | .point, some d => some (l.pushFraction d)
  | .fraction, some d => some (l.pushFraction d)
  | .mark, some d => some (l.pushExponent d)
  | .markSign, some d => some (l.pushExponent d)
  | .exponent, some d => some (l.pushExponent d)
  | .zero, none | .whole, none =>
    if b = '.'.toUInt8 then some { l with phase := .point }
    else if isMark b then some { l with phase := .mark }
    else none
  | .fraction, none => if isMark b then some { l with phase := .mark } else none
  | .mark, none =>
    if b = '+'.toUInt8 then some { l with phase := .markSign }
    else if b = '-'.toUInt8 then some { l with phase := .markSign, exponentNegative := true }
    else none
  | _, _ => none

def start? (b : UInt8) : Option NumberLexeme :=
  if b = '-'.toUInt8 then some (signed true) else (digit? b).map (signed false).pushLeading

def decimal (l : NumberLexeme) : Decimal :=
  { negative := l.negative
    coefficient := l.coefficient
    exponent := (if l.exponentNegative then -(l.exponent : Int) else l.exponent) - l.places }

/-- The value, if the number may end here. Without point and exponent it is an integer. -/
def value? (l : NumberLexeme) : Option Number :=
  match l.phase with
  | .zero | .whole =>
    some (.integer (if l.negative then -(l.coefficient : Int) else l.coefficient))
  | .fraction | .exponent => some (.decimal l.decimal)
  | _ => none

def pushAll? (l : NumberLexeme) : List UInt8 → Option NumberLexeme
  | [] => some l
  | b :: rest => (l.push? b).bind (pushAll? · rest)

def read? : List UInt8 → Option NumberLexeme
  | [] => none
  | b :: rest =>
    ((start? b).bind (pushAll? · rest)).filter fun l => l.value?.isSome

end NumberLexeme

end JsonCleave
