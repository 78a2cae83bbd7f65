import JsonCleave.Number.Binary64
import JsonCleave.Text.Numeral
/-!
# Numbers

The numbers a token can hold: unbounded integers and exact decimals, as they are read
from text, and doubles, which only ready-made tokens bring along. An integer is unbounded as a
value; the conversion between integers and text is subject to a limit on the number of digits.
-/

namespace JsonCleave

/-- Maximal number of digits in conversions between integers and text; `none` lifts the limit. -/
abbrev DigitLimit := Option Nat

def DigitLimit.standard : DigitLimit := some digitLimit

/-- A conversion over the limit. `digits` is counted when reading, and absent when writing. -/
structure DigitExcess where
  limit : Nat
  digits : Option Nat
deriving DecidableEq, Repr

inductive Number where
  | integer (n : Int)
  | decimal (d : Decimal)
  | binary (x : Binary64)
deriving DecidableEq, Repr

namespace Number

def integerChars (n : Int) : List Char :=
  if n < 0 then '-' :: decimalDigits n.natAbs else decimalDigits n.natAbs

def chars : Number → List Char
  | .integer n => integerChars n
  | .decimal d => d.chars
  | .binary x => x.chars .json

def text (n : Number) : String := String.ofList n.chars

/-- The excess of a number that cannot be written. Decimals and doubles always can. -/
def excess? (limit : DigitLimit) : Number → Option DigitExcess
  | .integer n =>
    limit.bind fun most =>
      if (decimalDigits n.natAbs).length ≤ most then none else some ⟨most, none⟩
  | .decimal _ | .binary _ => none

/-- Integers can be written below `10 ^ most` in magnitude. -/
theorem excess?_integer {most : Nat} (hmost : 0 < most) (n : Int) :
    (integer n).excess? (some most) =
      if n.natAbs < Nat.pow 10 most then none else some ⟨most, none⟩ := by
  simp only [excess?, decimalDigits, Option.bind_some,
    Nat.length_toDigits_le_iff (show 1 < 10 by decide) hmost]
  rfl

end Number

end JsonCleave
