/-!
# Decimal numbers

A decimal keeps the digits it was written with: `1.50` and `1.5` are different
decimals of one value. `Decimal.chars` is the printed form, plain for exponents
near zero and scientific otherwise, so that no digit is lost or invented.
-/

namespace JsonCleave

def decimalDigits (n : Nat) : List Char := Nat.toDigits 10 n

/-- The decimal `± coefficient * 10 ^ exponent`. -/
structure Decimal where
  negative : Bool
  coefficient : Nat
  exponent : Int
deriving DecidableEq, Repr

namespace Decimal

def leadingExponent (exponent : Int) (digits : List Char) : Int := exponent + digits.length - 1

def pointed (digits : List Char) (places : Nat) : List Char :=
  let filled := List.replicate (places + 1 - digits.length) '0' ++ digits
  let whole := filled.take (filled.length - places)
  if places = 0 then whole else whole ++ '.' :: filled.drop (filled.length - places)

def scientific (digits : List Char) (exponent : Int) : List Char :=
  let mantissa :=
    match digits with
    | [] => []
    | [d] => [d]
    | d :: rest => d :: '.' :: rest
  mantissa ++ 'E' :: (if exponent < 0 then '-' else '+') :: decimalDigits exponent.natAbs

/-- Plain notation if the exponent is at most zero and the leading digit is at least `10 ^ -6`;
scientific notation otherwise. -/
def magnitudeChars (d : Decimal) : List Char :=
  let digits := decimalDigits d.coefficient
  let leading := leadingExponent d.exponent digits
  if d.exponent ≤ 0 ∧ -6 ≤ leading then pointed digits d.exponent.natAbs
  else scientific digits leading

def chars (d : Decimal) : List Char :=
  if d.negative then '-' :: d.magnitudeChars else d.magnitudeChars

end Decimal

/-- A decimal that is not finite. The diagnostic digits of a NaN have no leading zeros. -/
inductive NonFinite where
  | infinity (negative : Bool)
  | nan (negative signaling : Bool) (diagnostic : Nat)
deriving DecidableEq, Repr

namespace NonFinite

def negative : NonFinite → Bool
  | .infinity negative => negative
  | .nan negative _ _ => negative

def word : NonFinite → List Char
  | .infinity _ => ['I', 'n', 'f', 'i', 'n', 'i', 't', 'y']
  | .nan _ signaling diagnostic =>
    (if signaling then ['s', 'N', 'a', 'N'] else ['N', 'a', 'N']) ++
      if diagnostic = 0 then [] else decimalDigits diagnostic

def chars (x : NonFinite) : List Char := if x.negative then '-' :: x.word else x.word

end NonFinite

end JsonCleave
