import JsonCleave.Number.Decimal
/-!
# Binary floating point numbers and their shortest decimal text

A double is its bit pattern. Its text has the fewest digits that read back as the
same double, and of those the nearest to it. All arithmetic is on `Nat`: with
`m * 2 ^ q` for the value, the doubles' neighbours bound the interval of reals that
round to it, and `shortest` looks for the coarsest power of ten that has a multiple
in that interval.
-/

namespace JsonCleave

/-- An IEEE 754 double, as its bit pattern. -/
structure Binary64 where
  bits : UInt64
deriving DecidableEq, Repr

namespace Binary64

def negative (x : Binary64) : Bool := x.bits >>> 63 != 0

def biasedExponent (x : Binary64) : Nat := ((x.bits >>> 52) &&& 0x7ff).toNat

def fraction (x : Binary64) : Nat := (x.bits &&& 0xfffffffffffff).toNat

def isSpecial (x : Binary64) : Bool := x.biasedExponent == 0x7ff

def leadingBit : Nat := 0x10000000000000

/-- The integer `m` of the magnitude `m * 2 ^ q`. -/
def significand (x : Binary64) : Nat :=
  if x.biasedExponent = 0 then x.fraction else x.fraction + leadingBit

/-- The exponent `q` of the magnitude `m * 2 ^ q`. -/
def scale (x : Binary64) : Int :=
  if x.biasedExponent = 0 then -1074 else (x.biasedExponent : Int) - 1075

def atBinade (x : Binary64) : Bool := x.fraction == 0 && decide (1 < x.biasedExponent)

def integerPower (base : Nat) (exponent : Int) : Nat :=
  if 0 ≤ exponent then Nat.pow base exponent.toNat else 1

/-- The multiple of `10 ^ s` that reads back as the magnitude, if there is one. It is the
nearer of the two next to the magnitude, and the even one on a tie. The rounding interval, in
quarters of `2 ^ q`, reaches from `4m - 2` (`4m - 1` at a power of two) to `4m + 2`, with its
ends when `m` is even. -/
def multiple? (x : Binary64) (s : Int) : Option Nat :=
  let m := x.significand
  let up := integerPower 2 (x.scale - 2) * integerPower 10 (-s)
  let down := integerPower 2 (2 - x.scale) * integerPower 10 s
  let value := 4 * m * up
  let low := (4 * m - if x.atBinade then 1 else 2) * up
  let high := (4 * m + 2) * up
  let reads (c : Nat) : Bool :=
    if m % 2 = 0 then low ≤ c * down && c * down ≤ high
    else low < c * down && c * down < high
  let below := value / down
  let above := below + 1
  let nearer :=
    if value - below * down < above * down - value then below
    else if above * down - value < value - below * down then above
    else if below % 2 = 0 then below else above
  let farther := if nearer = below then above else below
  if nearer ≠ 0 ∧ reads nearer then some nearer
  else if farther ≠ 0 ∧ reads farther then some farther
  else none

/-- The shortest digits that read back as the magnitude, as a coefficient and a power of ten. -/
def shortest (x : Binary64) : Nat × Int :=
  ((List.range 634).findSome? fun (i : Nat) =>
    (x.multiple? (309 - (i : Int))).map fun c => (c, 309 - (i : Int))).getD (0, 0)

structure Layout where
  plainFrom : Int
  plainBelow : Int
  exponentWidth : Nat
  notANumber : List Char
  infinity : List Char

def Layout.json : Layout :=
  ⟨-4, 16, 2, "NaN".toList, "Infinity".toList⟩

def Layout.shown : Layout :=
  ⟨-4, 16, 2, "nan".toList, "inf".toList⟩

def widened (width : Nat) (n : Nat) : List Char :=
  let digits := decimalDigits n
  List.replicate (width - digits.length) '0' ++ digits

/-- The digits of `coefficient * 10 ^ s`, in plain or exponent notation. -/
def Layout.place (layout : Layout) (coefficient : Nat) (s : Int) : List Char :=
  let digits := decimalDigits coefficient
  let leading := s + digits.length - 1
  if layout.plainFrom ≤ leading ∧ leading < layout.plainBelow then
    if 0 ≤ s then digits ++ List.replicate s.toNat '0' ++ ['.', '0']
    else Decimal.pointed digits s.natAbs
  else
    let mantissa :=
      match digits with
      | [] => []
      | [d] => [d]
      | d :: rest => d :: '.' :: rest
    mantissa ++ 'e' :: (if leading < 0 then '-' else '+')
      :: widened layout.exponentWidth leading.natAbs

def chars (layout : Layout) (x : Binary64) : List Char :=
  if x.isSpecial then
    if x.fraction ≠ 0 then layout.notANumber
    else if x.negative then '-' :: layout.infinity else layout.infinity
  else
    let magnitude :=
      if x.significand = 0 then ['0', '.', '0']
      else layout.place x.shortest.1 x.shortest.2
    if x.negative then '-' :: magnitude else magnitude

end Binary64

end JsonCleave
