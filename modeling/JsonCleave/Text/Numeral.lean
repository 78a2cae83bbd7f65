/-!
# Integers in settings

An integer in a setting or an argument may have blanks around it, a sign, single
underscores between digits, and the decimal digits of any script. It may not be longer than
`digitLimit`.
-/

namespace JsonCleave

def scriptZeros : List Nat :=
  [0x660, 0x6f0, 0x7c0, 0x966, 0x9e6, 0xa66, 0xae6, 0xb66, 0xbe6, 0xc66, 0xce6, 0xd66, 0xde6,
   0xe50, 0xed0, 0xf20, 0x1040, 0x1090, 0x17e0, 0x1810, 0x1946, 0x19d0, 0x1a80, 0x1a90, 0x1b50,
   0x1bb0, 0x1c40, 0x1c50, 0xa620, 0xa8d0, 0xa900, 0xa9d0, 0xa9f0, 0xaa50, 0xabf0, 0xff10,
   0x104a0, 0x10d30, 0x11066, 0x110f0, 0x11136, 0x111d0, 0x112f0, 0x11450, 0x114d0, 0x11650,
   0x116c0, 0x11730, 0x118e0, 0x11950, 0x11c50, 0x11d50, 0x11da0, 0x16a60, 0x16ac0, 0x16b50,
   0x1d7ce, 0x1d7d8, 0x1d7e2, 0x1d7ec, 0x1d7f6, 0x1e140, 0x1e2f0, 0x1e950, 0x1fbf0]

def decimalDigit? (c : Char) : Option Nat :=
  if '0' ≤ c ∧ c ≤ '9' then some (c.toNat - 48)
  else (scriptZeros.find? fun first => first ≤ c.toNat && c.toNat < first + 10).map (c.toNat - ·)

def isSettingBlank (c : Char) : Bool :=
  let code := c.toNat
  code == 0x20 || (0x09 ≤ code && code ≤ 0x0d) || code == 0x85 || code == 0xa0
    || code == 0x1680 || (0x2000 ≤ code && code ≤ 0x200a) || code == 0x2028 || code == 0x2029
    || code == 0x202f || code == 0x205f || code == 0x3000

inductive IntegerFlaw where
  | malformed
  | tooLong (digits : Nat)
deriving DecidableEq, Repr

def digitLimit : Nat := 4300

def isWellSeparated : List Char → Bool
  | [] => true
  | ['_'] => false
  | '_' :: '_' :: _ => false
  | _ :: rest => isWellSeparated rest

/-- Digits with single underscores between them. Separators are checked first, then the digit limit,
then the rest of the text. -/
def readNatural (text : List Char) : Except IntegerFlaw Nat :=
  let isPart (c : Char) : Bool := c == '_' || (decimalDigit? c).isSome
  let run := text.takeWhile isPart
  let digits := run.filterMap decimalDigit?
  if run.head? = some '_' ∨ !isWellSeparated run then .error .malformed
  else if digitLimit < digits.length then .error (.tooLong digits.length)
  else if digits.isEmpty ∨ run.length < text.length then .error .malformed
  else .ok (digits.foldl (fun value d => value * 10 + d) 0)

def trimBlanks (text : List Char) : List Char :=
  ((text.dropWhile isSettingBlank).reverse.dropWhile isSettingBlank).reverse

def readInteger (text : String) : Except IntegerFlaw Int :=
  match trimBlanks text.toList with
  | '-' :: rest => (readNatural rest).map fun n => -(n : Int)
  | '+' :: rest => (readNatural rest).map fun n => (n : Int)
  | digits => (readNatural digits).map fun n => (n : Int)

end JsonCleave
