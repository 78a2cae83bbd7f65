import JsonCleave.Origin
import JsonCleave.Scan.StringLexeme
/-!
# Decoding a string as a whole

The inside of a JSON string whose closing quote has been found already. A flaw is told
with its place, where the opening quote has place zero. A half of a surrogate pair that lacks its
other half reads as U+FFFD.
-/

namespace JsonCleave

namespace LooseString

def hexValue? (c : Char) : Option Nat :=
  if c.toNat < 0x80 then hexDigit? c.toNat.toUInt8 else none

def code? (digits : List Char) : Option Nat :=
  if digits.length = 4 then
    digits.foldl (fun code c => code.bind fun n => (hexValue? c).map (n * 16 + ·)) (some 0)
  else none

def loneHalf : Char := '\ufffd'

def charOf (code : Nat) : Char := if code.isValidChar then Char.ofNat code else loneHalf

def secondHalf? : List Char → Option (Option Nat)
  | '\\' :: 'u' :: a :: b :: c :: d :: _ => some (code? [a, b, c, d])
  | _ => none

/-- Decodes escapes from the given place on. `reversed` accumulates the characters. -/
def decodeFrom (place : Nat) (reversed : List Char) (text : List Char) :
    Except (StringFlaw × Nat) (List Char) :=
  match text with
  | [] => .ok reversed.reverse
  | '\\' :: 'u' :: rest =>
    match code? (rest.take 4) with
    | none => .error (.escapeNumber, place + 1)
    | some code =>
      if StringLexeme.isHighSurrogate code then
        match secondHalf? (rest.drop 4) with
        | none => decodeFrom (place + 6) (loneHalf :: reversed) (rest.drop 4)
        | some none => .error (.escapeNumber, place + 7)
        | some (some low) =>
          if StringLexeme.isLowSurrogate low then
            decodeFrom (place + 12)
              (Char.ofNat (StringLexeme.joinSurrogates code low) :: reversed) (rest.drop 10)
          else decodeFrom (place + 6) (loneHalf :: reversed) (rest.drop 4)
      else decodeFrom (place + 6) (charOf code :: reversed) (rest.drop 4)
  | '\\' :: c :: rest =>
    match (if c.toNat < 0x80 then StringLexeme.escaped? c.toNat.toUInt8 else none) with
    | some e => decodeFrom (place + 2) (e :: reversed) rest
    | none => .error (.escape, place)
  | c :: rest =>
    if c.toNat < 0x20 then .error (.control, place)
    else decodeFrom (place + 1) (c :: reversed) rest
termination_by text.length
decreasing_by all_goals simp; try omega

def decode (inside : List Char) : Except (StringFlaw × Nat) String :=
  (decodeFrom 1 [] inside).map String.ofList

end LooseString

end JsonCleave
