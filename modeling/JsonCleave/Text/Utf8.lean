/-!
# Bytes of a text

The bytes of a text in UTF-8, as a list, and the way back, for bytes that arrive in pieces.
-/

namespace JsonCleave

def utf8Bytes (text : String) : List UInt8 := text.toList.flatMap String.utf8EncodeChar

@[simp] theorem utf8Bytes_append (s t : String) :
    utf8Bytes (s ++ t) = utf8Bytes s ++ utf8Bytes t := by
  simp [utf8Bytes]

/-- UTF-8 decoder state: continuation bytes due, the bits so far, and the bounds of the next
byte. -/
structure Utf8Decoder where
  due : Nat := 0
  code : Nat := 0
  least : UInt8 := 0x80
  greatest : UInt8 := 0xbf
deriving DecidableEq, Repr

namespace Utf8Decoder

/-- Decoder state after a lead byte. The bounds exclude overlong forms, surrogates and codes over
`0x10ffff`. -/
def begin? (b : UInt8) : Option Utf8Decoder :=
  if b < 0xc2 then none
  else if b < 0xe0 then some { due := 1, code := b.toNat - 0xc0 }
  else if b = 0xe0 then some { due := 2, code := 0, least := 0xa0 }
  else if b = 0xed then some { due := 2, code := 0xd, greatest := 0x9f }
  else if b < 0xf0 then some { due := 2, code := b.toNat - 0xe0 }
  else if b = 0xf0 then some { due := 3, code := 0, least := 0x90 }
  else if b < 0xf4 then some { due := 3, code := b.toNat - 0xf0 }
  else if b = 0xf4 then some { due := 3, code := 4, greatest := 0x8f }
  else none

def step? (d : Utf8Decoder) (b : UInt8) : Option (Option Char × Utf8Decoder) :=
  if d.due = 0 then
    if b < 0x80 then some (some (Char.ofNat b.toNat), {})
    else (begin? b).map fun d' => (none, d')
  else if d.least ≤ b ∧ b ≤ d.greatest then
    let code := d.code * 64 + (b.toNat - 0x80)
    if d.due = 1 then some (some (Char.ofNat code), {})
    else some (none, { due := d.due - 1, code })
  else none

def decode? (d : Utf8Decoder) (reversed : List Char) :
    List UInt8 → Option (List Char × Utf8Decoder)
  | [] => some (reversed.reverse, d)
  | b :: rest =>
    match d.step? b with
    | none => none
    | some (c, d') => decode? d' (c.toList ++ reversed) rest

end Utf8Decoder

end JsonCleave
