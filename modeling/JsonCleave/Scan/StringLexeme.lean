/-!
# String lexemes

The inside of a JSON string, read byte by byte behind its opening quote: characters
in UTF-8, and escapes with one letter or four hexadecimal digits. Two such escapes
that name a surrogate pair make one character. A control character is refused at its byte, and
so is a byte that spells nothing. What is well spelled but names no Unicode scalar value is
refused at the closing quote, when the string would have to be delivered.
-/

namespace JsonCleave

inductive StringPhase where
  | plain
  /-- A character in UTF-8: continuation bytes still due, the bits so far, and the least code
  that needs this many bytes. -/
  | multibyte (due : Nat) (code : Nat) (least : Nat)
  | escape
  /-- An escape by number: hexadecimal digits still due, the code so far, and the first half of
  a surrogate pair when this is its second. -/
  | hex (due : Nat) (code : Nat) (high : Option Nat)
  /-- Behind the first half of a surrogate pair: the backslash of the second. -/
  | pairBackslash (high : Nat)
  /-- Behind the backslash of the second half: the letter `u`. -/
  | pairLetter (high : Nat)
deriving DecidableEq, Repr

/-- A string in progress, its characters in reverse; none if an escape or byte sequence in it
encodes no character. -/
structure StringLexeme where
  phase : StringPhase
  reversed : Option (List Char)
deriving DecidableEq, Repr

inductive StringProgress where
  | more (lexeme : StringLexeme)
  | complete (text : String)
  | refused
deriving DecidableEq, Repr

def hexDigit? (b : UInt8) : Option Nat :=
  if '0'.toUInt8 ≤ b ∧ b ≤ '9'.toUInt8 then some (b.toNat - 48)
  else if 'a'.toUInt8 ≤ b ∧ b ≤ 'f'.toUInt8 then some (b.toNat - 87)
  else if 'A'.toUInt8 ≤ b ∧ b ≤ 'F'.toUInt8 then some (b.toNat - 55)
  else none

namespace StringLexeme

def start : StringLexeme := ⟨.plain, some []⟩

def put (l : StringLexeme) (c : Char) : StringProgress :=
  .more ⟨.plain, l.reversed.map (c :: ·)⟩

def spoil (phase : StringPhase) : StringLexeme := ⟨phase, none⟩

def putCode (l : StringLexeme) (code : Nat) : StringProgress :=
  if code.isValidChar then l.put (Char.ofNat code) else .more (spoil .plain)

def close (l : StringLexeme) : StringProgress :=
  match l.reversed with
  | some reversed => .complete (String.ofList reversed.reverse)
  | none => .refused

def escaped? (b : UInt8) : Option Char :=
  if b = '"'.toUInt8 then some '"'
  else if b = '\\'.toUInt8 then some '\\'
  else if b = '/'.toUInt8 then some '/'
  else if b = 'b'.toUInt8 then some '\x08'
  else if b = 'f'.toUInt8 then some '\x0c'
  else if b = 'n'.toUInt8 then some '\n'
  else if b = 'r'.toUInt8 then some '\r'
  else if b = 't'.toUInt8 then some '\t'
  else none

def pushPlain (l : StringLexeme) (b : UInt8) : StringProgress :=
  if b = '"'.toUInt8 then l.close
  else if b = '\\'.toUInt8 then .more { l with phase := .escape }
  else if b < 0x20 then .refused
  else if b < 0x80 then l.putCode b.toNat
  else if b < 0xc0 then .refused
  else if b < 0xe0 then .more { l with phase := .multibyte 1 (b.toNat - 0xc0) 0x80 }
  else if b < 0xf0 then .more { l with phase := .multibyte 2 (b.toNat - 0xe0) 0x800 }
  else if b < 0xf8 then .more { l with phase := .multibyte 3 (b.toNat - 0xf0) 0x10000 }
  else .refused

def pushMultibyte (l : StringLexeme) (due code least : Nat) (b : UInt8) : StringProgress :=
  if 0x80 ≤ b ∧ b < 0xc0 then
    let code := code * 64 + (b.toNat - 0x80)
    if due ≤ 1 then
      if least ≤ code then l.putCode code else .more (spoil .plain)
    else .more { l with phase := .multibyte (due - 1) code least }
  else .refused

def pushEscape (l : StringLexeme) (b : UInt8) : StringProgress :=
  if b = 'u'.toUInt8 then .more { l with phase := .hex 4 0 none }
  else
    match escaped? b with
    | some c => l.put c
    | none => .refused

def isHighSurrogate (code : Nat) : Bool := 0xd800 ≤ code && code < 0xdc00

def isLowSurrogate (code : Nat) : Bool := 0xdc00 ≤ code && code < 0xe000

def joinSurrogates (high low : Nat) : Nat :=
  0x10000 + (high - 0xd800) * 0x400 + (low - 0xdc00)

def endHex (l : StringLexeme) (code : Nat) (high : Option Nat) : StringProgress :=
  match high with
  | some h =>
    if isLowSurrogate code then l.putCode (joinSurrogates h code) else .more (spoil .plain)
  | none =>
    if isHighSurrogate code then .more { l with phase := .pairBackslash code }
    else l.putCode code

def pushHex (l : StringLexeme) (due code : Nat) (high : Option Nat) (b : UInt8) :
    StringProgress :=
  match hexDigit? b with
  | none => .refused
  | some d =>
    let code := code * 16 + d
    if due ≤ 1 then l.endHex code high
    else .more { l with phase := .hex (due - 1) code high }

def push (l : StringLexeme) (b : UInt8) : StringProgress :=
  match l.phase with
  | .plain => l.pushPlain b
  | .multibyte due code least => l.pushMultibyte due code least b
  | .escape => l.pushEscape b
  | .hex due code high => l.pushHex due code high b
  | .pairBackslash high =>
    if b = '\\'.toUInt8 then .more { l with phase := .pairLetter high }
    else (spoil .plain).pushPlain b
  | .pairLetter high =>
    if b = 'u'.toUInt8 then .more { l with phase := .hex 4 0 (some high) }
    else (spoil .escape).pushEscape b

end StringLexeme

end JsonCleave
