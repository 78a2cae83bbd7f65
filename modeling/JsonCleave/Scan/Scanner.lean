import JsonCleave.Scan.Grammar
import JsonCleave.Scan.NumberLexeme
import JsonCleave.Scan.StringLexeme
/-!
# The scanner: bytes to tokens

A state machine over bytes. It spells out one sign after the other and hands each to the grammar as
soon as it is complete: brackets, commas and colons at their byte, strings at their
closing quote, literals at their last byte, and numbers at the first byte that cannot continue
them. A byte is refused when it spells nothing, or when the sign that it completes is out of
place; a sign out of place is therefore let be until it is complete. Whatever lies in front of a
refused byte has been delivered by then, so a longer input only adds tokens.
-/

namespace JsonCleave

/-- Space, tab, line feed, vertical tab, form feed and carriage return. -/
def isBlank (b : UInt8) : Bool := b == 32 || (9 ≤ b && b ≤ 13)

inductive Lexeme where
  /-- A literal: the bytes still due and the value it stands for. -/
  | literal (due : List UInt8) (value : Scalar)
  | number (lexeme : NumberLexeme)
  | string (lexeme : StringLexeme)
deriving DecidableEq, Repr

/-- State of the byte scanner: the grammar, and the lexeme in progress. -/
structure Scanner where
  grammar : Grammar
  lexeme : Option Lexeme
deriving DecidableEq, Repr

structure Scan where
  tokens : List Token
  next : Option Scanner
deriving DecidableEq, Repr

namespace Scan

def refused : Scan := ⟨[], none⟩

def silent (s : Scanner) : Scan := ⟨[], some s⟩

def followedBy (scan : Scan) (later : Scanner → Scan) : Scan :=
  match scan.next with
  | none => scan
  | some s =>
    let scan' := later s
    ⟨scan.tokens ++ scan'.tokens, scan'.next⟩

end Scan

namespace Scanner

def start : Scanner := ⟨.start, none⟩

def within (s : Scanner) (l : Lexeme) : Scan := .silent { s with lexeme := some l }

def finishSign (s : Scanner) (sign : Sign) : Scan :=
  match s.grammar.accept? sign with
  | some (token, grammar) => ⟨token.toList, some ⟨grammar, none⟩⟩
  | none => .refused

def stepBetween (s : Scanner) (b : UInt8) : Scan :=
  if isBlank b then .silent s
  else if b = '['.toUInt8 then s.finishSign (.opening .array)
  else if b = ']'.toUInt8 then s.finishSign (.closing .array)
  else if b = '\x7b'.toUInt8 then s.finishSign (.opening .object)
  else if b = '\x7d'.toUInt8 then s.finishSign (.closing .object)
  else if b = ','.toUInt8 then s.finishSign .comma
  else if b = ':'.toUInt8 then s.finishSign .colon
  else if b = '"'.toUInt8 then s.within (.string .start)
  else if b = 't'.toUInt8 then
    s.within (.literal ['r'.toUInt8, 'u'.toUInt8, 'e'.toUInt8] (.boolean true))
  else if b = 'f'.toUInt8 then
    s.within (.literal ['a'.toUInt8, 'l'.toUInt8, 's'.toUInt8, 'e'.toUInt8] (.boolean false))
  else if b = 'n'.toUInt8 then
    s.within (.literal ['u'.toUInt8, 'l'.toUInt8, 'l'.toUInt8] .null)
  else
    match NumberLexeme.start? b with
    | some l => s.within (.number l)
    | none => .refused

def stepLiteral (s : Scanner) (due : List UInt8) (v : Scalar) (b : UInt8) : Scan :=
  match due with
  | [] => .refused
  | [last] => if b = last then s.finishSign (.scalar v) else .refused
  | next :: rest => if b = next then s.within (.literal rest v) else .refused

def stepNumber (s : Scanner) (l : NumberLexeme) (b : UInt8) : Scan :=
  match l.push? b with
  | some l' => s.within (.number l')
  | none =>
    match l.value? with
    | none => .refused
    | some n => (s.finishSign (.scalar (.number n))).followedBy (·.stepBetween b)

def stepString (s : Scanner) (l : StringLexeme) (b : UInt8) : Scan :=
  match l.push b with
  | .more l' => s.within (.string l')
  | .complete text => s.finishSign (.scalar (.string text))
  | .refused => .refused

def step (s : Scanner) (b : UInt8) : Scan :=
  match s.lexeme with
  | none => s.stepBetween b
  | some (.literal due v) => s.stepLiteral due v b
  | some (.number l) => s.stepNumber l b
  | some (.string l) => s.stepString l b

/-- Scans bytes up to the first that is refused. `reversed` accumulates the tokens. -/
def scanFrom (reversed : List Token) (s : Scanner) : List UInt8 → Scan
  | [] => ⟨reversed.reverse, some s⟩
  | b :: rest =>
    let scan := s.step b
    match scan.next with
    | some s' => scanFrom (scan.tokens.reverse ++ reversed) s' rest
    | none => ⟨(scan.tokens.reverse ++ reversed).reverse, none⟩

def scan (s : Scanner) (bytes : List UInt8) : Scan := scanFrom [] s bytes

def endMark : UInt8 := 32

/-- The end of the input. It is refused inside a literal and before the root is complete, and
accepted inside a string behind the root. -/
def finish (s : Scanner) : Scan :=
  (s.step endMark).followedBy fun s' => if s'.grammar.isComplete then .silent s' else .refused

end Scanner

end JsonCleave
