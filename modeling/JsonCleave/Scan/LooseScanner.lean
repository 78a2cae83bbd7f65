import JsonCleave.Scan.Feed
import JsonCleave.Scan.LooseString
import JsonCleave.Text.Numeral
import JsonCleave.Text.Utf8
/-!
# The loose scanner: characters to tokens

A second scanner, which decodes its input first and then cuts it into words, strings and single
marks. It takes more for a number than JSON does, and more for a blank: a number may have a plus
sign, need no digit on either side of its point, or be a digit of any script that stands alone. The
order in which signs may come is the same `Grammar`. Behind its first failure this source is at
its end.
-/

namespace JsonCleave

inductive LooseLexeme where
  | word (reversed : List Char)
  /-- A character that stands alone. It is complete once something follows it. -/
  | mark (c : Char)
  | string (escaped : Bool) (reversed : List Char)
deriving DecidableEq, Repr

/-- State of the character scanner: the grammar, and the lexeme in progress. -/
structure LooseScanner where
  grammar : Grammar
  lexeme : Option LooseLexeme
deriving DecidableEq, Repr

structure LooseScan where
  tokens : List Token
  next : Except Ending LooseScanner

namespace LooseScan

def refused : LooseScan := ⟨[], .error Feed.malformed⟩

def silent (s : LooseScanner) : LooseScan := ⟨[], .ok s⟩

def followedBy (scan : LooseScan) (later : LooseScanner → LooseScan) : LooseScan :=
  match scan.next with
  | .error _ => scan
  | .ok s =>
    let scan' := later s
    ⟨scan.tokens ++ scan'.tokens, scan'.next⟩

end LooseScan

namespace LooseScanner

def start : LooseScanner := ⟨.start, none⟩

def isLooseBlank (c : Char) : Bool :=
  isSettingBlank c || (0x1c ≤ c.toNat && c.toNat ≤ 0x1f)

def isWordChar (c : Char) : Bool :=
  ('a' ≤ c && c ≤ 'z') || c.isDigit || c == 'E' || c == '.' || c == '+' || c == '-'

def cutSign : List Char → Bool × List Char
  | '-' :: rest => (true, rest)
  | '+' :: rest => (false, rest)
  | text => (false, text)

def valueOf (digits : List Char) : Nat :=
  digits.foldl (fun value c => value * 10 + (c.toNat - 48)) 0

def exponent? : List Char → Option Int
  | [] => some 0
  | c :: rest =>
    let (negative, digits) := cutSign rest
    if (c = 'e' ∨ c = 'E') ∧ !digits.isEmpty ∧ digits.all Char.isDigit then
      some (if negative then -(valueOf digits : Int) else valueOf digits)
    else none

def exponentLimit : Int := 999999999999999999

def decimal? (text : List Char) : Option Decimal :=
  let (negative, body) := cutSign text
  let whole := body.takeWhile Char.isDigit
  let rest := body.dropWhile Char.isDigit
  let (fraction, rest) :=
    match rest with
    | '.' :: rest => (rest.takeWhile Char.isDigit, rest.dropWhile Char.isDigit)
    | _ => ([], rest)
  let digits := whole ++ fraction
  if digits.isEmpty then none
  else
    (exponent? rest).bind fun e =>
      if e.natAbs ≤ exponentLimit.toNat then
        some { negative, coefficient := valueOf digits, exponent := e - fraction.length }
      else none

def hasLeadingZero (text : List Char) : Bool :=
  let follows : List Char → Bool
    | '0' :: c :: _ => !(c == 'e' || c == 'E' || c == '.')
    | _ => false
  match text with
  | '-' :: rest => follows rest
  | _ => follows text

def number? (text : List Char) : Option Number :=
  if hasLeadingZero text ∨ text.head? = some '.' ∨ text.getLast? = some '.' then none
  else if text.any fun c => c == '.' || c == 'e' || c == 'E' then
    (decimal? text).map .decimal
  else
    match readInteger (String.ofList text) with
    | .ok n => some (.integer n)
    | .error _ => none

def sign? (text : List Char) : Option Sign :=
  if text = [':'] then some .colon
  else if text = ['n', 'u', 'l', 'l'] then some (.scalar .null)
  else if text = ['t', 'r', 'u', 'e'] then some (.scalar (.boolean true))
  else if text = ['f', 'a', 'l', 's', 'e'] then some (.scalar (.boolean false))
  else (number? text).map fun n => .scalar (.number n)

def finishSign (s : LooseScanner) (sign : Sign) : LooseScan :=
  match s.grammar.accept? sign with
  | some (token, grammar) => ⟨token.toList, .ok ⟨grammar, none⟩⟩
  | none => .refused

def finishText (s : LooseScanner) (text : List Char) : LooseScan :=
  match sign? text with
  | some sign => s.finishSign sign
  | none => .refused

def finishString (s : LooseScanner) (inside : List Char) : LooseScan :=
  if s.grammar.wantsValue || s.grammar.wantsKey then
    match LooseString.decode inside with
    | .ok text => s.finishSign (.scalar (.string text))
    | .error (flaw, place) => ⟨[], .error (.undecodable flaw place)⟩
  else .refused

def stepBetween (s : LooseScanner) (c : Char) : LooseScan :=
  if isLooseBlank c then .silent s
  else if c = '[' then s.finishSign (.opening .array)
  else if c = ']' then s.finishSign (.closing .array)
  else if c = '\x7b' then s.finishSign (.opening .object)
  else if c = '\x7d' then s.finishSign (.closing .object)
  else if c = ',' then s.finishSign .comma
  else if c = '"' then .silent { s with lexeme := some (.string false []) }
  else if isWordChar c then .silent { s with lexeme := some (.word [c]) }
  else .silent { s with lexeme := some (.mark c) }

def step (s : LooseScanner) (c : Char) : LooseScan :=
  match s.lexeme with
  | none => s.stepBetween c
  | some (.mark m) => (s.finishText [m]).followedBy (·.stepBetween c)
  | some (.word reversed) =>
    if isWordChar c then .silent { s with lexeme := some (.word (c :: reversed)) }
    else (s.finishText reversed.reverse).followedBy (·.stepBetween c)
  | some (.string escaped reversed) =>
    if c = '"' ∧ !escaped then s.finishString reversed.reverse
    else .silent { s with lexeme := some (.string (c == '\\' && !escaped) (c :: reversed)) }

/-- Scans characters up to the first failure. `reversed` accumulates the tokens. -/
def scanFrom (reversed : List Token) (s : LooseScanner) : List Char → LooseScan
  | [] => ⟨reversed.reverse, .ok s⟩
  | c :: rest =>
    let scan := s.step c
    match scan.next with
    | .ok s' => scanFrom (scan.tokens.reverse ++ reversed) s' rest
    | .error ending => ⟨(scan.tokens.reverse ++ reversed).reverse, .error ending⟩

def finish (s : LooseScanner) : LooseScan :=
  let scan : LooseScan :=
    match s.lexeme with
    | none => .silent s
    | some (.mark m) => s.finishText [m]
    | some (.word reversed) => s.finishText reversed.reverse
    | some (.string _ _) => .refused
  scan.followedBy fun s' => if s'.grammar.isComplete then .silent s' else .refused

/-- Deliveries and ending of a sequence of chunks. A chunk that is not UTF-8 delivers nothing. -/
def readChunks (failure : Option String) (d : Utf8Decoder) (s : LooseScanner) :
    List (List UInt8) → List Token × Ending
  | [] =>
    match failure with
    | some message => ([], .broken (.unreadable message))
    | none =>
      match s.finish with
      | ⟨tokens, .ok _⟩ => (tokens, .complete)
      | ⟨tokens, .error ending⟩ => (tokens, ending)
  | chunk :: rest =>
    match d.decode? [] chunk with
    | none => ([], Feed.malformed)
    | some (chars, d') =>
      match scanFrom [] s chars with
      | ⟨tokens, .error ending⟩ => (tokens, ending)
      | ⟨tokens, .ok s'⟩ =>
        let (later, ending) := readChunks failure d' s' rest
        (tokens ++ later, ending)

def feed (r : Reads) : Feed :=
  let (tokens, ending) := readChunks r.failure? {} start r.leading
  .trimmed (tokens.map .token ++ [.halt ending]) .complete

end LooseScanner

end JsonCleave
