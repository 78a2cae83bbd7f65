import JsonCleave.Scan.Scanner
import JsonCleave.Proofs.StringText
/-!
# Runs of the scanner

A run says what bytes do between two states of the scanner, whatever comes before and behind them.
A number is the one sign that does not show its own end; it is therefore followed together with the
byte behind it.
-/

namespace JsonCleave

namespace Scalar

def isExact : Scalar → Bool
  | .number n => n.isExact
  | .nonFinite _ => false
  | _ => true

def reread : Scalar → Scalar
  | .number n => .number n.reread
  | value => value

end Scalar

namespace Scanner

/-! ## Scans in pieces -/

theorem scanFrom_eq (reversed : List Token) (s : Scanner) (bytes : List UInt8) :
    scanFrom reversed s bytes =
      ⟨reversed.reverse ++ (s.scan bytes).tokens, (s.scan bytes).next⟩ := by
  induction bytes generalizing reversed s with
  | nil => simp [scan, scanFrom]
  | cons b rest ih =>
    rw [scan, scanFrom, scanFrom]
    cases hstep : (s.step b).next with
    | none => simp
    | some s' =>
      simp only
      rw [ih, ih ((s.step b).tokens.reverse ++ [])]
      simp

theorem scan_cons (s : Scanner) (b : UInt8) (rest : List UInt8) :
    s.scan (b :: rest) = (s.step b).followedBy (·.scan rest) := by
  rw [scan, scanFrom, Scan.followedBy]
  cases hstep : s.step b with
  | mk ts next =>
    cases next with
    | none => simp
    | some s' => simp [scanFrom_eq]

theorem scan_append (s : Scanner) (as bs : List UInt8) :
    s.scan (as ++ bs) = (s.scan as).followedBy (·.scan bs) := by
  induction as generalizing s with
  | nil => simp [scan, scanFrom, Scan.followedBy]
  | cons a as ih =>
    rw [List.cons_append, scan_cons, scan_cons]
    cases hstep : s.step a with
    | mk ts next =>
      cases next with
      | none => rfl
      | some s' =>
        simp only [Scan.followedBy, ih]
        cases hnext : (s'.scan as).next <;> simp [hnext]

/-! ## Runs -/

/-- Scanning `bytes` leads from `s` to `s'` and delivers `ts`. -/
def Runs (s : Scanner) (bytes : List UInt8) (ts : List Token) (s' : Scanner) : Prop :=
  s.scan bytes = ⟨ts, some s'⟩

theorem Runs.nil (s : Scanner) : Runs s [] [] s := rfl

theorem Runs.append {s s' s'' : Scanner} {as bs : List UInt8} {ts us : List Token}
    (has : Runs s as ts s') (hbs : Runs s' bs us s'') : Runs s (as ++ bs) (ts ++ us) s'' := by
  rw [Runs, scan_append, has, Scan.followedBy]
  dsimp only
  rw [hbs]

theorem Runs.step {s s' : Scanner} {b : UInt8} {ts : List Token}
    (hstep : s.step b = ⟨ts, some s'⟩) : Runs s [b] ts s' := by
  rw [Runs, scan_cons, hstep]
  simp [Scan.followedBy, scan, scanFrom]

theorem Runs.cons {s s' s'' : Scanner} {b : UInt8} {bs : List UInt8} {ts : List Token}
    (hstep : s.step b = ⟨[], some s'⟩) (hbs : Runs s' bs ts s'') : Runs s (b :: bs) ts s'' :=
  (Runs.step hstep).append hbs

/-! ## Signs begun -/

theorem runs_number {l l' : NumberLexeme} {bytes : List UInt8} (g : Grammar)
    (hpush : l.pushAll? bytes = some l') :
    Runs ⟨g, some (.number l)⟩ bytes [] ⟨g, some (.number l')⟩ := by
  induction bytes generalizing l with
  | nil =>
    obtain rfl : l = l' := by simpa [NumberLexeme.pushAll?] using hpush
    exact .nil _
  | cons b rest ih =>
    rw [NumberLexeme.pushAll?] at hpush
    cases hb : l.push? b with
    | none => simp [hb] at hpush
    | some between =>
      rw [hb] at hpush
      have hstep : step ⟨g, some (.number l)⟩ b = ⟨[], some ⟨g, some (.number between)⟩⟩ := by
        show stepNumber _ l b = _
        rw [stepNumber, hb]
        rfl
      exact .cons hstep (ih hpush)

theorem runs_string {l l' : StringLexeme} {bytes : List UInt8} (g : Grammar)
    (hspells : l.Spells bytes l') :
    Runs ⟨g, some (.string l)⟩ bytes [] ⟨g, some (.string l')⟩ := by
  induction bytes generalizing l with
  | nil =>
    obtain rfl : l = l' := hspells
    exact .nil _
  | cons b rest ih =>
    obtain ⟨between, hpush, hrest⟩ := hspells
    have hstep : step ⟨g, some (.string l)⟩ b = ⟨[], some ⟨g, some (.string between)⟩⟩ := by
      show stepString _ l b = _
      rw [stepString, hpush]
      rfl
    exact .cons hstep (ih hrest)

/-! ## Complete signs -/

theorem finishSign_eq {g g' : Grammar} {sign : Sign} {token : Option Token}
    (haccept : g.accept? sign = some (token, g')) (lexeme : Option Lexeme) :
    finishSign ⟨g, lexeme⟩ sign = ⟨token.toList, some ⟨g', none⟩⟩ := by
  rw [finishSign, haccept]

theorem runs_literal {g g' : Grammar} {s : String} {token : Option Token}
    (haccept : g.accept? (.scalar (.string s)) = some (token, g')) :
    Runs ⟨g, none⟩ (utf8Bytes (literal s)) token.toList ⟨g', none⟩ := by
  obtain ⟨bytes, l, hbytes, hspells, hclose⟩ := StringLexeme.exists_utf8Bytes_literal s
  have hend : step ⟨g, some (.string l)⟩ '"'.toUInt8 = ⟨token.toList, some ⟨g', none⟩⟩ := by
    show stepString _ l _ = _
    rw [stepString, hclose]
    exact finishSign_eq haccept _
  rw [hbytes]
  exact .cons rfl ((runs_string g hspells).append (.step hend))

theorem accept?_scalar {g : Grammar} (hg : g.wantsValue) (value : Scalar) :
    g.accept? (.scalar value) =
      some (some (.scalar value), { g with expects := .separator }) := by
  cases value <;> simp [Grammar.accept?, hg]

theorem finishSign_scalar {g : Grammar} (hg : g.wantsValue) (lexeme : Option Lexeme)
    (value : Scalar) :
    finishSign ⟨g, lexeme⟩ (.scalar value) =
      ⟨[.scalar value], some ⟨{ g with expects := .separator }, none⟩⟩ :=
  finishSign_eq (accept?_scalar hg value) lexeme

theorem accept?_name {enclosing : List Shape} {expects : Expectation}
    (hname : expects = .firstKey ∨ expects = .key) (name : String) :
    Grammar.accept? ⟨enclosing, expects⟩ (.scalar (.string name)) =
      some (some (.key name), ⟨enclosing, .colon⟩) := by
  rcases hname with rfl | rfl <;> rfl

/-! ## Values and the byte behind them -/

def EndsNumber (b : UInt8) : Prop := ∀ l : NumberLexeme, l.push? b = none

theorem endsNumber_comma : EndsNumber ','.toUInt8 := by
  intro l
  cases hphase : l.phase <;> rw [NumberLexeme.push?, hphase] <;> rfl

def closerByte : Shape → UInt8
  | .object => '\x7d'.toUInt8
  | .array => ']'.toUInt8

theorem endsNumber_closer (shape : Shape) : EndsNumber (closerByte shape) := by
  intro l
  cases shape <;> cases hphase : l.phase <;> rw [NumberLexeme.push?, hphase] <;> rfl

/-- The bytes of a value deliver `ts`, at the latest with the next byte. -/
def Delivers (g : Grammar) (bytes : List UInt8) (ts : List Token) (g' : Grammar) : Prop :=
  ∀ b us s', EndsNumber b → stepBetween ⟨g', none⟩ b = ⟨us, some s'⟩ →
    Runs ⟨g, none⟩ (bytes ++ [b]) (ts ++ us) s'

theorem Runs.delivers {g g' : Grammar} {bytes : List UInt8} {ts : List Token}
    (h : Runs ⟨g, none⟩ bytes ts ⟨g', none⟩) : Delivers g bytes ts g' :=
  fun _ _ _ _ hstep => h.append (.step hstep)

theorem start?_eq_none_of_isBlank {b : UInt8} (hb : isBlank b) : NumberLexeme.start? b = none := by
  have hlow : b.toNat ≤ 32 := by
    simp only [isBlank, Bool.or_eq_true, beq_iff_eq, Bool.and_eq_true, decide_eq_true_eq,
      UInt8.le_iff_toNat_le] at hb
    rcases hb with rfl | ⟨-, hb⟩
    · decide
    · exact Nat.le_trans hb (by decide)
  have hminus : b ≠ '-'.toUInt8 := by
    rintro rfl
    exact absurd hlow (by decide)
  have hdigit : ¬('0'.toUInt8 ≤ b ∧ b ≤ '9'.toUInt8) := by
    rw [UInt8.le_iff_toNat_le]
    intro h
    have hle : 48 ≤ b.toNat := h.1
    omega
  rw [NumberLexeme.start?, if_neg hminus, digit?, if_neg hdigit]
  rfl

theorem stepBetween_number {b : UInt8} {l : NumberLexeme} (s : Scanner)
    (hstart : NumberLexeme.start? b = some l) : s.stepBetween b = s.within (.number l) := by
  have hne {b' : UInt8} (hb' : NumberLexeme.start? b' = none) : b ≠ b' := by
    rintro rfl
    rw [hb'] at hstart
    cases hstart
  have hblank : ¬isBlank b := by
    intro hb
    rw [start?_eq_none_of_isBlank hb] at hstart
    cases hstart
  rw [stepBetween, if_neg hblank, if_neg (hne (by decide)), if_neg (hne (by decide)),
    if_neg (hne (by decide)), if_neg (hne (by decide)), if_neg (hne (by decide)),
    if_neg (hne (by decide)), if_neg (hne (by decide)), if_neg (hne (by decide)),
    if_neg (hne (by decide)), if_neg (hne (by decide)), hstart]

theorem delivers_number {n : Number} (hn : n.isExact) {g : Grammar} (hg : g.wantsValue) :
    Delivers g (utf8Bytes n.text) [.scalar (.number n.reread)]
      { g with expects := .separator } := by
  intro b us s' hb hstep
  obtain ⟨l, hread, hvalue⟩ := NumberLexeme.read?_text hn
  cases hbytes : utf8Bytes n.text with
  | nil => simp [hbytes, NumberLexeme.read?] at hread
  | cons first rest =>
    rw [hbytes, NumberLexeme.read?, Option.filter_eq_some_iff] at hread
    obtain ⟨first', hstart, hrest⟩ := Option.bind_eq_some_iff.mp hread.1
    have hbegin : step ⟨g, none⟩ first = ⟨[], some ⟨g, some (.number first')⟩⟩ :=
      stepBetween_number ⟨g, none⟩ hstart
    have hend : step ⟨g, some (.number l)⟩ b = ⟨.scalar (.number n.reread) :: us, some s'⟩ := by
      show stepNumber _ l b = _
      rw [stepNumber, hb l, hvalue]
      dsimp only
      rw [finishSign_scalar hg, Scan.followedBy]
      dsimp only
      rw [hstep]
      rfl
    exact .cons hbegin ((runs_number g hrest).append (.step hend))

/-! ## Scalars -/

theorem runs_due {g : Grammar} (hg : g.wantsValue) (value : Scalar) {due : List UInt8}
    (hdue : due ≠ []) :
    Runs ⟨g, some (.literal due value)⟩ due [.scalar value]
      ⟨{ g with expects := .separator }, none⟩ := by
  induction due with
  | nil => exact absurd rfl hdue
  | cons b rest ih =>
    cases rest with
    | nil =>
      apply Runs.step
      show stepLiteral _ [b] value b = _
      rw [stepLiteral, if_pos rfl]
      exact finishSign_scalar hg _ value
    | cons b' rest =>
      refine .cons ?_ (ih (by simp))
      show stepLiteral _ (b :: b' :: rest) value b = _
      rw [stepLiteral, if_pos rfl]
      · rfl
      · simp

theorem delivers_scalar {value : Scalar} (hvalue : value.isExact) {g : Grammar}
    (hg : g.wantsValue) :
    Delivers g (utf8Bytes value.written) [.scalar value.reread]
      { g with expects := .separator } := by
  cases value with
  | null => exact Runs.delivers (.cons rfl (runs_due hg .null (by simp)))
  | boolean b =>
    cases b with
    | false => exact Runs.delivers (.cons rfl (runs_due hg (.boolean false) (by simp)))
    | true => exact Runs.delivers (.cons rfl (runs_due hg (.boolean true) (by simp)))
  | number n => exact delivers_number hvalue hg
  | nonFinite x => cases hvalue
  | string s => exact Runs.delivers (runs_literal (accept?_scalar hg (.string s)))

end Scanner

end JsonCleave
