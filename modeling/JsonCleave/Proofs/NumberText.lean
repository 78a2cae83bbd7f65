import JsonCleave.Scan.NumberLexeme
import JsonCleave.Text.Utf8
/-!
# Numbers read back

The text of an integer or decimal is one number lexeme with the same value. An exponent of zero is
not visible in the text: such a decimal reads back as an integer.
-/

namespace JsonCleave

namespace Number

def isExact : Number → Bool
  | .integer _ | .decimal _ => true
  | .binary _ => false

def reread : Number → Number
  | .decimal d =>
    if d.exponent = 0 then .integer (if d.negative then -(d.coefficient : Int) else d.coefficient)
    else .decimal d
  | n => n

end Number

/-! ## Bytes of digits -/

def charBytes (cs : List Char) : List UInt8 := cs.flatMap String.utf8EncodeChar

@[simp] theorem charBytes_nil : charBytes [] = [] := rfl

@[simp] theorem charBytes_append (cs ds : List Char) :
    charBytes (cs ++ ds) = charBytes cs ++ charBytes ds := by
  simp [charBytes]

theorem utf8Bytes_ofList (cs : List Char) : utf8Bytes (String.ofList cs) = charBytes cs := by
  simp [utf8Bytes, charBytes]

theorem charBytes_cons_ascii {c : Char} (hc : c.toNat < 128) (cs : List Char) :
    charBytes (c :: cs) = c.toUInt8 :: charBytes cs := by
  have hle : c.val.toNat ≤ 0x7f := Nat.le_of_lt_succ hc
  have hencode : String.utf8EncodeChar c = [c.toUInt8] := by
    rw [String.utf8EncodeChar]
    simp only [hle, ↓reduceIte]
    rfl
  rw [charBytes, List.flatMap_cons, hencode]
  rfl

theorem toNat_of_isDigit {c : Char} (hc : c.isDigit) : 48 ≤ c.toNat ∧ c.toNat ≤ 57 := by
  simpa [Char.isDigit, UInt32.le_iff_toNat_le] using hc

theorem charBytes_cons_digit {c : Char} (hc : c.isDigit) (cs : List Char) :
    charBytes (c :: cs) = c.toUInt8 :: charBytes cs := by
  have hrange := toNat_of_isDigit hc
  exact charBytes_cons_ascii (by omega) cs

theorem digit?_toUInt8 {c : Char} (hc : c.isDigit) : digit? c.toUInt8 = some (c.toNat - 48) := by
  have hrange := toNat_of_isDigit hc
  have hbyte : c.toUInt8.toNat = c.toNat := by
    show c.toNat % 256 = c.toNat
    omega
  have hle : '0'.toUInt8 ≤ c.toUInt8 ∧ c.toUInt8 ≤ '9'.toUInt8 := by
    rw [UInt8.le_iff_toNat_le, UInt8.le_iff_toNat_le, hbyte]
    exact hrange
  rw [digit?, if_pos hle, hbyte]

/-! ## Digits at the start of a number -/

/-- Digits allowed in front of the point: `0`, or no leading zero. -/
def IsWhole (cs : List Char) : Prop :=
  (∀ c ∈ cs, c.isDigit) ∧ (cs = ['0'] ∨ ∃ c rest, cs = c :: rest ∧ c ≠ '0')

theorem isWhole_decimalDigits (n : Nat) : IsWhole (decimalDigits n) := by
  refine ⟨fun c hc => Nat.isDigit_of_mem_toDigits (by decide) (by decide) hc, ?_⟩
  induction n using Nat.strongRecOn with
  | ind n ih =>
    rw [decimalDigits, Nat.toDigits_eq_if (by decide)]
    split
    · rename_i hlt
      cases n with
      | zero => exact .inl rfl
      | succ n => exact .inr ⟨_, [], rfl, by simp⟩
    · rename_i hge
      rcases ih (n / 10) (by omega) with hzero | ⟨c, rest, hcons, hc⟩
      · -- the digits of a positive number are not a zero alone
        have hvalue := congrArg (Nat.ofDigitChars 10 · 0) hzero
        simp only [decimalDigits, Nat.ofDigitChars_ten_toDigits] at hvalue
        have hone : Nat.ofDigitChars 10 ['0'] 0 = 0 := rfl
        omega
      · rw [decimalDigits] at hcons
        exact .inr ⟨c, rest ++ [Nat.digitChar (n % 10)], by rw [hcons]; rfl, hc⟩

theorem IsWhole.ne_nil {cs : List Char} (h : IsWhole cs) : cs ≠ [] := by
  rcases h.2 with rfl | ⟨c, rest, rfl, -⟩ <;> simp

theorem IsWhole.take {cs : List Char} (h : IsWhole cs) {k : Nat} (hk : 0 < k) :
    IsWhole (cs.take k) := by
  refine ⟨fun c hc => h.1 c (List.mem_of_mem_take hc), ?_⟩
  obtain ⟨k, rfl⟩ := Nat.exists_eq_succ_of_ne_zero (Nat.pos_iff_ne_zero.mp hk)
  rcases h.2 with rfl | ⟨c, rest, rfl, hc⟩
  · exact .inl (by simp)
  · exact .inr ⟨c, rest.take k, rfl, hc⟩

namespace NumberLexeme

/-! ## Runs of digits -/

theorem pushAll?_append (l : NumberLexeme) (as bs : List UInt8) :
    l.pushAll? (as ++ bs) = (l.pushAll? as).bind (pushAll? · bs) := by
  induction as generalizing l with
  | nil => rfl
  | cons a as ih =>
    rw [List.cons_append, pushAll?, pushAll?]
    cases l.push? a with
    | none => rfl
    | some l' => exact ih l'

theorem pushAll?_trans {l l' l'' : NumberLexeme} {as bs : List UInt8}
    (has : l.pushAll? as = some l') (hbs : l'.pushAll? bs = some l'') :
    l.pushAll? (as ++ bs) = some l'' := by
  rw [pushAll?_append, has]
  exact hbs

theorem pushAll?_whole {cs : List Char} (hcs : ∀ c ∈ cs, c.isDigit) (l : NumberLexeme)
    (hl : l.phase = .whole) :
    l.pushAll? (charBytes cs) =
      some { l with coefficient := Nat.ofDigitChars 10 cs l.coefficient } := by
  induction cs generalizing l with
  | nil => rfl
  | cons c cs ih =>
    have hc := hcs c (by simp)
    have hpush : l.push? c.toUInt8 = some (l.pushWhole (c.toNat - 48)) := by
      rw [push?, hl, digit?_toUInt8 hc]
    rw [charBytes_cons_digit hc, pushAll?, hpush, Nat.ofDigitChars_cons, Nat.mul_comm 10]
    exact ih (fun d hd => hcs d (by simp [hd])) (l.pushWhole (c.toNat - 48)) hl

theorem pushAll?_fraction {cs : List Char} (hcs : ∀ c ∈ cs, c.isDigit) (l : NumberLexeme)
    (hl : l.phase = .fraction) :
    l.pushAll? (charBytes cs) =
      some { l with
        coefficient := Nat.ofDigitChars 10 cs l.coefficient
        places := l.places + cs.length } := by
  induction cs generalizing l with
  | nil => rfl
  | cons c cs ih =>
    have hc := hcs c (by simp)
    have hpush : l.push? c.toUInt8 = some (l.pushFraction (c.toNat - 48)) := by
      rw [push?, hl, digit?_toUInt8 hc]
    rw [charBytes_cons_digit hc, pushAll?, hpush, Nat.ofDigitChars_cons, Nat.mul_comm 10,
      List.length_cons, Nat.add_comm cs.length, ← Nat.add_assoc]
    have hrest := ih (fun d hd => hcs d (by simp [hd])) (l.pushFraction (c.toNat - 48)) rfl
    rw [pushFraction, ← hl] at hrest ⊢
    exact hrest

theorem pushAll?_exponent {cs : List Char} (hcs : ∀ c ∈ cs, c.isDigit) (l : NumberLexeme)
    (hl : l.phase = .exponent) :
    l.pushAll? (charBytes cs) =
      some { l with exponent := Nat.ofDigitChars 10 cs l.exponent } := by
  induction cs generalizing l with
  | nil => rfl
  | cons c cs ih =>
    have hc := hcs c (by simp)
    have hpush : l.push? c.toUInt8 = some (l.pushExponent (c.toNat - 48)) := by
      rw [push?, hl, digit?_toUInt8 hc]
    rw [charBytes_cons_digit hc, pushAll?, hpush, Nat.ofDigitChars_cons, Nat.mul_comm 10]
    have hrest := ih (fun d hd => hcs d (by simp [hd])) (l.pushExponent (c.toNat - 48)) rfl
    rw [pushExponent, ← hl] at hrest ⊢
    exact hrest

/-! ## The parts of a number -/

theorem pushAll?_signed {cs : List Char} (hcs : IsWhole cs) (negative : Bool) :
    ∃ phase, (phase = .zero ∨ phase = .whole) ∧
      (signed negative).pushAll? (charBytes cs) =
        some ⟨phase, negative, Nat.ofDigitChars 10 cs 0, 0, false, 0⟩ := by
  obtain ⟨hdigits, rfl | ⟨c, rest, rfl, hc⟩⟩ := hcs
  · exact ⟨.zero, .inl rfl, rfl⟩
  · refine ⟨.whole, .inr rfl, ?_⟩
    have hdigit := hdigits c (by simp)
    have hrange := toNat_of_isDigit hdigit
    have hnonzero : c.toNat - 48 ≠ 0 := by
      intro hzero
      apply hc
      apply Char.toNat_inj.mp
      show c.toNat = 48
      omega
    have hpush : (signed negative).push? c.toUInt8 =
        some ⟨.whole, negative, c.toNat - 48, 0, false, 0⟩ := by
      rw [push?, digit?_toUInt8 hdigit]
      simp [signed, pushLeading, hnonzero]
    rw [charBytes_cons_digit hdigit, pushAll?, hpush, Nat.ofDigitChars_cons, Nat.mul_zero,
      Nat.zero_add]
    exact pushAll?_whole (fun d hd => hdigits d (by simp [hd])) _ rfl

theorem pushAll?_point {cs : List Char} (hcs : ∀ c ∈ cs, c.isDigit) (hne : cs ≠ [])
    (l : NumberLexeme) (hl : l.phase = .zero ∨ l.phase = .whole) :
    l.pushAll? (charBytes ('.' :: cs)) =
      some { l with
        phase := .fraction
        coefficient := Nat.ofDigitChars 10 cs l.coefficient
        places := l.places + cs.length } := by
  obtain ⟨c, rest, rfl⟩ := List.exists_cons_of_ne_nil hne
  have hdigit := hcs c (by simp)
  have hpoint : l.push? '.'.toUInt8 = some { l with phase := .point } := by
    rcases hl with hl | hl <;> rw [push?, hl] <;> rfl
  have hpush : push? { l with phase := .point } c.toUInt8 =
      some (pushFraction { l with phase := .point } (c.toNat - 48)) := by
    rw [push?, digit?_toUInt8 hdigit]
  rw [charBytes_cons_ascii (by decide), charBytes_cons_digit hdigit, pushAll?, hpoint,
    Option.bind_some, pushAll?, hpush, Option.bind_some,
    pushAll?_fraction (fun d hd => hcs d (by simp [hd])) _ rfl, Nat.ofDigitChars_cons,
    Nat.mul_comm 10, List.length_cons, Nat.add_comm rest.length, ← Nat.add_assoc]
  rfl

theorem pushAll?_mark {phase : NumberPhase}
    (hphase : phase = .zero ∨ phase = .whole ∨ phase = .fraction) (negative : Bool)
    (coefficient places : Nat) (below : Bool) (n : Nat) :
    pushAll? ⟨phase, negative, coefficient, places, false, 0⟩
        (charBytes ('E' :: (if below then '-' else '+') :: decimalDigits n)) =
      some ⟨.exponent, negative, coefficient, places, below, n⟩ := by
  have hdigits := (isWhole_decimalDigits n).1
  obtain ⟨c, rest, hcons⟩ := List.exists_cons_of_ne_nil (isWhole_decimalDigits n).ne_nil
  rw [hcons] at hdigits
  have hdigit := hdigits c (by simp)
  have hmark : push? ⟨phase, negative, coefficient, places, false, 0⟩ 'E'.toUInt8 =
      some ⟨.mark, negative, coefficient, places, false, 0⟩ := by
    rcases hphase with rfl | rfl | rfl <;> rfl
  have hsign : push? ⟨.mark, negative, coefficient, places, false, 0⟩
      (if below then '-' else '+').toUInt8 =
        some ⟨.markSign, negative, coefficient, places, below, 0⟩ := by
    cases below <;> rfl
  have hpush : push? ⟨.markSign, negative, coefficient, places, below, 0⟩ c.toUInt8 =
      some ⟨.exponent, negative, coefficient, places, below, 0 * 10 + (c.toNat - 48)⟩ := by
    rw [push?, digit?_toUInt8 hdigit]
    rfl
  have hascii : (if below then '-' else '+').toNat < 128 := by cases below <;> decide
  have hvalue : Nat.ofDigitChars 10 (c :: rest) 0 = n := by
    rw [← hcons, decimalDigits, Nat.ofDigitChars_ten_toDigits]
  rw [Nat.ofDigitChars_cons, Nat.mul_comm 10] at hvalue
  rw [hcons, charBytes_cons_ascii (by decide), charBytes_cons_ascii hascii,
    charBytes_cons_digit hdigit, pushAll?, hmark, Option.bind_some, pushAll?, hsign,
    Option.bind_some, pushAll?, hpush, Option.bind_some,
    pushAll?_exponent (fun d hd => hdigits d (by simp [hd])) _ rfl, ← hvalue]
  rfl

/-! ## Printed decimals -/

theorem exists_pointed {cs : List Char} (hcs : IsWhole cs) (places : Nat) :
    ∃ whole fraction, IsWhole whole ∧ (∀ c ∈ fraction, c.isDigit) ∧ fraction.length = places ∧
      Nat.ofDigitChars 10 (whole ++ fraction) 0 = Nat.ofDigitChars 10 cs 0 ∧
      Decimal.pointed cs places = if places = 0 then whole else whole ++ '.' :: fraction := by
  let filled := List.replicate (places + 1 - cs.length) '0' ++ cs
  have hfilled : filled = List.replicate (places + 1 - cs.length) '0' ++ cs := rfl
  have hlength : filled.length = (places + 1 - cs.length) + cs.length := by simp [hfilled]
  have hdigits : ∀ c ∈ filled, c.isDigit := by
    intro c hc
    rcases List.mem_append.mp hc with hzero | hc
    · rw [List.eq_of_mem_replicate hzero]
      rfl
    · exact hcs.1 c hc
  refine ⟨filled.take (filled.length - places), filled.drop (filled.length - places), ?_,
    fun c hc => hdigits c (List.mem_of_mem_drop hc), ?_, ?_, rfl⟩
  · by_cases hlong : places < cs.length
    · have hnone : places + 1 - cs.length = 0 := by omega
      have hsame : filled = cs := by rw [hfilled, hnone, List.replicate_zero, List.nil_append]
      rw [hsame]
      exact hcs.take (by omega)
    · obtain ⟨k, hk⟩ : ∃ k, places + 1 - cs.length = k + 1 := ⟨places - cs.length, by omega⟩
      have hone : filled.length - places = 1 := by omega
      rw [hone, hfilled, hk, List.replicate_succ]
      exact ⟨by simp, .inl rfl⟩
  · rw [List.length_drop]
    omega
  · rw [List.take_append_drop, hfilled, Nat.ofDigitChars_append, Nat.ofDigitChars_replicate_zero,
      Nat.mul_zero]

theorem pushAll?_pointed {cs : List Char} (hcs : IsWhole cs) (places : Nat) (negative : Bool) :
    ∃ l, (signed negative).pushAll? (charBytes (Decimal.pointed cs places)) = some l ∧
      l.value? = some (Number.reread
        (.decimal ⟨negative, Nat.ofDigitChars 10 cs 0, -(places : Int)⟩)) := by
  obtain ⟨whole, fraction, hwhole, hfraction, hlength, hvalue, hpointed⟩ :=
    exists_pointed hcs places
  obtain ⟨phase, hphase, hpush⟩ := pushAll?_signed hwhole negative
  rw [hpointed]
  by_cases hplaces : places = 0
  · subst hplaces
    rw [List.length_eq_zero_iff] at hlength
    rw [hlength, List.append_nil] at hvalue
    refine ⟨_, hpush, ?_⟩
    rw [hvalue]
    rcases hphase with rfl | rfl <;> simp [value?, Number.reread]
  · have hne : fraction ≠ [] := by
      rintro rfl
      exact hplaces hlength.symm
    have hpoint := pushAll?_point hfraction hne
      ⟨phase, negative, Nat.ofDigitChars 10 whole 0, 0, false, 0⟩ hphase
    rw [if_neg hplaces, charBytes_append]
    refine ⟨_, pushAll?_trans hpush hpoint, ?_⟩
    rw [← Nat.ofDigitChars_append, hvalue, hlength]
    simp [value?, decimal, Number.reread, hplaces]

theorem pushAll?_mantissa {c : Char} {rest : List Char} (hcs : IsWhole (c :: rest))
    (negative : Bool) :
    ∃ phase, (phase = .zero ∨ phase = .whole ∨ phase = .fraction) ∧
      (signed negative).pushAll? (charBytes (if rest.isEmpty then [c] else c :: '.' :: rest)) =
        some ⟨phase, negative, Nat.ofDigitChars 10 (c :: rest) 0, rest.length, false, 0⟩ := by
  have hwhole : IsWhole [c] := hcs.take (k := 1) (by decide)
  obtain ⟨phase, hphase, hpush⟩ := pushAll?_signed hwhole negative
  cases rest with
  | nil => exact ⟨phase, hphase.imp_right .inl, hpush⟩
  | cons d rest =>
    have hpoint := pushAll?_point (fun e he => hcs.1 e (List.mem_cons_of_mem c he)) (by simp)
      ⟨phase, negative, Nat.ofDigitChars 10 [c] 0, 0, false, 0⟩ hphase
    rw [← Nat.ofDigitChars_append, Nat.zero_add] at hpoint
    refine ⟨.fraction, .inr (.inr rfl), ?_⟩
    show pushAll? _ (charBytes ([c] ++ '.' :: d :: rest)) = _
    rw [charBytes_append]
    exact pushAll?_trans hpush hpoint

theorem scientific_cons (c : Char) (rest : List Char) (exponent : Int) :
    Decimal.scientific (c :: rest) exponent =
      (if rest.isEmpty then [c] else c :: '.' :: rest) ++
        'E' :: (if decide (exponent < 0) then '-' else '+') :: decimalDigits exponent.natAbs := by
  cases rest <;> simp [Decimal.scientific]

theorem pushAll?_scientific {cs : List Char} (hcs : IsWhole cs) (exponent : Int)
    (negative : Bool) :
    ∃ l, (signed negative).pushAll? (charBytes (Decimal.scientific cs exponent)) = some l ∧
      l.value? = some (.decimal
        ⟨negative, Nat.ofDigitChars 10 cs 0, exponent + 1 - cs.length⟩) := by
  obtain ⟨c, rest, rfl⟩ := List.exists_cons_of_ne_nil hcs.ne_nil
  obtain ⟨phase, hphase, hpush⟩ := pushAll?_mantissa hcs negative
  have hmark := pushAll?_mark hphase negative (Nat.ofDigitChars 10 (c :: rest) 0) rest.length
    (decide (exponent < 0)) exponent.natAbs
  rw [scientific_cons, charBytes_append]
  refine ⟨_, pushAll?_trans hpush hmark, ?_⟩
  have hexponent : (if decide (exponent < 0) then -(exponent.natAbs : Int)
      else exponent.natAbs) - rest.length = exponent + 1 - (c :: rest).length := by
    rw [List.length_cons]
    by_cases hneg : exponent < 0
    · simp only [hneg, decide_true, ↓reduceIte]
      omega
    · simp only [hneg, decide_false, Bool.false_eq_true, ↓reduceIte]
      omega
  rw [value?, decimal, hexponent]

theorem pushAll?_magnitude (d : Decimal) :
    ∃ l, (signed d.negative).pushAll? (charBytes d.magnitudeChars) = some l ∧
      l.value? = some (Number.reread (.decimal d)) := by
  obtain ⟨negative, coefficient, exponent⟩ := d
  have hdigits := isWhole_decimalDigits coefficient
  have hpos := List.length_pos_iff.mpr hdigits.ne_nil
  have hvalue : Nat.ofDigitChars 10 (decimalDigits coefficient) 0 = coefficient :=
    Nat.ofDigitChars_ten_toDigits
  rw [Decimal.magnitudeChars]
  dsimp only
  split
  · rename_i hplain
    have hplaces : -(exponent.natAbs : Int) = exponent := by omega
    have hpointed := pushAll?_pointed hdigits exponent.natAbs negative
    rw [hvalue, hplaces] at hpointed
    exact hpointed
  · rename_i hscientific
    have hscaled := pushAll?_scientific hdigits
      (Decimal.leadingExponent exponent (decimalDigits coefficient)) negative
    have hexponent : Decimal.leadingExponent exponent (decimalDigits coefficient) + 1 -
        (decimalDigits coefficient).length = exponent := by
      rw [Decimal.leadingExponent]
      omega
    have hnonzero : exponent ≠ 0 := by
      rintro rfl
      apply hscientific
      rw [Decimal.leadingExponent]
      omega
    rw [hvalue, hexponent] at hscaled
    rw [Number.reread, if_neg hnonzero]
    exact hscaled

/-! ## Printed numbers -/

theorem start?_eq_push? {b : UInt8} (hb : ((signed false).push? b).isSome) :
    start? b = (signed false).push? b := by
  cases hdigit : digit? b with
  | none => simp [push?, signed, hdigit] at hb
  | some d =>
    have hminus : b ≠ '-'.toUInt8 := by
      rintro rfl
      have hnone : digit? '-'.toUInt8 = none := by decide
      rw [hnone] at hdigit
      cases hdigit
    rw [start?, if_neg hminus, hdigit]
    simp [push?, signed, hdigit]

theorem read?_unsigned {bytes : List UInt8} {l : NumberLexeme}
    (hpush : (signed false).pushAll? bytes = some l) (hvalue : l.value?.isSome) :
    read? bytes = some l := by
  cases bytes with
  | nil =>
    obtain rfl : signed false = l := by simpa [pushAll?] using hpush
    simp [signed, value?] at hvalue
  | cons b rest =>
    rw [pushAll?] at hpush
    have hfirst : ((signed false).push? b).isSome := by
      cases hb : (signed false).push? b with
      | none => simp [hb] at hpush
      | some l' => rfl
    rw [read?, start?_eq_push? hfirst, hpush]
    simp [hvalue]

theorem read?_signed {bytes : List UInt8} {l : NumberLexeme}
    (hpush : (signed true).pushAll? bytes = some l) (hvalue : l.value?.isSome) :
    read? ('-'.toUInt8 :: bytes) = some l := by
  rw [read?, start?, if_pos rfl, Option.bind_some, hpush]
  simp [hvalue]

theorem read?_sign {cs : List Char} {negative : Bool} {n : Number}
    (hpush : ∃ l, (signed negative).pushAll? (charBytes cs) = some l ∧ l.value? = some n) :
    ∃ l, read? (charBytes (if negative then '-' :: cs else cs)) = some l ∧ l.value? = some n := by
  obtain ⟨l, hpush, hvalue⟩ := hpush
  refine ⟨l, ?_, hvalue⟩
  have hsome : l.value?.isSome := by rw [hvalue]; rfl
  cases negative with
  | false => exact read?_unsigned hpush hsome
  | true =>
    rw [if_pos rfl, charBytes_cons_ascii (by decide)]
    exact read?_signed hpush hsome

theorem pushAll?_integer (negative : Bool) (n : Nat) :
    ∃ l, (signed negative).pushAll? (charBytes (decimalDigits n)) = some l ∧
      l.value? = some (.integer (if negative then -(n : Int) else n)) := by
  obtain ⟨phase, hphase, hpush⟩ := pushAll?_signed (isWhole_decimalDigits n) negative
  refine ⟨_, hpush, ?_⟩
  rw [decimalDigits, Nat.ofDigitChars_ten_toDigits]
  rcases hphase with rfl | rfl <;> rfl

/-- The text of an integer or decimal is one number lexeme, with the value of the number. -/
theorem read?_text {n : Number} (hn : n.isExact) :
    ∃ l, read? (utf8Bytes n.text) = some l ∧ l.value? = some n.reread := by
  rw [Number.text, utf8Bytes_ofList]
  cases n with
  | integer n =>
    have hread := read?_sign (pushAll?_integer (decide (n < 0)) n.natAbs)
    have hsame : (if decide (n < 0) then -(n.natAbs : Int) else n.natAbs) = n := by
      by_cases hneg : n < 0
      · simp only [hneg, decide_true, ↓reduceIte]
        omega
      · simp only [hneg, decide_false, Bool.false_eq_true, ↓reduceIte]
        omega
    rw [hsame] at hread
    simpa [Number.chars, Number.integerChars, Number.reread] using hread
  | decimal d => exact read?_sign (pushAll?_magnitude d)
  | binary x => simp [Number.isExact] at hn

end NumberLexeme

end JsonCleave
