import JsonCleave.Reading
import JsonCleave.Proofs.Container
import JsonCleave.Proofs.NumberText
/-!
# Serialized text is compact

The text of a copy has no control characters, and no blanks outside of string literals, for every
reader. The proof follows the pieces the writer emits: punctuation, literals, numbers and words.
-/

namespace JsonCleave

/-! ## Literals in a text -/

/-- Position in a JSON text: outside of literals, inside a literal, or behind a backslash in one. -/
inductive Spot where
  | outside
  | inside
  | escaped
deriving DecidableEq, Repr

namespace Spot

def behind : Spot → Char → Spot
  | .outside, c => if c = '"' then .inside else .outside
  | .inside, c => if c = '"' then .outside else if c = '\\' then .escaped else .inside
  | .escaped, _ => .inside

def through (s : Spot) (cs : List Char) : Spot := cs.foldl behind s

def unquoted : Spot → List Char → List Char
  | _, [] => []
  | s, c :: cs => if s = .outside then c :: (s.behind c).unquoted cs else (s.behind c).unquoted cs

theorem unquoted_append (s : Spot) (cs ds : List Char) :
    s.unquoted (cs ++ ds) = s.unquoted cs ++ (s.through cs).unquoted ds := by
  induction cs generalizing s with
  | nil => rfl
  | cons c cs ih =>
    rw [List.cons_append, unquoted, unquoted, ih]
    split <;> rfl

/-- The characters lead from `s` to `s'`. None is a control character, and those outside of literals
are printable ASCII without the space. -/
structure Passes (s : Spot) (cs : List Char) (s' : Spot) : Prop where
  plain : ∀ c ∈ cs, 0x20 ≤ c.toNat
  visible : ∀ c ∈ s.unquoted cs, 0x20 < c.toNat ∧ c.toNat < 0x7f
  through : s.through cs = s'

instance (s : Spot) (cs : List Char) (s' : Spot) : Decidable (Passes s cs s') :=
  decidable_of_iff
    (cs.all (fun c => 0x20 ≤ c.toNat) ∧
      (s.unquoted cs).all (fun c => 0x20 < c.toNat ∧ c.toNat < 0x7f) ∧ s.through cs = s')
    ⟨fun h => ⟨by simpa using h.1, by simpa using h.2.1, h.2.2⟩,
      fun h => ⟨by simpa using h.plain, by simpa using h.visible, h.through⟩⟩

theorem through_append (s : Spot) (cs ds : List Char) :
    s.through (cs ++ ds) = (s.through cs).through ds := List.foldl_append

theorem Passes.nil (s : Spot) : Passes s [] s := ⟨nofun, nofun, rfl⟩

theorem Passes.append {s s' s'' : Spot} {cs ds : List Char} (hcs : Passes s cs s')
    (hds : Passes s' ds s'') : Passes s (cs ++ ds) s'' where
  plain := List.forall_mem_append.mpr ⟨hcs.plain, hds.plain⟩
  visible := by
    rw [unquoted_append, hcs.through]
    exact List.forall_mem_append.mpr ⟨hcs.visible, hds.visible⟩
  through := by rw [through_append, hcs.through, hds.through]

theorem passes_inside {c : Char} (hplain : 0x20 ≤ c.toNat) (hquote : c ≠ '"')
    (hbackslash : c ≠ '\\') : Passes .inside [c] .inside where
  plain := by simpa using hplain
  visible := by simp [unquoted]
  through := by simp [Spot.through, behind, hquote, hbackslash]

theorem plain_hexDigit :
    ∀ n < 16, 0x20 ≤ (hexDigit n).toNat ∧ hexDigit n ≠ '"' ∧ hexDigit n ≠ '\\' := by
  decide

theorem passes_hexDigit {n : Nat} (hn : n < 16) : Passes .inside [hexDigit n] .inside :=
  passes_inside (plain_hexDigit n hn).1 (plain_hexDigit n hn).2.1 (plain_hexDigit n hn).2.2

theorem passes_literalChar (c : Char) : Passes .inside (literalChar c) .inside := by
  rw [literalChar]
  split
  · decide
  split
  · decide
  split
  · decide
  split
  · decide
  split
  · decide
  split
  · decide
  split
  · decide
  split
  · have hescape : Passes .inside ['\\', 'u', '0', '0'] .inside := by decide
    exact hescape.append ((passes_hexDigit (by omega)).append (passes_hexDigit (by omega)))
  · rename_i hquote hbackslash _ _ _ _ _ hcontrol
    exact passes_inside (by omega) hquote hbackslash

theorem passes_flatMap_literalChar (cs : List Char) :
    Passes .inside (cs.flatMap literalChar) .inside := by
  induction cs with
  | nil => exact .nil .inside
  | cons c cs ih => exact (passes_literalChar c).append ih

end Spot

/-! ## Compact text -/

/-- No control characters, no blanks outside of string literals, and all literals closed. -/
def IsCompact (text : String) : Prop := Spot.Passes .outside text.toList .outside

instance (text : String) : Decidable (IsCompact text) :=
  inferInstanceAs (Decidable (Spot.Passes ..))

namespace IsCompact

theorem append {text text' : String} (h : IsCompact text) (h' : IsCompact text') :
    IsCompact (text ++ text') := by
  rw [IsCompact, String.toList_append]
  exact Spot.Passes.append h h'

theorem newline_not_mem {text : String} (h : IsCompact text) : '\n' ∉ text.toList :=
  fun hmem => absurd (h.plain '\n' hmem) (by decide)

end IsCompact

theorem isCompact_literal (s : String) : IsCompact (literal s) := by
  have hopening : Spot.Passes .outside ['"'] .inside := by decide
  have hclosing : Spot.Passes .inside ['"'] .outside := by decide
  rw [IsCompact, literal, String.toList_ofList]
  exact (hopening.append (Spot.passes_flatMap_literalChar s.toList)).append hclosing

/-! ## Numbers and words -/

def IsMark (c : Char) : Prop := 0x20 < c.toNat ∧ c.toNat < 0x7f ∧ c ≠ '"'

instance (c : Char) : Decidable (IsMark c) := inferInstanceAs (Decidable (_ ∧ _))

def AreMarks (cs : List Char) : Prop := ∀ c ∈ cs, IsMark c

instance (cs : List Char) : Decidable (AreMarks cs) :=
  decidable_of_iff (cs.all fun c => IsMark c) (by simp [AreMarks])

namespace AreMarks

theorem append {cs ds : List Char} (hcs : AreMarks cs) (hds : AreMarks ds) : AreMarks (cs ++ ds) :=
  List.forall_mem_append.mpr ⟨hcs, hds⟩

theorem cons {c : Char} {cs : List Char} (hc : IsMark c) (hcs : AreMarks cs) : AreMarks (c :: cs) :=
  List.forall_mem_cons.mpr ⟨hc, hcs⟩

theorem replicate (n : Nat) {c : Char} (hc : IsMark c) : AreMarks (List.replicate n c) := by
  intro d hd
  rw [List.eq_of_mem_replicate hd]
  exact hc

theorem passes {cs : List Char} (hcs : AreMarks cs) : Spot.Passes .outside cs .outside := by
  induction cs with
  | nil => exact .nil .outside
  | cons c cs ih =>
    obtain ⟨hlow, hhigh, hquote⟩ := hcs c (by simp)
    have hone : Spot.Passes .outside [c] .outside :=
      ⟨by simpa using Nat.le_of_lt hlow, by simpa [Spot.unquoted] using ⟨hlow, hhigh⟩,
        by simp [Spot.through, Spot.behind, hquote]⟩
    exact hone.append (ih fun d hd => hcs d (by simp [hd]))

theorem isCompact {cs : List Char} (hcs : AreMarks cs) : IsCompact (String.ofList cs) := by
  rw [IsCompact, String.toList_ofList]
  exact hcs.passes

end AreMarks

theorem areMarks_decimalDigits (n : Nat) : AreMarks (decimalDigits n) := by
  intro c hc
  have hrange := toNat_of_isDigit ((isWhole_decimalDigits n).1 c hc)
  refine ⟨by omega, by omega, ?_⟩
  rintro rfl
  exact absurd hrange.1 (by decide)

theorem isMark_sign (c : Prop) [Decidable c] : IsMark (if c then '-' else '+') := by
  split <;> decide

theorem areMarks_signed {cs : List Char} (hcs : AreMarks cs) (negative : Bool) :
    AreMarks (if negative then '-' :: cs else cs) := by
  split
  · exact .cons (by decide) hcs
  · exact hcs

namespace Decimal

theorem areMarks_pointed {digits : List Char} (hdigits : AreMarks digits) (places : Nat) :
    AreMarks (pointed digits places) := by
  have hfilled := (AreMarks.replicate (places + 1 - digits.length) (c := '0') (by decide)).append
    hdigits
  have hpart {cs : List Char} (hcs : ∀ c ∈ cs, c ∈ _) : AreMarks cs := fun c hc =>
    hfilled c (hcs c hc)
  unfold pointed
  dsimp only
  split
  · exact hpart fun _ => List.mem_of_mem_take
  · exact (hpart fun _ => List.mem_of_mem_take).append
      (.cons (by decide) (hpart fun _ => List.mem_of_mem_drop))

theorem areMarks_mantissa : ∀ {digits : List Char}, AreMarks digits →
    AreMarks (match digits with
      | [] => []
      | [d] => [d]
      | d :: rest => d :: '.' :: rest)
  | [], hdigits => hdigits
  | [_], hdigits => hdigits
  | _ :: _ :: _, hdigits =>
    .cons (List.forall_mem_cons.mp hdigits).1
      (.cons (by decide) (List.forall_mem_cons.mp hdigits).2)

theorem areMarks_scientific {digits : List Char} (hdigits : AreMarks digits) (exponent : Int) :
    AreMarks (scientific digits exponent) := by
  have hmark : IsMark 'E' := by decide
  exact (areMarks_mantissa hdigits).append
    (.cons hmark (.cons (isMark_sign _) (areMarks_decimalDigits _)))

theorem areMarks_chars (d : Decimal) : AreMarks d.chars := by
  refine areMarks_signed ?_ d.negative
  have hdigits := areMarks_decimalDigits d.coefficient
  unfold magnitudeChars
  dsimp only
  split
  · exact areMarks_pointed hdigits _
  · exact areMarks_scientific hdigits _

end Decimal

namespace Binary64

theorem areMarks_widened (width n : Nat) : AreMarks (widened width n) :=
  (AreMarks.replicate _ (by decide)).append (areMarks_decimalDigits n)

theorem areMarks_place (layout : Layout) (coefficient : Nat) (s : Int) :
    AreMarks (layout.place coefficient s) := by
  have hdigits := areMarks_decimalDigits coefficient
  unfold Layout.place
  dsimp only
  split
  · split
    · exact (hdigits.append (.replicate _ (by decide))).append (by decide)
    · exact Decimal.areMarks_pointed hdigits _
  · have hmark : IsMark 'e' := by decide
    exact (Decimal.areMarks_mantissa hdigits).append
      (.cons hmark (.cons (isMark_sign _) (areMarks_widened _ _)))

theorem areMarks_chars {layout : Layout} (hnotANumber : AreMarks layout.notANumber)
    (hinfinity : AreMarks layout.infinity) (x : Binary64) : AreMarks (x.chars layout) := by
  unfold chars
  dsimp only
  split
  · split
    · exact hnotANumber
    · exact areMarks_signed hinfinity x.negative
  · refine areMarks_signed ?_ x.negative
    split
    · decide
    · exact areMarks_place layout _ _

end Binary64

theorem NonFinite.areMarks_chars (x : NonFinite) : AreMarks x.chars := by
  refine areMarks_signed ?_ x.negative
  cases x with
  | infinity negative => cases negative <;> decide
  | nan negative signaling diagnostic =>
    rw [word]
    refine AreMarks.append (by split <;> decide) ?_
    split
    · decide
    · exact areMarks_decimalDigits diagnostic

theorem areMarks_chars (n : Number) : AreMarks n.chars := by
  cases n with
  | integer n =>
    have hdigits := areMarks_signed (areMarks_decimalDigits n.natAbs) (decide (n < 0))
    simpa [Number.chars, Number.integerChars] using hdigits
  | decimal d => exact d.areMarks_chars
  | binary x => exact x.areMarks_chars (by decide) (by decide)

theorem isCompact_written (value : Scalar) : IsCompact value.written := by
  cases value with
  | null => decide
  | boolean b => cases b <;> decide
  | number n => exact (areMarks_chars n).isCompact
  | nonFinite x => exact x.areMarks_chars.isCompact
  | string s => exact isCompact_literal s

/-! ## Copies -/

theorem isCompact_opener (shape : Shape) : IsCompact shape.opener := by cases shape <;> decide

theorem isCompact_closer (shape : Shape) : IsCompact shape.closer := by cases shape <;> decide

namespace Writer

theorem isCompact_separate {w : Writer} (hw : IsCompact w.text) (isKey : Bool) :
    IsCompact (w.separate isKey).text := by
  unfold separate
  split
  · exact hw
  · split
    · dsimp only
      split
      · exact hw
      · exact hw.append (by decide)
    · exact hw

/-- Writing a token keeps the text compact. -/
theorem isCompact_write {w : Writer} (hw : IsCompact w.text) (t : Token) :
    IsCompact (w.write t).text := by
  cases t with
  | opening shape => exact (isCompact_separate hw false).append (isCompact_opener shape)
  | closing shape => exact hw.append (isCompact_closer shape)
  | key name =>
    exact ((isCompact_separate hw true).append (isCompact_literal name)).append (by decide)
  | scalar value => exact (isCompact_separate hw false).append (isCompact_written value)

theorem isCompact_writeAll {w : Writer} (hw : IsCompact w.text) (ts : List Token) :
    IsCompact (w.writeAll ts).text := by
  induction ts generalizing w with
  | nil => exact hw
  | cons t ts ih => exact ih (w.isCompact_write hw t)

end Writer

namespace Reader

theorem isCompact_copyOpen {w : Writer} (hw : IsCompact w.text) (r : Reader) :
    IsCompact (copyOpen w r).1.text := by
  fun_induction copyOpen w r with
  | case1 w r hdone => exact hw
  | case2 w r hopen fault r' hnext => exact hw
  | case3 w r hopen r' hnext => exact hw
  | case4 w r hopen t r' hnext excess hexcess => exact Writer.isCompact_separate hw false
  | case5 w r hopen t r' hnext hprint ih => exact ih (w.isCompact_write hw t)

/-- The text of a copy is compact, also if the copy fails. -/
theorem isCompact_copy (r : Reader) : IsCompact r.copy.1.text := by
  unfold copy
  split
  · split
    · exact (by decide : IsCompact "")
    · exact isCompact_written _
  · rename_i shape _
    exact isCompact_copyOpen (isCompact_opener shape) r
  · exact (by decide : IsCompact "")

theorem isCompact_serialize {r : Reader} {text : String}
    (h : (Reading.serialize.run r).result = .ok text) : IsCompact text := by
  have hcopy := isCompact_copy r
  simp only [Reading.serialize, Reading.run, Reader.answer, Copy.result] at h
  cases houtcome : r.copy.1.outcome with
  | ok _ =>
    simp only [houtcome, Except.map, Reading.run, Except.ok.injEq] at h
    exact h ▸ hcopy
  | error fault =>
    simp only [houtcome, Except.map] at h
    split at h <;> simp_all [Reading.run]

end Reader

theorem Tree.isCompact_text (v : Tree) : IsCompact v.text := by
  have hwritten : IsCompact (Writer.writeAll ⟨[], ""⟩ v.tokens).text :=
    Writer.isCompact_writeAll (by decide) v.tokens
  rw [v.writeAll_tokens] at hwritten
  simpa [Writer.put, Writer.separate] using hwritten

end JsonCleave
