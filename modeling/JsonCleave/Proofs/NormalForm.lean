import JsonCleave.Proofs.Document
import JsonCleave.Proofs.Lossless
/-!
# Copies are normal forms

Byte sources deliver integers and decimals only, so the copy of a document reads back and can be
copied again. The second copy differs from the first only in `-0`, which reads back as the integer
zero; further copies do not change it.
-/

namespace JsonCleave

/-! ## What is read is exact -/

def Token.isExact : Token → Bool
  | .scalar value => value.isExact
  | _ => true

def Scanner.IsExact (s : Scanner) : Prop :=
  ∀ due value, s.lexeme = some (.literal due value) → value.isExact

def Scan.IsExact (scan : Scan) : Prop :=
  (∀ t ∈ scan.tokens, t.isExact) ∧ ∀ s, scan.next = some s → s.IsExact

theorem Grammar.isExact_accept? {g g' : Grammar} {sign : Sign} {t : Token}
    (hsign : ∀ value, sign = .scalar value → value.isExact)
    (haccept : g.accept? sign = some (some t, g')) : t.isExact := by
  cases sign with
  | opening shape =>
    simp only [accept?, Option.ite_none_right_eq_some, Option.some.injEq, Prod.mk.injEq] at haccept
    rw [← haccept.2.1]
    rfl
  | closing shape =>
    simp only [accept?, Option.ite_none_right_eq_some, Option.some.injEq, Prod.mk.injEq] at haccept
    rw [← haccept.2.1]
    rfl
  | comma =>
    simp only [accept?] at haccept
    split at haccept <;> simp at haccept
  | colon => simp [accept?] at haccept
  | scalar value =>
    simp only [accept?] at haccept
    split at haccept
    · obtain ⟨rfl, -⟩ := by simpa using haccept
      exact hsign value rfl
    · split at haccept
      · obtain ⟨-, rfl, -⟩ := by simpa using haccept
        rfl
      · cases haccept

namespace Scan

theorem isExact_refused : refused.IsExact := ⟨nofun, nofun⟩

theorem isExact_silent {s : Scanner} (hs : s.IsExact) : (silent s).IsExact :=
  ⟨nofun, by rintro _ ⟨⟩; exact hs⟩

theorem IsExact.ite {c : Prop} [Decidable c] {scan scan' : Scan} (hscan : scan.IsExact)
    (hscan' : scan'.IsExact) : (if c then scan else scan').IsExact := by
  split
  · exact hscan
  · exact hscan'

theorem IsExact.followedBy {scan : Scan} (hscan : scan.IsExact) {later : Scanner → Scan}
    (hlater : ∀ s : Scanner, s.IsExact → (later s).IsExact) : (scan.followedBy later).IsExact := by
  unfold Scan.followedBy
  split
  · exact hscan
  · rename_i s hs
    obtain ⟨htokens, hnext⟩ := hlater s (hscan.2 s hs)
    refine ⟨fun t ht => ?_, hnext⟩
    rcases List.mem_append.mp ht with hfirst | hsecond
    · exact hscan.1 t hfirst
    · exact htokens t hsecond

end Scan

namespace Scanner

open Scan

theorem isExact_start : start.IsExact := nofun

theorem isExact_finishSign (s : Scanner) {sign : Sign}
    (hsign : ∀ value, sign = .scalar value → value.isExact) : (s.finishSign sign).IsExact := by
  unfold finishSign
  split
  · rename_i token g haccept
    refine ⟨fun t ht => ?_, by rintro _ ⟨⟩; exact nofun⟩
    obtain rfl : token = some t := by simpa using ht
    exact Grammar.isExact_accept? hsign haccept
  · exact isExact_refused

theorem isExact_within (s : Scanner) {l : Lexeme}
    (hl : ∀ due value, l = .literal due value → value.isExact) : (s.within l).IsExact :=
  isExact_silent fun due value h => hl due value (Option.some.inj h)

theorem isExact_stepBetween {s : Scanner} (hs : s.IsExact) (b : UInt8) :
    (s.stepBetween b).IsExact := by
  have hsign : ∀ sign, (∀ value, sign ≠ .scalar value) → (s.finishSign sign).IsExact :=
    fun sign hne => isExact_finishSign s fun value h => absurd h (hne value)
  have hword : ∀ due value, value.isExact → (s.within (.literal due value)).IsExact := by
    intro due value hvalue
    refine isExact_within s ?_
    rintro _ _ ⟨⟩
    exact hvalue
  refine .ite (isExact_silent hs) (.ite (hsign _ nofun) (.ite (hsign _ nofun) (.ite (hsign _ nofun)
    (.ite (hsign _ nofun) (.ite (hsign _ nofun) (.ite (hsign _ nofun)
      (.ite (isExact_within s nofun) (.ite (hword _ _ rfl) (.ite (hword _ _ rfl)
        (.ite (hword _ _ rfl) ?_))))))))))
  split
  · exact isExact_within s nofun
  · exact isExact_refused

theorem isExact_value? {l : NumberLexeme} {n : Number} (h : l.value? = some n) : n.isExact := by
  unfold NumberLexeme.value? at h
  split at h
  all_goals first
    | obtain rfl := Option.some.inj h
      rfl
    | cases h

theorem isExact_step {s : Scanner} (hs : s.IsExact) (b : UInt8) : (s.step b).IsExact := by
  unfold step
  split
  · exact isExact_stepBetween hs b
  · rename_i due value hlexeme
    have hvalue := hs due value hlexeme
    unfold stepLiteral
    repeat' split
    all_goals first
      | exact isExact_finishSign s (by rintro _ ⟨⟩; exact hvalue)
      | exact isExact_within s (by rintro _ _ ⟨⟩; exact hvalue)
      | exact isExact_refused
  · unfold stepNumber
    split
    · exact isExact_within s nofun
    · split
      · exact isExact_refused
      · rename_i n hn
        refine (isExact_finishSign s ?_).followedBy fun s' hs' => isExact_stepBetween hs' b
        rintro _ ⟨⟩
        exact isExact_value? hn
  · unfold stepString
    split
    · exact isExact_within s nofun
    · exact isExact_finishSign s (by rintro _ ⟨⟩; rfl)
    · exact isExact_refused

theorem isExact_scan {s : Scanner} (hs : s.IsExact) (bytes : List UInt8) :
    (s.scan bytes).IsExact := by
  induction bytes generalizing s with
  | nil => exact isExact_silent hs
  | cons b rest ih =>
    rw [scan_cons]
    exact (isExact_step hs b).followedBy fun s' hs' => ih hs'

theorem isExact_finish {s : Scanner} (hs : s.IsExact) : s.finish.IsExact := by
  refine (isExact_step hs endMark).followedBy fun s' hs' => ?_
  split
  · exact isExact_silent hs'
  · exact isExact_refused

end Scanner

namespace Feed

def AreExact (deliveries : List Delivery) : Prop := ∀ t, .token t ∈ deliveries → t.isExact

theorem AreExact.append {first second : List Delivery} (hfirst : AreExact first)
    (hsecond : AreExact second) : AreExact (first ++ second) := by
  intro t ht
  rcases List.mem_append.mp ht with h | h
  · exact hfirst t h
  · exact hsecond t h

theorem areExact_halt (ending : Ending) : AreExact [.halt ending] := by
  intro t ht
  simp at ht

theorem areExact_ofScan {scan : Scan} (h : scan.IsExact) : AreExact (ofScan scan) := by
  refine AreExact.append (fun t ht => ?_) ?_
  · obtain ⟨t', ht', heq⟩ := List.mem_map.mp ht
    obtain rfl : t' = t := by simpa using heq
    exact h.1 t' ht'
  · split
    · exact areExact_halt malformed
    · exact nofun

theorem areExact_ofChunk {s : Option Scanner} (hs : ∀ s', s = some s' → s'.IsExact)
    (chunk : List UInt8) : AreExact (ofChunk s chunk).1 ∧
      ∀ s', (ofChunk s chunk).2 = some s' → s'.IsExact := by
  cases s with
  | none => exact ⟨areExact_halt malformed, nofun⟩
  | some s =>
    have hexact := hs s rfl
    unfold ofChunk
    dsimp only
    split
    · refine ⟨?_, (Scanner.isExact_finish hexact).2⟩
      split
      · exact areExact_halt .complete
      · exact areExact_ofScan (Scanner.isExact_finish hexact)
    · exact ⟨areExact_ofScan (Scanner.isExact_scan hexact chunk),
        (Scanner.isExact_scan hexact chunk).2⟩

theorem areExact_ofChunks {s : Option Scanner} (hs : ∀ s', s = some s' → s'.IsExact)
    (chunks : List (List UInt8)) : AreExact (ofChunks s chunks).1 ∧
      ∀ s', (ofChunks s chunks).2 = some s' → s'.IsExact := by
  induction chunks generalizing s with
  | nil => exact ⟨nofun, hs⟩
  | cons chunk rest ih =>
    obtain ⟨hfirst, hnext⟩ := areExact_ofChunk hs chunk
    obtain ⟨hlater, hlast⟩ := ih hnext
    exact ⟨hfirst.append hlater, hlast⟩

theorem areExact_trimmed {deliveries : List Delivery} (h : AreExact deliveries) (ending : Ending) :
    AreExact (trimmed deliveries ending).deliveries := by
  intro t ht
  have hsuffix := List.dropWhile_suffix (· = Delivery.halt ending) (l := deliveries.reverse)
  exact h t (List.mem_reverse.mp (hsuffix.subset (List.mem_reverse.mp ht)))

/-- Byte sources deliver no doubles. -/
theorem areExact_ofReads (r : Reads) : AreExact (ofReads r).deliveries := by
  have hstart : ∀ s', some Scanner.start = some s' → s'.IsExact := by
    rintro _ ⟨⟩
    exact Scanner.isExact_start
  obtain ⟨hchunks, hnext⟩ := areExact_ofChunks hstart r.chunks
  unfold ofReads
  dsimp only
  split
  · exact areExact_trimmed hchunks _
  · exact areExact_trimmed (hchunks.append (areExact_ofChunk hnext []).1) _

end Feed

namespace Tree

mutual
theorem isExact_of_tokens : ∀ (v : Tree), (∀ t ∈ v.tokens, t.isExact) → v.isExact
  | .scalar value, h => h (.scalar value) (by simp [tokens])
  | .object members, h => areExactMembers_of_tokens members fun t ht => h t (by simp [tokens, ht])
  | .array elements, h => areExact_of_tokens elements fun t ht => h t (by simp [tokens, ht])

theorem areExactMembers_of_tokens : ∀ (members : List (String × Tree)),
    (∀ t ∈ memberTokens members, t.isExact) → areExactMembers members
  | [], _ => rfl
  | (name, value) :: rest, h => by
    rw [areExactMembers, Bool.and_eq_true]
    exact ⟨isExact_of_tokens value fun t ht => h t (by simp [memberTokens, ht]),
      areExactMembers_of_tokens rest fun t ht => h t (by simp [memberTokens, ht])⟩

theorem areExact_of_tokens : ∀ (elements : List Tree),
    (∀ t ∈ elementTokens elements, t.isExact) → areExact elements
  | [], _ => rfl
  | value :: rest, h => by
    rw [areExact, Bool.and_eq_true]
    exact ⟨isExact_of_tokens value fun t ht => h t (by simp [elementTokens, ht]),
      areExact_of_tokens rest fun t ht => h t (by simp [elementTokens, ht])⟩
end

theorem isExact_of_ofReads {source : Reads} {v : Tree} {later : Feed}
    (h : Feed.ofReads source = later.behind v.tokens) : v.isExact := by
  refine v.isExact_of_tokens fun t ht => Feed.areExact_ofReads source t ?_
  rw [h, Feed.behind]
  exact List.mem_append_left _ (List.mem_map_of_mem ht)

end Tree

/-! ## Texts of whole documents -/

theorem Scanner.scan_singleton (s : Scanner) (b : UInt8) : s.scan [b] = s.step b := by
  rw [scan_cons, Scan.followedBy]
  rcases s.step b with ⟨ts, _ | s'⟩
  · rfl
  · simp [scan, scanFrom]

theorem Scanner.endsNumber_endMark : EndsNumber endMark := by
  intro l
  cases hphase : l.phase <;> rw [NumberLexeme.push?, hphase] <;> rfl

namespace Feed

open Scanner

theorem trimmed_all_tokens (ts : List Token) :
    trimmed (ts.map .token) .complete = .ofTokens ts := by
  have hbehind := trimmed_behind ts [] .complete
  rw [List.append_nil] at hbehind
  rw [hbehind]
  simp [trimmed, behind, ofTokens]

theorem ofReads_of_delivers {bytes : List UInt8} {ts : List Token}
    (h : Delivers .start bytes ts ⟨[], .separator⟩) {r : Reads} (hr : r.Carries bytes) :
    ofReads r = .ofTokens ts := by
  have hrun : Runs Scanner.start (bytes ++ [endMark]) (ts ++ []) ⟨⟨[], .separator⟩, none⟩ :=
    h endMark [] _ endsNumber_endMark rfl
  rw [Runs, scan_append, Scan.followedBy, List.append_nil] at hrun
  cases hscan : Scanner.start.scan bytes with
  | mk us next =>
    cases next with
    | none => simp [hscan] at hrun
    | some s =>
      simp only [hscan, Scan.mk.injEq] at hrun
      rw [scan_singleton] at hrun
      have hfinish : s.finish = ⟨(s.step endMark).tokens, some ⟨⟨[], .separator⟩, none⟩⟩ := by
        rw [finish, Scan.followedBy, hrun.2]
        simp [Grammar.isComplete, Scan.silent]
      rw [← hr.flatten_chunks] at hscan
      simp only [ofReads, hr.failure, ofChunks_of_scan hr.ne_nil hscan, ofChunk, List.isEmpty_nil,
        ↓reduceIte, hfinish, ← hrun.1]
      by_cases hnone : (s.step endMark).tokens = []
      · simpa [hnone] using trimmed_tokens us
      · simpa [hnone, ofScan] using trimmed_all_tokens (us ++ (s.step endMark).tokens)

/-- The compact text of any value delivers its tokens, followed by a good ending. -/
theorem ofReads_whole_text {v : Tree} (hexact : v.isExact) {r : Reads}
    (hr : r.Carries (utf8Bytes v.text)) : ofReads r = .ofTokens v.reread.tokens :=
  ofReads_of_delivers (v.delivers_text hexact (g := .start) rfl) hr

end Feed

/-! ## Numbers printed as minus zero -/

/-- The scalar with an integer zero for numbers printed as `-0`. -/
def Scalar.unsignedZero (value : Scalar) : Scalar :=
  if value.written = "-0" then .number (.integer 0) else value

namespace Number

theorem text_integer_zero : (integer 0).text = "0" := by decide

theorem chars_decimal_of_exponent {d : Decimal} (hd : d.exponent = 0) :
    (decimal d).chars =
      if d.negative then '-' :: decimalDigits d.coefficient else decimalDigits d.coefficient := by
  have hpos : 0 < (decimalDigits d.coefficient).length :=
    List.length_pos_iff.mpr (isWhole_decimalDigits d.coefficient).ne_nil
  have hmagnitude : d.magnitudeChars = decimalDigits d.coefficient := by
    have hleading : (-6 : Int) ≤ 0 + (decimalDigits d.coefficient).length - 1 := by omega
    have hfill : 0 + 1 - (decimalDigits d.coefficient).length = 0 := by omega
    simp only [Decimal.magnitudeChars, Decimal.leadingExponent, hd, hleading, Decimal.pointed]
    simp [hfill]
  rw [chars, Decimal.chars, hmagnitude]

theorem reread_of_text_eq {n : Number} (hn : n.isExact) (h : n.text = "-0") :
    n.reread = .integer 0 := by
  obtain ⟨l, hread, hvalue⟩ := NumberLexeme.read?_text hn
  have hzero : NumberLexeme.read? (utf8Bytes "-0") = some ⟨.zero, true, 0, 0, false, 0⟩ := by decide
  rw [h, hzero, Option.some.injEq] at hread
  subst hread
  exact (Option.some.inj hvalue).symm

theorem text_reread {n : Number} (hn : n.isExact) :
    n.reread.text = if n.text = "-0" then "0" else n.text := by
  by_cases hzero : n.text = "-0"
  · rw [if_pos hzero, reread_of_text_eq hn hzero, text_integer_zero]
  · rw [if_neg hzero]
    cases n with
    | integer n => rfl
    | binary x => rfl
    | decimal d =>
      by_cases hd : d.exponent = 0
      · rw [reread, if_pos hd, text, text, chars_decimal_of_exponent hd, chars, integerChars]
        cases hsign : d.negative with
        | false =>
          have hpos : ¬ (d.coefficient : Int) < 0 := by omega
          simp [hpos]
        | true =>
          have hne : d.coefficient ≠ 0 := by
            intro hnone
            refine hzero ?_
            rw [text, chars_decimal_of_exponent hd, if_pos hsign, hnone]
            decide
          have hneg : -(d.coefficient : Int) < 0 := by omega
          simp only [↓reduceIte, hneg, Int.natAbs_neg, Int.natAbs_natCast]
      · rw [reread, if_neg hd]

theorem reread_reread (n : Number) : n.reread.reread = n.reread := by
  cases n with
  | integer n => rfl
  | binary x => rfl
  | decimal d =>
    by_cases hd : d.exponent = 0
    · rw [reread, if_pos hd]
      rfl
    · rw [reread, if_neg hd, reread, if_neg hd]

theorem isExact_reread {n : Number} (hn : n.isExact) : n.reread.isExact := by
  cases n with
  | integer n => rfl
  | binary x => exact hn
  | decimal d =>
    rw [reread]
    split <;> rfl

end Number

namespace Scalar

theorem written_ne_of_literal (s : String) : literal s ≠ "-0" := by
  intro h
  have hlist := congrArg String.toList h
  simp [literal] at hlist

theorem written_reread {value : Scalar} (hvalue : value.isExact) :
    value.reread.written = value.unsignedZero.written := by
  cases value with
  | null => rfl
  | boolean b => cases b <;> rfl
  | string s =>
    have hne : (string s).written ≠ "-0" := written_ne_of_literal s
    rw [unsignedZero, if_neg hne]
    rfl
  | nonFinite x => cases hvalue
  | number n =>
    rw [unsignedZero, apply_ite written]
    exact Number.text_reread hvalue

theorem reread_reread (value : Scalar) : value.reread.reread = value.reread := by
  cases value with
  | number n => exact congrArg number n.reread_reread
  | null => rfl
  | boolean b => rfl
  | nonFinite x => rfl
  | string s => rfl

theorem isExact_reread {value : Scalar} (hvalue : value.isExact) : value.reread.isExact := by
  cases value with
  | number n => exact Number.isExact_reread hvalue
  | null => rfl
  | boolean b => rfl
  | nonFinite x => cases hvalue
  | string s => rfl

theorem unsignedZero_of_ne {value : Scalar} (h : value.written ≠ "-0") :
    value.unsignedZero = value := if_neg h

end Scalar

namespace Tree

mutual
def unsignedZeros : Tree → Tree
  | .scalar value => .scalar value.unsignedZero
  | .object members => .object (unsignedZerosMembers members)
  | .array elements => .array (unsignedZerosElements elements)

def unsignedZerosMembers : List (String × Tree) → List (String × Tree)
  | [] => []
  | (name, value) :: rest => (name, unsignedZeros value) :: unsignedZerosMembers rest

def unsignedZerosElements : List Tree → List Tree
  | [] => []
  | value :: rest => unsignedZeros value :: unsignedZerosElements rest
end

mutual
/-- Reading a text and printing it again changes only `-0`. -/
theorem text_reread : ∀ (v : Tree), v.isExact → v.reread.text = v.unsignedZeros.text
  | .scalar _, h => Scalar.written_reread h
  | .object members, h => by
    rw [reread, unsignedZeros, text, text, memberTexts_reread members h]
  | .array elements, h => by
    rw [reread, unsignedZeros, text, text, elementTexts_reread elements h]

theorem memberTexts_reread : ∀ (members : List (String × Tree)), areExactMembers members →
    memberTexts (rereadMembers members) = memberTexts (unsignedZerosMembers members)
  | [], _ => rfl
  | (name, value) :: rest, h => by
    rw [areExactMembers, Bool.and_eq_true] at h
    rw [rereadMembers, unsignedZerosMembers, memberTexts, memberTexts, text_reread value h.1,
      memberTexts_reread rest h.2]

theorem elementTexts_reread : ∀ (elements : List Tree), areExact elements →
    elementTexts (rereadElements elements) = elementTexts (unsignedZerosElements elements)
  | [], _ => rfl
  | value :: rest, h => by
    rw [areExact, Bool.and_eq_true] at h
    rw [rereadElements, unsignedZerosElements, elementTexts, elementTexts, text_reread value h.1,
      elementTexts_reread rest h.2]
end

mutual
theorem reread_reread : ∀ (v : Tree), v.isExact → v.reread.isExact ∧ v.reread.reread = v.reread
  | .scalar value, h => ⟨Scalar.isExact_reread h, congrArg scalar value.reread_reread⟩
  | .object members, h =>
    ⟨(rereadMembers_reread members h).1, congrArg object (rereadMembers_reread members h).2⟩
  | .array elements, h =>
    ⟨(rereadElements_reread elements h).1, congrArg array (rereadElements_reread elements h).2⟩

theorem rereadMembers_reread : ∀ (members : List (String × Tree)), areExactMembers members →
    areExactMembers (rereadMembers members) ∧
      rereadMembers (rereadMembers members) = rereadMembers members
  | [], _ => ⟨rfl, rfl⟩
  | (name, value) :: rest, h => by
    rw [areExactMembers, Bool.and_eq_true] at h
    obtain ⟨hvalue, hsame⟩ := reread_reread value h.1
    obtain ⟨hrest, hsame'⟩ := rereadMembers_reread rest h.2
    rw [rereadMembers, areExactMembers, Bool.and_eq_true, rereadMembers, hsame, hsame']
    exact ⟨⟨hvalue, hrest⟩, rfl⟩

theorem rereadElements_reread : ∀ (elements : List Tree), areExact elements →
    areExact (rereadElements elements) ∧
      rereadElements (rereadElements elements) = rereadElements elements
  | [], _ => ⟨rfl, rfl⟩
  | value :: rest, h => by
    rw [areExact, Bool.and_eq_true] at h
    obtain ⟨hvalue, hsame⟩ := reread_reread value h.1
    obtain ⟨hrest, hsame'⟩ := rereadElements_reread rest h.2
    rw [rereadElements, areExact, Bool.and_eq_true, rereadElements, hsame, hsame']
    exact ⟨⟨hvalue, hrest⟩, rfl⟩
end

mutual
theorem unsignedZeros_of_ne : ∀ (v : Tree),
    (∀ value, .scalar value ∈ v.tokens → value.written ≠ "-0") → v.unsignedZeros = v
  | .scalar value, h => congrArg scalar (Scalar.unsignedZero_of_ne (h value (by simp [tokens])))
  | .object members, h => congrArg object (unsignedZerosMembers_of_ne members
      fun value hvalue => h value (by simp [tokens, hvalue]))
  | .array elements, h => congrArg array (unsignedZerosElements_of_ne elements
      fun value hvalue => h value (by simp [tokens, hvalue]))

theorem unsignedZerosMembers_of_ne : ∀ (members : List (String × Tree)),
    (∀ value, .scalar value ∈ memberTokens members → value.written ≠ "-0") →
      unsignedZerosMembers members = members
  | [], _ => rfl
  | (name, value) :: rest, h => by
    rw [unsignedZerosMembers,
      unsignedZeros_of_ne value fun s hs => h s (by simp [memberTokens, hs]),
      unsignedZerosMembers_of_ne rest fun s hs => h s (by simp [memberTokens, hs])]

theorem unsignedZerosElements_of_ne : ∀ (elements : List Tree),
    (∀ value, .scalar value ∈ elementTokens elements → value.written ≠ "-0") →
      unsignedZerosElements elements = elements
  | [], _ => rfl
  | value :: rest, h => by
    rw [unsignedZerosElements,
      unsignedZeros_of_ne value fun s hs => h s (by simp [elementTokens, hs]),
      unsignedZerosElements_of_ne rest fun s hs => h s (by simp [elementTokens, hs])]
end

end Tree

/-! ## Copies of copies -/

/-- The copy of the first value of a source. -/
def Feed.copy (feed : Feed) : Reader.Copy := (Reader.copy ⟨(Cursor.ofFeed feed).next.2, []⟩).1

theorem Feed.copy_behind {v : Tree} {later : Feed} (hprint : v.IsPrintable later.limit) :
    (later.behind v.tokens).copy = ⟨.ok (), v.text⟩ := by
  cases hv : v.shape? with
  | none =>
    cases v with
    | scalar value =>
      have hvalue : value.excess? later.limit = none :=
        hprint (.scalar value) (by simp [Tree.tokens])
      exact congrArg Prod.fst (Reader.copy_scalar rfl hvalue)
    | object members => cases hv
    | array elements => cases hv
  | some shape =>
    have hopen : ∀ d ∈ ([] : List Nat), 1 ≤ d := nofun
    have hcopy := Reader.copy_before hv hprint hopen []
    have hnext : (Cursor.ofFeed (later.behind v.tokens)).next.2 =
        .before (v.laterTokens ++ []) later v.tokens.head? := by
      rw [List.append_nil, Cursor.ofFeed_behind, Tree.tokens_of_shape hv]
      rfl
    rw [copy, hnext, hcopy]

theorem Feed.copy_ofTokens {v : Tree} {limit : DigitLimit} (hprint : v.IsPrintable limit) :
    (Feed.on limit (.ofTokens v.tokens)).copy = ⟨.ok (), v.text⟩ := by
  have hbehind : Feed.on limit (.ofTokens v.tokens) = (finished limit).behind v.tokens := by
    simp [ofTokens, on, behind, finished]
  rw [hbehind, copy_behind hprint]

/-- The scalar is written as `text` under the digit limit. -/
def Scalar.WrittenAs (limit : DigitLimit) (value : Scalar) (text : String) : Prop :=
  (Feed.on limit (.ofTokens [.scalar value])).copy = ⟨.ok (), text⟩

theorem Scalar.writtenAs_iff {limit : DigitLimit} {value : Scalar} {text : String} :
    value.WrittenAs limit text ↔ value.excess? limit = none ∧ value.written = text := by
  let c := (Cursor.ofFeed (.on limit (.ofTokens [.scalar value]))).next.2
  have hcurrent : (Reader.mk c []).current = some (.scalar value) := rfl
  rw [WrittenAs, Feed.copy]
  cases hvalue : value.excess? limit with
  | none =>
    rw [Reader.copy_scalar hcurrent hvalue]
    simp
  | some excess =>
    rw [Reader.copy_scalar_excess hcurrent hvalue]
    simp

theorem Scalar.exists_writtenAs_integer (limit : DigitLimit) (n : Int) :
    (∃ text, (number (.integer n)).WrittenAs limit text) ↔
      ∀ most ∈ limit, (decimalDigits n.natAbs).length ≤ most := by
  simp only [writtenAs_iff, exists_and_left, exists_eq', and_true, excess?, Number.excess?]
  cases limit <;> simp

theorem Scalar.writtenAs_decimal (limit : DigitLimit) (d : Decimal) :
    (number (.decimal d)).WrittenAs limit (number (.decimal d)).written :=
  writtenAs_iff.mpr ⟨rfl, rfl⟩

namespace NumberLexeme

theorem read?_text_decimal (d : Decimal) :
    ∃ l, read? (utf8Bytes (Scalar.number (.decimal d)).written) = some l ∧
      (d.exponent ≠ 0 → l.value? = some (.decimal d)) ∧
      (d.exponent = 0 → ∃ n, l.value? = some (.integer n) ∧
        (Number.integer n).value? = (Number.decimal d).value?) := by
  obtain ⟨l, hread, hvalue⟩ := read?_text (n := .decimal d) rfl
  have hsame := Number.value?_reread (.decimal d)
  refine ⟨l, hread, fun hd => ?_, fun hd => ?_⟩
  · rwa [Number.reread, if_neg hd] at hvalue
  · rw [Number.reread, if_pos hd] at hvalue hsame
    exact ⟨_, hvalue, hsame⟩

end NumberLexeme

namespace Feed

/-- Under every digit limit, an integer has a text iff it has no more digits than the limit, and
reads back as itself. Every decimal has a text; it reads back with the same sign, coefficient and
exponent unless the exponent is 0, and as the integer of equal value then. The text is one number to
the lexer and to every byte source. The copy of a document reads back and is copied as the same
text, except that `-0` becomes `0`; the second copy is copied unchanged. -/
theorem copy_is_normal_form (limit : DigitLimit) :
    (∀ n : Int, (∃ text, (Scalar.number (.integer n)).WrittenAs limit text) ↔
      ∀ most ∈ limit, (decimalDigits n.natAbs).length ≤ most) ∧
    (∀ (n : Int) text, (Scalar.number (.integer n)).WrittenAs limit text →
      ∃ l, NumberLexeme.read? (utf8Bytes text) = some l ∧ l.value? = some (.integer n)) ∧
    (∀ d : Decimal, ∃ text, (Scalar.number (.decimal d)).WrittenAs limit text ∧
      ∃ l, NumberLexeme.read? (utf8Bytes text) = some l ∧
        (d.exponent ≠ 0 → l.value? = some (.decimal d)) ∧
        (d.exponent = 0 → ∃ n, l.value? = some (.integer n) ∧
          (Number.integer n).value? = (Number.decimal d).value?)) ∧
    (∀ (n : Number) text, n.isExact → (Scalar.number n).WrittenAs limit text →
      ∀ source : Reads, source.Carries (utf8Bytes text) →
        ofReads source = .ofTokens [.scalar (.number n.reread)]) ∧
    ∀ (source : Reads) (v : Tree) (later : Feed), ofReads source = later.behind v.tokens →
      (v.IsPrintable limit → (on limit (ofReads source)).copy = ⟨.ok (), v.text⟩) ∧
      (v.reread.IsPrintable limit →
        (∀ again : Reads, again.Carries (utf8Bytes v.text) →
          (on limit (ofReads again)).copy = ⟨.ok (), v.unsignedZeros.text⟩) ∧
        ∀ again : Reads, again.Carries (utf8Bytes v.unsignedZeros.text) →
          (on limit (ofReads again)).copy = ⟨.ok (), v.unsignedZeros.text⟩) ∧
      ((∀ value, .scalar value ∈ v.tokens → value.written ≠ "-0") → v.unsignedZeros = v) := by
  refine ⟨Scalar.exists_writtenAs_integer limit, fun n text htext => ?_, fun d => ?_,
    fun n text hn htext source hsource => ?_, fun source v later hsource => ?_⟩
  · rw [← (Scalar.writtenAs_iff.mp htext).2]
    exact NumberLexeme.read?_text (n := .integer n) rfl
  · exact ⟨_, Scalar.writtenAs_decimal limit d, NumberLexeme.read?_text_decimal d⟩
  · rw [← (Scalar.writtenAs_iff.mp htext).2] at hsource
    exact ofReads_whole_text (v := .scalar (.number n)) hn hsource
  have hexact := Tree.isExact_of_ofReads hsource
  have htext := v.text_reread hexact
  obtain ⟨hexact', hsame⟩ := v.reread_reread hexact
  refine ⟨fun hprint => ?_, fun hprint => ⟨fun again hagain => ?_, fun again hagain => ?_⟩,
    v.unsignedZeros_of_ne⟩
  · rw [hsource, ← behind_on, copy_behind hprint]
  · rw [ofReads_whole_text hexact hagain, copy_ofTokens hprint, htext]
  · rw [← htext] at hagain
    rw [ofReads_whole_text hexact' hagain, hsame, copy_ofTokens hprint, htext]

theorem copy_of_zeros :
    let source : Reads := .ofBytes (utf8Bytes "[-0e0, -0e1, \"-0\"] ")
    let v : Tree := .array [.scalar (.number (.decimal ⟨true, 0, 0⟩)),
      .scalar (.number (.decimal ⟨true, 0, 1⟩)), .scalar (.string "-0")]
    let again : Reads := .ofBytes (utf8Bytes v.text)
    ofReads source = (finished .standard).behind v.tokens ∧ v.IsPrintable .standard ∧
      v.reread.IsPrintable .standard ∧ again.Carries (utf8Bytes v.text) ∧
      (on .standard (ofReads source)).copy = ⟨.ok (), "[-0,-0E+1,\"-0\"]"⟩ ∧
      (on .standard (ofReads again)).copy = ⟨.ok (), "[0,-0E+1,\"-0\"]"⟩ := by
  intro source v again
  have hsource : ofReads source = (finished .standard).behind v.tokens := by decide +kernel
  have hprint : v.IsPrintable .standard := by decide
  have hprint' : v.reread.IsPrintable .standard := by decide
  have htext : v.text = "[-0,-0E+1,\"-0\"]" := by decide +kernel
  have hunsigned : v.unsignedZeros.text = "[0,-0E+1,\"-0\"]" := by decide +kernel
  have hagain : again.Carries (utf8Bytes v.text) := ⟨List.append_nil _, by decide, rfl⟩
  obtain ⟨-, -, -, -, hcopies⟩ := copy_is_normal_form .standard
  obtain ⟨hfirst, hlater, -⟩ := hcopies source v (finished .standard) hsource
  exact ⟨hsource, hprint, hprint', hagain, htext ▸ hfirst hprint,
    hunsigned ▸ (hlater hprint').1 again hagain⟩

theorem copy_of_tooLong :
    (on .standard (.ofTokens [.tooLong])).copy =
      ⟨.error (.tooManyDigits ⟨digitLimit, none⟩), ""⟩ := by
  have hcurrent : (Reader.mk (Cursor.ofFeed (.on .standard (.ofTokens [.tooLong]))).next.2
      []).current = some .tooLong := rfl
  rw [copy, Reader.copy_scalar_excess hcurrent Token.excess_tooLong]

end Feed

end JsonCleave
