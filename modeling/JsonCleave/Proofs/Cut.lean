import JsonCleave.Proofs.OnePass
import JsonCleave.Proofs.Reread
/-!
# Splits of cut input

A prefix of the bytes completes a prefix of the tokens. The end of the input completes only scalars
and names, which the array policy ignores, so the items of the prefix are the elements whose closing
bracket is in it.
-/

namespace JsonCleave

namespace Scanner

/-! ## The byte of a closing bracket -/

theorem mem_tokens_finishSign {s : Scanner} {sign : Sign} {t : Token}
    (h : t ∈ (s.finishSign sign).tokens) :
    (s.finishSign sign).tokens = [t] ∧ ∃ g, s.grammar.accept? sign = some (some t, g) := by
  unfold finishSign at h ⊢
  split at h
  · rename_i token g haccept
    rw [haccept]
    dsimp only at h ⊢
    cases token with
    | none => cases h
    | some t' =>
      obtain rfl := List.mem_singleton.mp h
      exact ⟨rfl, g, rfl⟩
  · cases h

theorem accept?_scalar_isLeaf {g g' : Grammar} {value : Scalar} {t : Token}
    (h : g.accept? (.scalar value) = some (some t, g')) : t.IsLeaf := by
  simp only [Grammar.accept?] at h
  split at h
  · obtain ⟨rfl, -⟩ := by simpa using h
    exact ⟨rfl, rfl⟩
  · split at h
    · obtain ⟨-, rfl, -⟩ := by simpa using h
      exact ⟨rfl, rfl⟩
    · cases h

theorem accept?_eq_closing {g g' : Grammar} {sign : Sign} {shape : Shape}
    (h : g.accept? sign = some (some (.closing shape), g')) : sign = .closing shape := by
  cases sign with
  | opening shape' => simp [Grammar.accept?] at h
  | closing shape' =>
    simp only [Grammar.accept?, Option.ite_none_right_eq_some, Option.some.injEq, Prod.mk.injEq,
      Token.closing.injEq] at h
    rw [h.2.1]
  | comma =>
    simp only [Grammar.accept?] at h
    split at h <;> simp at h
  | colon => simp [Grammar.accept?] at h
  | scalar value => cases (accept?_scalar_isLeaf h).2

theorem closing_mem_finishSign {s : Scanner} {sign : Sign} {shape : Shape}
    (h : .closing shape ∈ (s.finishSign sign).tokens) :
    sign = .closing shape ∧ (s.finishSign sign).tokens = [.closing shape] := by
  obtain ⟨htokens, g, haccept⟩ := mem_tokens_finishSign h
  exact ⟨accept?_eq_closing haccept, htokens⟩

theorem stepBetween_closerByte (s : Scanner) (shape : Shape) :
    s.stepBetween (closerByte shape) = s.finishSign (.closing shape) := by
  cases shape <;> rfl

theorem closing_mem_stepBetween {s : Scanner} {b : UInt8} {shape : Shape}
    (h : .closing shape ∈ (s.stepBetween b).tokens) :
    b = closerByte shape ∧ (s.stepBetween b).tokens = [.closing shape] := by
  by_cases hcloser : ∃ shape', b = closerByte shape'
  · obtain ⟨shape', rfl⟩ := hcloser
    rw [stepBetween_closerByte] at h ⊢
    obtain ⟨hsign, htokens⟩ := closing_mem_finishSign h
    exact ⟨congrArg closerByte (Sign.closing.inj hsign), htokens⟩
  · -- every other byte is silent, begins a sign, or is a sign that closes nothing
    exfalso
    have harray : b ≠ ']'.toUInt8 := fun hb => hcloser ⟨.array, hb⟩
    have hobject : b ≠ '\x7d'.toUInt8 := fun hb => hcloser ⟨.object, hb⟩
    rw [stepBetween, if_neg harray, if_neg hobject] at h
    repeat' split at h
    all_goals first
      | cases h
      | obtain ⟨hsign, -⟩ := closing_mem_finishSign h
        cases hsign

theorem mem_finishSign_scalar {s : Scanner} {value : Scalar} {t : Token}
    (h : t ∈ (s.finishSign (.scalar value)).tokens) : t.IsLeaf := by
  obtain ⟨-, g, haccept⟩ := mem_tokens_finishSign h
  exact accept?_scalar_isLeaf haccept

theorem mem_stepLiteral {s : Scanner} {due : List UInt8} {value : Scalar} {b : UInt8} {t : Token}
    (h : t ∈ (s.stepLiteral due value b).tokens) : t.IsLeaf := by
  unfold stepLiteral at h
  repeat' split at h
  all_goals first
    | cases h
    | exact mem_finishSign_scalar h

theorem mem_stepString {s : Scanner} {l : StringLexeme} {b : UInt8} {t : Token}
    (h : t ∈ (s.stepString l b).tokens) : t.IsLeaf := by
  unfold stepString at h
  split at h
  · cases h
  · exact mem_finishSign_scalar h
  · cases h

theorem tokens_stepNumber (s : Scanner) (l : NumberLexeme) (b : UInt8) :
    ∃ us vs, (s.stepNumber l b).tokens = us ++ vs ∧
      (∀ t ∈ us, t.IsLeaf) ∧ (vs = [] ∨ ∃ s' : Scanner, vs = (s'.stepBetween b).tokens) := by
  unfold stepNumber
  split
  · exact ⟨[], [], rfl, by simp, .inl rfl⟩
  · split
    · exact ⟨[], [], rfl, by simp, .inl rfl⟩
    · rename_i n _
      unfold Scan.followedBy
      split
      · exact ⟨_, [], (List.append_nil _).symm, fun t => mem_finishSign_scalar, .inl rfl⟩
      · rename_i s' _
        exact ⟨_, _, rfl, fun t => mem_finishSign_scalar, .inr ⟨s', rfl⟩⟩

theorem closing_mem_step {s : Scanner} {b : UInt8} {shape : Shape}
    (h : .closing shape ∈ (s.step b).tokens) :
    b = closerByte shape ∧ ∃ us, (s.step b).tokens = us ++ [.closing shape] ∧
      ∀ t ∈ us, t.isClosing = false := by
  unfold step at h ⊢
  split at h
  · obtain ⟨hb, htokens⟩ := closing_mem_stepBetween h
    exact ⟨hb, [], htokens, by simp⟩
  · exact absurd (mem_stepLiteral h).2 (by simp [Token.isClosing])
  · rename_i l _
    obtain ⟨us, vs, htokens, hus, hvs⟩ := tokens_stepNumber s l b
    rw [htokens, List.mem_append] at h
    have hmem : .closing shape ∈ vs :=
      h.resolve_left fun hmem => absurd (hus _ hmem).2 (by simp [Token.isClosing])
    rcases hvs with rfl | ⟨s', rfl⟩
    · cases hmem
    · obtain ⟨hb, hclosing⟩ := closing_mem_stepBetween hmem
      exact ⟨hb, us, by rw [htokens, hclosing], fun t ht => (hus t ht).2⟩
  · exact absurd (mem_stepString h).2 (by simp [Token.isClosing])

theorem mem_finish {s : Scanner} {t : Token} (h : t ∈ s.finish.tokens) : t.IsLeaf := by
  have hstep : t ∈ (s.step endMark).tokens := by
    unfold finish Scan.followedBy at h
    split at h
    · exact h
    · dsimp only at h
      split at h <;> simpa [Scan.silent, Scan.refused] using h
  unfold step at hstep
  split at hstep
  · cases hstep
  · exact mem_stepLiteral hstep
  · rename_i l _
    obtain ⟨us, vs, htokens, hus, hvs⟩ := tokens_stepNumber s l endMark
    rw [htokens, List.mem_append] at hstep
    refine hus t (hstep.resolve_right fun hmem => ?_)
    rcases hvs with rfl | ⟨s', rfl⟩ <;> cases hmem
  · exact mem_stepString hstep

end Scanner

/-! ## Tokens and the bytes that complete them -/

/-- The tokens completed by the bytes. -/
def tokensIn (bytes : List UInt8) : List Token := (Scanner.start.scan bytes).tokens

theorem tokensIn_concat (bytes : List UInt8) (b : UInt8) :
    tokensIn (bytes ++ [b]) = tokensIn bytes ∨
      ∃ s : Scanner, tokensIn (bytes ++ [b]) = tokensIn bytes ++ (s.step b).tokens := by
  rw [tokensIn, tokensIn, Scanner.scan_append]
  unfold Scan.followedBy
  split
  · exact .inl rfl
  · rename_i s _
    refine .inr ⟨s, ?_⟩
    dsimp only
    rw [Scanner.scan_cons, Scan.followedBy]
    split
    · rfl
    · exact congrArg _ (List.append_nil _)

theorem tokensIn_mono {as bytes : List UInt8} (h : as <+: bytes) :
    tokensIn as <+: tokensIn bytes := by
  obtain ⟨bs, rfl⟩ := h
  rw [tokensIn, tokensIn, Scanner.scan_append, Scan.followedBy]
  split
  · exact List.prefix_rfl
  · exact List.prefix_append _ _

/-- Position of the byte that completes the first `stop` tokens. -/
def placeOf? (bytes : List UInt8) (stop : Nat) : Option Nat :=
  (List.range bytes.length).find? fun n => stop ≤ (tokensIn (bytes.take (n + 1))).length

theorem placeOf?_eq_some {bytes : List UInt8} {stop place : Nat} :
    placeOf? bytes stop = some place ↔ place < bytes.length ∧
      stop ≤ (tokensIn (bytes.take (place + 1))).length ∧
      ∀ n < place, (tokensIn (bytes.take (n + 1))).length < stop := by
  rw [placeOf?, List.find?_range_eq_some]
  simp only [decide_eq_true_eq, List.mem_range, Bool.not_eq_true', decide_eq_false_iff_not,
    Nat.not_le]
  exact and_left_comm

theorem exists_placeOf? {as : List UInt8} (bs : List UInt8) {stop : Nat} (hstop : 0 < stop)
    (hread : stop ≤ (tokensIn as).length) :
    ∃ place, placeOf? (as ++ bs) stop = some place ∧ place < as.length := by
  have hne : as ≠ [] := by
    rintro rfl
    have hnone : (tokensIn []).length = 0 := rfl
    omega
  have hpos := List.length_pos_iff.mpr hne
  have hlast : stop ≤ (tokensIn ((as ++ bs).take (as.length - 1 + 1))).length := by
    rwa [Nat.sub_add_cancel hpos, List.take_left]
  cases hplace : placeOf? (as ++ bs) stop with
  | none =>
    rw [placeOf?, List.find?_range_eq_none] at hplace
    have hunread := hplace (as.length - 1) (by rw [List.length_append]; omega)
    simp only [Bool.not_eq_true', decide_eq_false_iff_not] at hunread
    exact absurd hlast hunread
  | some place =>
    refine ⟨place, rfl, Nat.lt_of_not_le fun hle => ?_⟩
    have hunread := (placeOf?_eq_some.mp hplace).2.2 (as.length - 1) (by omega)
    omega

theorem placeOf?_append {as : List UInt8} (bs : List UInt8) {stop : Nat} (hstop : 0 < stop) :
    (placeOf? (as ++ bs) stop).any (· < as.length) = decide (stop ≤ (tokensIn as).length) := by
  rw [Bool.eq_iff_iff, Option.any_eq_true, decide_eq_true_iff]
  constructor
  · rintro ⟨place, hplace, hlt⟩
    have hlt : place < as.length := by simpa using hlt
    obtain ⟨-, hread, -⟩ := placeOf?_eq_some.mp hplace
    rw [List.take_append_of_le_length hlt] at hread
    exact Nat.le_trans hread (tokensIn_mono (List.take_prefix _ as)).length_le
  · intro hread
    obtain ⟨place, hplace, hlt⟩ := exists_placeOf? bs hstop hread
    exact ⟨place, hplace, decide_eq_true hlt⟩

theorem eq_nil_of_closing_last {front ts us : List Token} {shape shape' : Shape}
    (hfront : ∀ t ∈ front, t.isClosing = false)
    (h : ts ++ .closing shape :: us = front ++ [.closing shape']) : us = [] := by
  rcases List.eq_nil_or_concat us with hnil | ⟨vs, t, rfl⟩
  · exact hnil
  · exfalso
    rw [List.concat_eq_append, ← List.cons_append, ← List.append_assoc] at h
    obtain ⟨rfl, -⟩ := List.append_inj' h rfl
    have hclosing := hfront (.closing shape) (by simp)
    cases hclosing

theorem exists_placeOf?_closing {bytes : List UInt8} {ts us : List Token} {shape : Shape}
    (h : tokensIn bytes = ts ++ .closing shape :: us) :
    ∃ place, placeOf? bytes (ts.length + 1) = some place ∧
      bytes[place]? = some (Scanner.closerByte shape) ∧
      tokensIn (bytes.take (place + 1)) = ts ++ [.closing shape] := by
  have hlength : ts.length + 1 ≤ (tokensIn bytes).length := by simp [h]
  obtain ⟨place, hplace, hlt⟩ := exists_placeOf? [] (Nat.succ_pos _) hlength
  rw [List.append_nil] at hplace
  obtain ⟨-, hread, hunread⟩ := placeOf?_eq_some.mp hplace
  have hbefore : (tokensIn (bytes.take place)).length ≤ ts.length := by
    cases place with
    | zero => exact Nat.zero_le _
    | succ n => exact Nat.le_of_lt_succ (hunread n (Nat.lt_succ_self n))
  have hbyte := tokensIn_concat (bytes.take place) bytes[place]
  rw [List.take_concat_get' bytes place hlt] at hbyte
  have hall := tokensIn_mono (List.take_prefix (place + 1) bytes)
  rw [h] at hall
  refine ⟨place, hplace, ?_⟩
  rw [List.getElem?_eq_getElem hlt, Option.some.injEq]
  generalize tokensIn (bytes.take (place + 1)) = read at hread hbyte hall ⊢
  -- the byte completes what is missing of the tokens up to the bracket, and perhaps more
  have hbracket : ts ++ [.closing shape] <+: ts ++ .closing shape :: us := by simp
  obtain ⟨later, rfl⟩ := List.prefix_of_prefix_length_le hbracket hall (by simpa using hread)
  rcases hbyte with hsame | ⟨s, hstep⟩
  · rw [← hsame] at hbefore
    simp at hbefore
  · have hfirst : tokensIn (bytes.take place) <+: ts ++ [.closing shape] ++ later :=
      ⟨_, hstep.symm⟩
    rw [List.append_assoc] at hfirst
    obtain ⟨missing, rfl⟩ :=
      List.prefix_of_prefix_length_le hfirst (List.prefix_append _ _) hbefore
    rw [List.append_assoc, List.append_assoc, List.append_cancel_left_eq] at hstep
    have hmem : .closing shape ∈ (s.step bytes[place]).tokens := by simp [← hstep]
    obtain ⟨hb, front, htokens, hfront⟩ := Scanner.closing_mem_step hmem
    obtain rfl := eq_nil_of_closing_last hfront (hstep.trans htokens)
    exact ⟨hb, List.append_nil _⟩

/-! ## Sources -/

namespace Feed

theorem snd_ofChunks_none (chunks : List (List UInt8)) : (ofChunks none chunks).2 = none := by
  induction chunks with
  | nil => rfl
  | cons chunk rest ih => exact ih

theorem ofChunks_of_refused {chunks : List (List UInt8)} (hchunks : ∀ chunk ∈ chunks, chunk ≠ [])
    {s : Scanner} {ts : List Token} (hscan : s.scan chunks.flatten = ⟨ts, none⟩) :
    ∃ more, ofChunks (some s) chunks = (ts.map .token ++ .halt malformed :: more, none) := by
  induction chunks generalizing s ts with
  | nil => cases hscan
  | cons chunk rest ih =>
    have hchunk : chunk.isEmpty = false := by
      rw [List.isEmpty_eq_false_iff]
      exact hchunks chunk (by simp)
    rw [List.flatten_cons, Scanner.scan_append, Scan.followedBy] at hscan
    rw [ofChunks, ofChunk, hchunk, if_neg (by simp)]
    cases hfirst : s.scan chunk with
    | mk us next =>
      cases next with
      | none =>
        simp only [hfirst, Scan.mk.injEq] at hscan
        refine ⟨(ofChunks none rest).1, ?_⟩
        simp [ofScan, hscan.1, snd_ofChunks_none]
      | some between =>
        simp only [hfirst, Scan.mk.injEq] at hscan
        have hrest : between.scan rest.flatten = ⟨(between.scan rest.flatten).tokens, none⟩ := by
          rw [← hscan.2]
        obtain ⟨more, hmore⟩ := ih (fun c hc => hchunks c (by simp [hc])) hrest
        refine ⟨more, ?_⟩
        simp only
        rw [hmore, ← hscan.1]
        simp [ofScan]

/-- The feed begins with its ending, good or not. -/
def Ends (later : Feed) : Prop := later.Halts .complete ∨ ∃ origin, later.Fails origin

theorem ofChunk_nil_cases (s : Scanner) :
    ∃ (us : List Token) (more : List Delivery), (ofChunk (some s) []).1 = us.map .token ++ more ∧
      (∀ t ∈ us, t.IsLeaf) ∧
      (trimmed more (if (ofChunk (some s) []).2.isNone then malformed else .complete)).Ends := by
  simp only [ofChunk, List.isEmpty_nil, ↓reduceIte]
  cases hnext : s.finish.next with
  | none =>
    refine ⟨s.finish.tokens, [.halt malformed], ?_, fun t => Scanner.mem_finish,
      .inr ⟨.malformed none, trimmed_halts malformed _ []⟩⟩
    simp [ofScan, hnext]
  | some s' =>
    by_cases hnone : s.finish.tokens = []
    · refine ⟨[], [.halt .complete], ?_, by simp, .inl (trimmed_halts .complete _ [])⟩
      simp [hnone]
    · refine ⟨s.finish.tokens, [], ?_, fun t => Scanner.mem_finish, .inl (.inr ⟨rfl, rfl⟩)⟩
      simp [ofScan, hnext, hnone]

/-- A byte source delivers the tokens its bytes complete, then at most scalars and names, and then
ends. -/
theorem ofReads_of_carries {r : Reads} {bytes : List UInt8} (hr : r.Carries bytes) :
    ∃ (us : List Token) (later : Feed), ofReads r = later.behind (tokensIn bytes ++ us) ∧
      (∀ t ∈ us, t.IsLeaf) ∧ later.Ends := by
  rw [ofReads, hr.failure, ← hr.flatten_chunks, tokensIn]
  cases hscan : Scanner.start.scan r.chunks.flatten with
  | mk ts next =>
    cases next with
    | none =>
      obtain ⟨more, hchunks⟩ := ofChunks_of_refused hr.ne_nil hscan
      rw [hchunks]
      refine ⟨[], trimmed (.halt malformed :: (more ++ [.halt malformed])) malformed, ?_, by simp,
        .inr ⟨.malformed none, trimmed_halts malformed _ _⟩⟩
      rw [List.append_nil, ← trimmed_behind]
      simp [ofChunk]
    | some s =>
      obtain ⟨us, more, hlast, hus, hends⟩ := ofChunk_nil_cases s
      rw [ofChunks_of_scan hr.ne_nil hscan]
      refine ⟨us, _, ?_, hus, hends⟩
      rw [← trimmed_behind, List.map_append, List.append_assoc, ← hlast]

end Feed

/-! ## Payloads -/

namespace Policy

/-- The items of a split depend only on the tokens in front of the ending. -/
theorem items_of_reaches {ts : List Token} {payloads : List Payload} {reach : Reach} {later : Feed}
    (hts : Reaches later.limit ts [] 0 payloads reach) (hlater : later.Ends) (count : Nat) :
    (Walk.pullAll array {} ⟨.ofFeed (later.behind ts), 0, count⟩).items =
      payloads.map .handle := by
  rcases hlater with hcomplete | ⟨origin, hfails⟩
  · obtain ⟨keys, cursor, state, hall⟩ := array_quiet_pullAll_ends hts hcomplete count
    exact congrArg Walk.Harvest.items hall
  · obtain ⟨keys, cursor, state, hall⟩ := array_quiet_pullAll_fails hts hfails count
    exact congrArg Walk.Harvest.items hall

theorem payloads_eq_texts {limit : DigitLimit} {ts : List Token} {payloads : List Payload}
    {reach : Reach} (hts : Reaches limit ts [] 0 payloads reach) :
    payloads = (Stance.outside.texts limit ts).map (⟨·, .json⟩) := by
  have hends : (Feed.finished limit).Ends := .inl (.inr ⟨rfl, rfl⟩)
  have houtside : Stance.outside.reach = .between := rfl
  have hstance : Reaches (Feed.finished limit).limit ts [] 0 _ _ := reaches_stance houtside ts []
  have hown : Reaches (Feed.finished limit).limit ts [] 0 payloads reach := hts
  have hitems := items_of_reaches hstance hends 0
  rw [items_of_reaches hown hends] at hitems
  exact List.map_injective_iff.mpr (fun _ _ h => by simpa using h) hitems

theorem items_of_carries (limit : DigitLimit) {source : Reads} {bytes : List UInt8}
    (hsource : source.Carries bytes) (count : Nat) :
    (Walk.pullAll array {} ⟨.ofFeed (.on limit (.ofReads source)), 0, count⟩).items =
      (Stance.outside.texts limit (tokensIn bytes)).map fun text => .handle ⟨text, .json⟩ := by
  obtain ⟨us, later, hfeed, hus, hends⟩ := Feed.ofReads_of_carries hsource
  have hown : (later.on limit).Ends := hends
  have houtside : Stance.outside.reach = .between := rfl
  have hreaches : Reaches (later.on limit).limit (tokensIn bytes ++ us) [] 0 _ _ :=
    reaches_stance houtside _ []
  have hstart : Stance.outside.IsSound := trivial
  have hsound := Stance.isSound_after limit hstart (tokensIn bytes)
  rw [hfeed, ← Feed.behind_on, items_of_reaches hreaches hown, Feed.limit_on, Stance.texts_append,
    Stance.texts_leaves hsound hus, List.append_nil, List.map_map]
  rfl

end Policy

/-! ## Documents -/

namespace Feed

theorem Ends.cases {later : Feed} (h : later.Ends) :
    later.deliveries = [] ∨ ∃ ending rest, later.deliveries = .halt ending :: rest := by
  rcases h with (hhead | ⟨hnil, -⟩) | ⟨origin, hhead | ⟨hnil, -⟩⟩
  · obtain ⟨rest, hrest⟩ := List.head?_eq_some_iff.mp hhead
    exact .inr ⟨_, rest, hrest⟩
  · exact .inl hnil
  · obtain ⟨rest, hrest⟩ := List.head?_eq_some_iff.mp hhead
    exact .inr ⟨_, rest, hrest⟩
  · exact .inl hnil

theorem eq_of_behind_eq_ofTokens {later : Feed} {ts us : List Token} (hlater : later.Ends)
    (h : later.behind ts = .ofTokens us) : ts = us := by
  have hdeliveries : ts.map Delivery.token ++ later.deliveries = us.map .token :=
    congrArg Feed.deliveries h
  rcases hlater.cases with hnil | ⟨ending, rest, hhalt⟩
  · rw [hnil, List.append_nil] at hdeliveries
    exact List.map_injective_iff.mpr (fun _ _ h => by simpa using h) hdeliveries
  · have hmem : .halt ending ∈ us.map Delivery.token := by
      rw [← hdeliveries, hhalt]
      simp
    simp at hmem

end Feed

namespace Tree

theorem exists_tokens_closing {v : Tree} {shape : Shape} (hv : v.shape? = some shape) :
    ∃ us, v.tokens = us ++ [.closing shape] := by
  cases v with
  | scalar value => cases hv
  | object members => cases hv; exact ⟨.opening .object :: memberTokens members, rfl⟩
  | array elements => cases hv; exact ⟨.opening .array :: elementTokens elements, rfl⟩

mutual
theorem isContainer_of_mem_selection : ∀ (v : Tree) {w : Tree}, w ∈ v.selection →
    w.isContainer = true
  | .scalar _, _, hw => by simp [selection] at hw
  | .object members, _, hw => isContainer_of_mem_memberSelection members hw
  | .array _, _, hw => (List.mem_filter.mp hw).2

theorem isContainer_of_mem_memberSelection : ∀ (members : List (String × Tree)) {w : Tree},
    w ∈ memberSelection members → w.isContainer = true
  | [], _, hw => by simp [memberSelection] at hw
  | (_, value) :: rest, _, hw =>
    (List.mem_append.mp hw).elim (isContainer_of_mem_selection value)
      (isContainer_of_mem_memberSelection rest)
end

theorem exists_closing_of_mem_spans {v : Tree} {span : Span} (hspan : span ∈ v.spans 0) :
    ∃ shape us vs, span.container.shape? = some shape ∧ v.tokens = us ++ .closing shape :: vs ∧
      us.length + 1 = span.stop := by
  obtain ⟨shape, hshape⟩ := Option.isSome_iff_exists.mp
    (isContainer_of_mem_selection v (container_mem_selection hspan))
  obtain ⟨inside, hinside⟩ := exists_tokens_closing hshape
  obtain ⟨us, vs, htokens, hstart⟩ := liesIn_of_mem_spans v hspan
  refine ⟨shape, us ++ inside, vs, hshape, by rw [htokens, hinside]; simp, ?_⟩
  rw [Span.stop, hinside, hstart, Nat.zero_add, List.length_append, List.length_append,
    List.length_singleton, Nat.add_assoc]

end Tree

namespace Policy

theorem exists_place_of_mem_spans {source : Reads} {bytes : List UInt8}
    (hsource : source.Carries bytes) {v : Tree} (hv : Feed.ofReads source = .ofTokens v.tokens)
    {span : Span} (hspan : span ∈ v.spans 0) :
    ∃ shape place, span.container.shape? = some shape ∧
      placeOf? bytes span.stop = some place ∧
      bytes[place]? = some (Scanner.closerByte shape) ∧
      tokensIn (bytes.take (place + 1)) = v.tokens.take span.stop := by
  obtain ⟨more, later, hfeed, hmore, hends⟩ := Feed.ofReads_of_carries hsource
  have htokens := Feed.eq_of_behind_eq_ofTokens hends (hfeed.symm.trans hv)
  obtain ⟨shape, us, vs, hshape, hclosing, hstop⟩ := Tree.exists_closing_of_mem_spans hspan
  -- the bracket is none of the tokens that the end of the input adds
  obtain ⟨us', hread⟩ : ∃ us', tokensIn bytes = us ++ .closing shape :: us' := by
    rw [hclosing] at htokens
    rcases cut_append htokens with ⟨ts, rfl, hadded⟩ | ⟨us', hne, hread⟩
    · have hbracket := (hmore (.closing shape) (by simp [hadded])).2
      cases hbracket
    · obtain ⟨t, us', rfl⟩ := List.exists_cons_of_ne_nil hne
      rw [hread, List.append_assoc, List.append_cancel_left_eq] at htokens
      obtain ⟨rfl, -⟩ := List.cons.inj htokens
      exact ⟨us', hread⟩
  obtain ⟨place, hplace, hbyte, htake⟩ := exists_placeOf?_closing hread
  refine ⟨shape, place, hshape, hstop ▸ hplace, hbyte, ?_⟩
  rw [htake, hclosing, ← hstop, List.take_length_add_append]
  rfl

/-- Spans that end in `as` are those whose tokens are complete in `as`. -/
theorem filter_placeOf? (as bs : List UInt8) (spans : List Span) :
    (spans.filter fun span => (placeOf? (as ++ bs) span.stop).any (· < as.length)) =
      spans.filter (Span.isClosedAt (tokensIn as).length) :=
  List.filter_congr fun span _ => placeOf?_append bs (Nat.zero_lt_of_lt span.start_lt_stop)

end Policy

end JsonCleave
