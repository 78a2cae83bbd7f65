import JsonCleave.Proofs.Selection
/-!
# Positions of a selection

The start and stop positions of the selected containers in the tokens of a document tell, for every
prefix of the tokens, which containers it closes and whether it ends inside one.
-/

namespace JsonCleave

/-- A container and the number of tokens in front of it. -/
structure Span where
  start : Nat
  container : Tree

namespace Span

def stop (span : Span) : Nat := span.start + span.container.tokens.length

theorem start_lt_stop (span : Span) : span.start < span.stop :=
  Nat.lt_add_of_pos_right span.container.length_tokens_pos

def isClosedAt (read : Nat) (span : Span) : Bool := span.stop ≤ read

def isOpenAt (read : Nat) (span : Span) : Bool := span.start < read && read < span.stop

def payloads (read : Nat) (spans : List Span) : List Payload :=
  (spans.filter (isClosedAt read)).map fun span => span.container.payload

def areOpen (read : Nat) (spans : List Span) : Bool := spans.any (isOpenAt read)

theorem payloads_append (read : Nat) (spans spans' : List Span) :
    payloads read (spans ++ spans') = payloads read spans ++ payloads read spans' := by
  simp [payloads]

theorem areOpen_append (read : Nat) (spans spans' : List Span) :
    areOpen read (spans ++ spans') = (areOpen read spans || areOpen read spans') := by
  simp [areOpen]

theorem payloads_of_stop_le {read : Nat} {spans : List Span}
    (hspans : ∀ span ∈ spans, span.stop ≤ read) :
    payloads read spans = (spans.map container).map Tree.payload := by
  rw [payloads, List.filter_eq_self.mpr (by simpa [isClosedAt] using hspans), List.map_map]
  rfl

theorem payloads_of_lt_stop {read : Nat} {spans : List Span}
    (hspans : ∀ span ∈ spans, read < span.stop) : payloads read spans = [] := by
  rw [payloads, List.map_eq_nil_iff, List.filter_eq_nil_iff]
  intro span hspan
  have hlt := hspans span hspan
  simp only [isClosedAt, decide_eq_true_eq]
  omega

theorem payloads_of_le_start {read : Nat} {spans : List Span}
    (hspans : ∀ span ∈ spans, read ≤ span.start) : payloads read spans = [] :=
  payloads_of_lt_stop fun span hspan => Nat.lt_of_le_of_lt (hspans span hspan) span.start_lt_stop

theorem areOpen_of_stop_le {read : Nat} {spans : List Span}
    (hspans : ∀ span ∈ spans, span.stop ≤ read) : areOpen read spans = false := by
  rw [areOpen, List.any_eq_false]
  intro span hspan
  have hle := hspans span hspan
  simp only [isOpenAt, Bool.and_eq_true, decide_eq_true_eq]
  omega

theorem areOpen_of_le_start {read : Nat} {spans : List Span}
    (hspans : ∀ span ∈ spans, read ≤ span.start) : areOpen read spans = false := by
  rw [areOpen, List.any_eq_false]
  intro span hspan
  have hle := hspans span hspan
  simp only [isOpenAt, Bool.and_eq_true, decide_eq_true_eq]
  omega

def LiesIn (span : Span) (ts : List Token) (start : Nat) : Prop :=
  ∃ us vs, ts = us ++ (span.container.tokens ++ vs) ∧ span.start = start + us.length

theorem LiesIn.le_start {span : Span} {ts : List Token} {start : Nat}
    (h : span.LiesIn ts start) : start ≤ span.start := by
  obtain ⟨us, vs, -, hstart⟩ := h
  omega

theorem LiesIn.stop_le {span : Span} {ts : List Token} {start : Nat}
    (h : span.LiesIn ts start) : span.stop ≤ start + ts.length := by
  obtain ⟨us, vs, rfl, hstart⟩ := h
  simp only [stop, List.length_append]
  omega

theorem LiesIn.append_left {span : Span} {ts : List Token} {start : Nat} (us : List Token)
    (h : span.LiesIn ts (start + us.length)) : span.LiesIn (us ++ ts) start := by
  obtain ⟨us', vs, rfl, hstart⟩ := h
  refine ⟨us ++ us', vs, by simp, ?_⟩
  rw [hstart, List.length_append, Nat.add_assoc]

theorem LiesIn.append_right {span : Span} {ts : List Token} {start : Nat}
    (h : span.LiesIn ts start) (us : List Token) : span.LiesIn (ts ++ us) start := by
  obtain ⟨us', vs, rfl, hstart⟩ := h
  exact ⟨us', vs ++ us, by simp, hstart⟩

theorem LiesIn.isPrintable {limit : DigitLimit} {span : Span} {ts : List Token} {start : Nat}
    (h : span.LiesIn ts start) (hts : ∀ t ∈ ts, t.IsPrintable limit) :
    span.container.IsPrintable limit := by
  obtain ⟨us, vs, rfl, -⟩ := h
  exact fun t ht => hts t (by simp [ht])

end Span

namespace Tree

/-! ## The spans of a selection -/

def elementSpans : List Tree → Nat → List Span
  | [], _ => []
  | v :: rest, start =>
    let later := elementSpans rest (start + v.tokens.length)
    if v.isContainer then ⟨start, v⟩ :: later else later

theorem elementSpans_cons (v : Tree) (rest : List Tree) (start : Nat) :
    elementSpans (v :: rest) start =
      elementSpans [v] start ++ elementSpans rest (start + v.tokens.length) := by
  cases hv : v.isContainer <;> simp [elementSpans, hv]

mutual
/-- The selection of a value with the positions of its containers. -/
def spans : Tree → Nat → List Span
  | .scalar _, _ => []
  | .object members, start => memberSpans members (start + 1)
  | .array elements, start => elementSpans elements (start + 1)

def memberSpans : List (String × Tree) → Nat → List Span
  | [], _ => []
  | (_, value) :: rest, start =>
    spans value (start + 1) ++ memberSpans rest (start + 1 + value.tokens.length)
end

theorem map_container_elementSpans (elements : List Tree) (start : Nat) :
    (elementSpans elements start).map Span.container = elements.filter isContainer := by
  induction elements generalizing start with
  | nil => rfl
  | cons v rest ih => cases hv : v.isContainer <;> simp [elementSpans, hv, ih]

mutual
theorem map_container_spans : ∀ (v : Tree) (start : Nat),
    (v.spans start).map Span.container = v.selection
  | .scalar _, _ => rfl
  | .object members, start => map_container_memberSpans members (start + 1)
  | .array elements, start => map_container_elementSpans elements (start + 1)

theorem map_container_memberSpans : ∀ (members : List (String × Tree)) (start : Nat),
    (memberSpans members start).map Span.container = memberSelection members
  | [], _ => rfl
  | (_, value) :: rest, start => by
    rw [memberSpans, List.map_append, map_container_spans value, map_container_memberSpans rest]
    rfl
end

theorem container_mem_selection {v : Tree} {start : Nat} {span : Span}
    (hspan : span ∈ v.spans start) : span.container ∈ v.selection := by
  rw [← v.map_container_spans start]
  exact List.mem_map_of_mem hspan

theorem liesIn_of_mem_elementSpans {elements : List Tree} {start : Nat} {span : Span}
    (hspan : span ∈ elementSpans elements start) :
    span.LiesIn (elementTokens elements) start := by
  induction elements generalizing start with
  | nil => simp [elementSpans] at hspan
  | cons v rest ih =>
    have hlater (h : span ∈ elementSpans rest (start + v.tokens.length)) :
        span.LiesIn (v.tokens ++ elementTokens rest) start := (ih h).append_left v.tokens
    cases hv : v.isContainer with
    | false => exact hlater (by simpa [elementSpans, hv] using hspan)
    | true =>
      have hmem : span = ⟨start, v⟩ ∨ span ∈ elementSpans rest (start + v.tokens.length) := by
        simpa [elementSpans, hv] using hspan
      rcases hmem with rfl | h
      · exact ⟨[], elementTokens rest, rfl, rfl⟩
      · exact hlater h

mutual
theorem liesIn_of_mem_spans : ∀ (v : Tree) {start : Nat} {span : Span},
    span ∈ v.spans start → span.LiesIn v.tokens start
  | .scalar _, _, _, hspan => by simp [spans] at hspan
  | .object members, _, _, hspan =>
    ((liesIn_of_mem_memberSpans members hspan).append_right [.closing .object]).append_left
      [.opening .object]
  | .array elements, _, _, hspan =>
    ((liesIn_of_mem_elementSpans hspan).append_right [.closing .array]).append_left
      [.opening .array]

theorem liesIn_of_mem_memberSpans : ∀ (members : List (String × Tree)) {start : Nat}
    {span : Span}, span ∈ memberSpans members start → span.LiesIn (memberTokens members) start
  | [], _, _, hspan => by simp [memberSpans] at hspan
  | (name, value) :: rest, start, span, hspan => by
    rw [memberSpans, List.mem_append] at hspan
    rcases hspan with hvalue | hrest
    · exact ((liesIn_of_mem_spans value hvalue).append_right (memberTokens rest)).append_left
        [.key name]
    · exact ((liesIn_of_mem_memberSpans rest hrest).append_left value.tokens).append_left
        [.key name]
end

end Tree

end JsonCleave
