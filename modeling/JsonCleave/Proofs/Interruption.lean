import JsonCleave.Proofs.Span
/-!
# Splits of failing sources

A source that fails behind a prefix of a document: the array policy has handed out the containers of
the selection whose closing bracket is in the prefix, and the fault tells whether the prefix ends
inside another one.
-/

namespace JsonCleave

open Turn (keyOf)
open Walk (Yields)

/-! ## Tokens up to a cut -/

/-- Position of the array policy after some tokens: between the elements to be handed out, inside
one, or behind an integer over the limit in one. -/
inductive Reach where
  | between
  | inside
  | beyond (excess : DigitExcess)

namespace Reach

def within : (begun : Bool) → Reach
  | true => .inside
  | false => .between

def fault (origin : Origin) : Reach → Fault
  | .between => .interrupted .traverse origin
  | .inside => .interrupted .serialize origin
  | .beyond excess => .tooManyDigits excess

@[simp] theorem within_false : within false = .between := rfl

theorem fault_within (begun : Bool) (origin : Origin) :
    (within begun).fault origin =
      .interrupted (if begun then .serialize else .traverse) origin := by
  cases begun <;> rfl

end Reach

/-- The tokens lead the array policy to a position, and bring `payloads`. -/
inductive Reaches (limit : DigitLimit) :
    List Token → List (Option String) → Nat → List Payload → Reach → Prop where
  | between {ts : List Token} {keys keys' : List (Option String)} {openArrays openArrays' : Nat}
      {payloads : List Payload}
      (hts : Yields .array limit ts keys openArrays payloads keys' openArrays') :
      Reaches limit ts keys openArrays payloads .between
  | inside {us ts : List Token} {shape : Shape} {keys keys' : List (Option String)}
      {openArrays : Nat} {payloads : List Payload}
      (hus : Yields .array limit us keys openArrays payloads keys' 1) (hts : StaysOpen 1 ts)
      (hprint : ∀ t ∈ ts, t.IsPrintable limit) :
      Reaches limit (us ++ .opening shape :: ts) keys openArrays payloads .inside
  | beyond {us ts : List Token} {shape : Shape} {keys keys' : List (Option String)}
      {openArrays : Nat} {payloads : List Payload} {t : Token} {excess : DigitExcess}
      (hus : Yields .array limit us keys openArrays payloads keys' 1) (hts : StaysOpen 1 ts)
      (hprint : ∀ t ∈ ts, t.IsPrintable limit) (ht : t.excess? limit = some excess)
      (vs : List Token) :
      Reaches limit (us ++ .opening shape :: (ts ++ t :: vs)) keys openArrays payloads
        (.beyond excess)

variable {limit : DigitLimit}

theorem Reaches.behind {us ts : List Token} {keys keys' : List (Option String)}
    {openArrays openArrays' : Nat} {payloads later : List Payload} {reach : Reach}
    (hus : Yields .array limit us keys openArrays payloads keys' openArrays')
    (hts : Reaches limit ts keys' openArrays' later reach) :
    Reaches limit (us ++ ts) keys openArrays (payloads ++ later) reach := by
  cases hts with
  | between hts => exact .between (hus.append hts)
  | inside hvs hts hprint =>
    rw [← List.append_assoc]
    exact .inside (hus.append hvs) hts hprint
  | beyond hvs hts hprint ht ws =>
    rw [← List.append_assoc]
    exact .beyond (hus.append hvs) hts hprint ht ws

theorem cut_append {as bs ts us : List Token} (hcut : as ++ bs = ts ++ us) :
    (∃ ts', ts = as ++ ts' ∧ bs = ts' ++ us) ∨ ∃ us', us' ≠ [] ∧ as = ts ++ us' := by
  rcases List.append_eq_append_iff.mp hcut with hbehind | ⟨us', has, hus⟩
  · exact .inl hbehind
  · cases us' with
    | nil => exact .inl ⟨[], by simpa using has.symm, hus.symm⟩
    | cons u us' => exact .inr ⟨u :: us', by simp, has⟩

open JsonCleave.Span

/-- For every prefix of `ts`, `spans` determines the position it leads to and the payloads it
brings. -/
def Charts (limit : DigitLimit) (spans : List Span) (start : Nat) (ts : List Token)
    (keys : List (Option String)) (openArrays : Nat) : Prop :=
  ∀ us vs, ts = us ++ vs → (∀ t ∈ us, t.IsPrintable limit) →
    Reaches limit us keys openArrays (payloads (start + us.length) spans)
      (.within (areOpen (start + us.length) spans))

theorem Charts.nil (start : Nat) (keys : List (Option String)) (openArrays : Nat) :
    Charts limit [] start [] keys openArrays := by
  intro ts us hcut hprint
  obtain ⟨rfl, -⟩ := List.append_eq_nil_iff.mp hcut.symm
  exact .between (.nil .array keys openArrays)

theorem Charts.token {t : Token} {keys keys' : List (Option String)} {openArrays openArrays' : Nat}
    (ht : Yields .array limit [t] keys openArrays [] keys' openArrays') (start : Nat) :
    Charts limit [] start [t] keys openArrays := by
  intro us vs hcut hprint
  cases us with
  | nil => exact .between (.nil .array keys openArrays)
  | cons u us =>
    obtain ⟨rfl, hnil⟩ := List.cons.inj hcut
    obtain ⟨rfl, -⟩ := List.append_eq_nil_iff.mp hnil.symm
    exact .between ht

theorem Charts.append {as bs : List Token} {spans spans' : List Span} {start : Nat}
    {keys keys' : List (Option String)} {openArrays openArrays' : Nat}
    (has : Charts limit spans start as keys openArrays)
    (hspans : ∀ span ∈ spans, span.LiesIn as start)
    (hyields : (∀ w ∈ spans.map container, w.IsPrintable limit) →
      Yields .array limit as keys openArrays ((spans.map container).map Tree.payload) keys'
        openArrays')
    (hbs : Charts limit spans' (start + as.length) bs keys' openArrays')
    (hspans' : ∀ span ∈ spans', span.LiesIn bs (start + as.length)) :
    Charts limit (spans ++ spans') start (as ++ bs) keys openArrays := by
  intro ts us hcut hprint
  rw [payloads_append, areOpen_append]
  rcases cut_append hcut with ⟨ts', rfl, hlater⟩ | ⟨us', -, hfirst⟩
  · have hread : ∀ span ∈ spans, span.stop ≤ start + (as ++ ts').length := by
      intro span hspan
      have hstop := (hspans span hspan).stop_le
      rw [List.length_append]
      omega
    rw [payloads_of_stop_le hread, areOpen_of_stop_le hread, List.length_append, ← Nat.add_assoc,
      Bool.false_or]
    have hcontainers : ∀ w ∈ spans.map container, w.IsPrintable limit := by
      intro w hw
      obtain ⟨span, hspan, rfl⟩ := List.mem_map.mp hw
      exact (hspans span hspan).isPrintable fun t ht => hprint t (by simp [ht])
    exact (hbs ts' us hlater fun t ht => hprint t (by simp [ht])).behind (hyields hcontainers)
  · have hunread : ∀ span ∈ spans', start + ts.length ≤ span.start := by
      intro span hspan
      have hle := (hspans' span hspan).le_start
      rw [hfirst, List.length_append] at hle
      omega
    rw [payloads_of_le_start hunread, areOpen_of_le_start hunread, List.append_nil, Bool.or_false]
    exact has ts us' hfirst hprint

/-! ## The tokens of a document -/

namespace Tree

open Policy

theorem charts_element (v : Tree) (start : Nat) (keys : List (Option String)) :
    Charts limit (elementSpans [v] start) start v.tokens keys 1 := by
  cases hv : v.shape? with
  | none =>
    cases v with
    | scalar value => exact .token (.scalar .array value keys 1) start
    | object members => simp [shape?] at hv
    | array elements => simp [shape?] at hv
  | some shape =>
    have hspans : elementSpans [v] start = [⟨start, v⟩] := by
      simp [elementSpans, isContainer, hv]
    rw [hspans]
    intro ts us hcut hprint
    have hlength : v.tokens.length = ts.length + us.length := by rw [hcut, List.length_append]
    cases us with
    | nil =>
      have hread : ∀ span ∈ [Span.mk start v], span.stop ≤ start + ts.length := by
        simp [stop, hlength]
      rw [payloads_of_stop_le hread, areOpen_of_stop_le hread, ← List.append_nil ts, ← hcut]
      have hwhole : ∀ w ∈ [v].filter isContainer, w.IsPrintable limit := by
        simpa [isContainer, hv, IsPrintable, hcut] using hprint
      simpa [isContainer, hv] using Reaches.between (array_yields_element hwhole keys)
    | cons u us =>
      have hstop : ∀ span ∈ [Span.mk start v], start + ts.length < span.stop := by
        simp [stop, hlength]
      rw [payloads_of_lt_stop hstop]
      cases ts with
      | nil =>
        rw [areOpen_of_le_start (by simp)]
        exact .between (.nil .array keys 1)
      | cons t ts =>
        have hopen : areOpen (start + (t :: ts).length) [⟨start, v⟩] = true := by
          simpa [areOpen, isOpenAt] using hstop
        rw [tokens_of_shape hv, List.cons_append, List.cons.injEq] at hcut
        obtain ⟨rfl, hlater⟩ := hcut
        have hcloses := closes_laterTokens hv
        rw [hlater] at hcloses
        rw [hopen]
        exact .inside (.nil .array keys 1) (hcloses.staysOpen (by simp))
          fun t ht => hprint t (by simp [ht])

theorem charts_elementTokens (elements : List Tree) (start : Nat) (keys : List (Option String)) :
    Charts limit (elementSpans elements start) start (elementTokens elements) keys 1 := by
  induction elements generalizing start with
  | nil => exact Charts.nil start keys 1
  | cons v rest ih =>
    have hyields := fun (hprint : ∀ w ∈ [v].filter isContainer, w.IsPrintable limit) =>
      array_yields_element hprint keys
    rw [← map_container_elementSpans [v] start] at hyields
    have hlies : ∀ span ∈ elementSpans [v] start, span.LiesIn v.tokens start := by
      intro span hspan
      simpa [elementTokens] using liesIn_of_mem_elementSpans hspan
    rw [elementSpans_cons]
    exact (charts_element v start keys).append hlies hyields (ih _)
      fun _ => liesIn_of_mem_elementSpans

mutual
/-- The spans of a document chart its tokens. -/
theorem charts_tokens : ∀ (v : Tree) (start : Nat) (keys : List (Option String)),
    Charts limit (v.spans start) start v.tokens keys 0
  | .scalar value, start, keys => .token (.scalar .array value keys 0) start
  | .object members, start, keys => by
    have hopening : Yields .array limit [.opening .object] keys 0 [] (none :: keys) 0 :=
      .descend rfl
    have hmembers := fun (hprint : ∀ w ∈ memberSelection members, w.IsPrintable limit) =>
      array_yields_memberTokens members hprint none keys
    rw [← map_container_memberSpans members (start + 1)] at hmembers
    have hclosing : Yields .array limit [.closing .object]
        ((lastName members).or none :: keys) 0 [] keys 0 := .token fun _ => rfl
    have hinside := (charts_memberTokens members (start + 1) (none :: keys)).append
      (fun _ => liesIn_of_mem_memberSpans members) hmembers
      (.token hclosing (start + 1 + (memberTokens members).length)) (by simp)
    rw [List.append_nil] at hinside
    exact (Charts.token hopening start).append (by simp) (fun _ => hopening) hinside
      fun _ hspan => (liesIn_of_mem_memberSpans members hspan).append_right _
  | .array elements, start, keys => by
    have hopening : Yields .array limit [.opening .array] keys 0 [] keys 1 := .descend rfl
    have helements := fun (hprint : ∀ w ∈ elements.filter isContainer, w.IsPrintable limit) =>
      array_yields_elementTokens hprint keys
    rw [← map_container_elementSpans elements (start + 1)] at helements
    have hclosing : Yields .array limit [.closing .array] keys 1 [] keys 0 := .token fun _ => rfl
    have hinside := (charts_elementTokens elements (start + 1) keys).append
      (fun _ => liesIn_of_mem_elementSpans) helements
      (.token hclosing (start + 1 + (elementTokens elements).length)) (by simp)
    rw [List.append_nil] at hinside
    exact (Charts.token hopening start).append (by simp) (fun _ => hopening) hinside
      fun _ hspan => (liesIn_of_mem_elementSpans hspan).append_right _

theorem charts_memberTokens : ∀ (members : List (String × Tree)) (start : Nat)
    (keys : List (Option String)),
    Charts limit (memberSpans members start) start (memberTokens members) keys 0
  | [], start, keys => Charts.nil start keys 0
  | (name, value) :: rest, start, keys => by
    have hname := Yields.key .array limit name keys 0
    have hvalue := fun (hprint : ∀ w ∈ value.selection, w.IsPrintable limit) =>
      array_yields_tokens value hprint (some name :: keys.tail)
    rw [← map_container_spans value (start + 1)] at hvalue
    have hbehind := (charts_tokens value (start + 1) (some name :: keys.tail)).append
      (fun _ => liesIn_of_mem_spans value) hvalue
      (charts_memberTokens rest (start + 1 + value.tokens.length) (some name :: keys.tail))
      fun _ => liesIn_of_mem_memberSpans rest
    refine (Charts.token hname start).append (by simp) (fun _ => hname) hbehind fun span hspan => ?_
    rcases List.mem_append.mp hspan with h | h
    · exact (liesIn_of_mem_spans value h).append_right _
    · exact (liesIn_of_mem_memberSpans rest h).append_left value.tokens
end

end Tree

/-! ## The failure -/

namespace Policy

theorem array_visit_interrupted {ts : List Token} (hts : StaysOpen 1 ts) {later : Feed}
    (hprint : ∀ t ∈ ts, t.IsPrintable later.limit) {origin : Origin}
    (hlater : later.Fails origin) (shape : Shape) (keys : List (Option String)) :
    (Turn.visit array (.opening shape) keys (.before ts later (some (.opening shape))) 1).outcome =
      .error (.interrupted .serialize origin) := by
  have hopen : ∀ d ∈ [1], (Writer.start shape).levels.length ≤ d := by simp [Writer.start]
  obtain ⟨r', hcopy⟩ := Reader.copyOpen_before_fails (w := .start shape) hts hprint hopen hlater
    (some (.opening shape))
  exact congrArg Turn.outcome (array_visit_fails rfl hcopy keys)

theorem array_quiet_pullAll_fails {ts : List Token} {payloads : List Payload} {reach : Reach}
    {later : Feed} (hts : Reaches later.limit ts [] 0 payloads reach) {origin : Origin}
    (hlater : later.Fails origin) (count : Nat) :
    ∃ keys cursor state, (Walk.pullAll array {} ⟨.before ts later none, 0, count⟩).quiet =
      ⟨payloads.map .handle, some (.error (reach.fault origin)), { keys, finished := true },
        ⟨cursor, state, count + payloads.length⟩, []⟩ := by
  cases hts with
  | between hts =>
    rename_i keys' openArrays'
    have hyields := hts [] later none count
    rw [List.append_nil, Feed.on_limit] at hyields
    obtain ⟨cursor, hnext⟩ := Cursor.next_before_fails hlater (lastToken none ts)
    have hfault := Walk.quiet_pullAll_source_fault (p := array) (w := { keys := keys' })
      (s := ⟨.before [] later (lastToken none ts), openArrays', count + payloads.length⟩) rfl hnext
    refine ⟨keys', cursor, openArrays', ?_⟩
    rw [hyields, hfault]
    simp [Walk.Harvest.behind, Fault.leaving, Fault.origin?, Reach.fault]
  | inside hus hts hprint =>
    rename_i us ts shape keys'
    exact array_quiet_pullAll_stuck hus
      (array_visit_interrupted hts hprint hlater shape keys') rfl count
  | beyond hus hts hprint ht vs =>
    rename_i us ts shape keys' t excess
    have hvisit := array_visit_excess hts hprint ht vs shape keys'
    exact array_quiet_pullAll_stuck hus (congrArg Turn.outcome hvisit) rfl count

end Policy

end JsonCleave
