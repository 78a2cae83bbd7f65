import JsonCleave.Proofs.Harvest
/-!
# Which containers the array policy takes

The array policy counts the arrays it goes into. What it takes of a document can be said without
counting: in every array that is met outside of all others, the elements that are objects or
arrays themselves. A complete split hands out just these and leaves the policy as it was, so
that one splitter may split any number of documents.
-/

namespace JsonCleave

namespace Tree

mutual
/-- The objects and arrays directly inside outermost arrays, in document order. -/
def selection : Tree → List Tree
  | .scalar _ => []
  | .object members => memberSelection members
  | .array elements => elements.filter isContainer

def memberSelection : List (String × Tree) → List Tree
  | [] => []
  | (_, value) :: rest => selection value ++ memberSelection rest
end

def payload (v : Tree) : Payload := ⟨v.text, .json⟩

/-! ### Nothing selected is the whole document -/

theorem length_le_length_intercalate {text : String} {texts : List String} (h : text ∈ texts) :
    text.length ≤ (",".intercalate texts).length := by
  induction texts with
  | nil => simp at h
  | cons first rest ih =>
    cases rest with
    | nil =>
      obtain rfl := List.mem_singleton.mp h
      exact Nat.le_of_eq (by rw [String.intercalate_singleton])
    | cons second rest =>
      rw [String.intercalate_cons_cons, String.length_append, String.length_append]
      rcases List.mem_cons.mp h with rfl | hrest
      · omega
      · have hle := ih hrest
        omega

theorem text_mem_elementTexts {v : Tree} {elements : List Tree} (hv : v ∈ elements) :
    v.text ∈ elementTexts elements := by
  induction elements with
  | nil => simp at hv
  | cons first rest ih =>
    rw [elementTexts]
    rcases List.mem_cons.mp hv with rfl | hrest
    · exact List.mem_cons_self
    · exact List.mem_cons_of_mem _ (ih hrest)

mutual
theorem IsPrintable.of_mem_selection {limit : DigitLimit} : ∀ {v : Tree}, v.IsPrintable limit →
    ∀ w ∈ v.selection, w.IsPrintable limit
  | .scalar value, _, w, hw => by simp [selection] at hw
  | .object members, hv, w, hw =>
    isPrintable_of_mem_memberSelection (fun t ht => hv t (by simp [tokens, ht])) w hw
  | .array elements, hv, w, hw =>
    isPrintable_of_mem_elements (fun t ht => hv t (by simp [tokens, ht])) w
      (List.mem_filter.mp hw).1

theorem isPrintable_of_mem_memberSelection {limit : DigitLimit} :
    ∀ {members : List (String × Tree)}, (∀ t ∈ memberTokens members, t.IsPrintable limit) →
      ∀ w ∈ memberSelection members, w.IsPrintable limit
  | [], _, w, hw => by simp [memberSelection] at hw
  | (name, value) :: rest, hmembers, w, hw => by
    rcases List.mem_append.mp hw with hvalue | hrest
    · have hprint : value.IsPrintable limit := fun t ht => hmembers t (by simp [memberTokens, ht])
      exact hprint.of_mem_selection w hvalue
    · exact isPrintable_of_mem_memberSelection
        (fun t ht => hmembers t (by simp [memberTokens, ht])) w hrest

theorem isPrintable_of_mem_elements {limit : DigitLimit} :
    ∀ {elements : List Tree}, (∀ t ∈ elementTokens elements, t.IsPrintable limit) →
      ∀ w ∈ elements, w.IsPrintable limit
  | [], _, w, hw => by simp at hw
  | v :: rest, helements, w, hw => by
    rcases List.mem_cons.mp hw with rfl | hrest
    · exact fun t ht => helements t (by simp [elementTokens, ht])
    · exact isPrintable_of_mem_elements
        (fun t ht => helements t (by simp [elementTokens, ht])) w hrest
end

mutual
theorem length_text_lt_of_mem_selection : ∀ (v : Tree) {w : Tree}, w ∈ v.selection →
    w.text.length < v.text.length
  | .scalar value, w, hw => by simp [selection] at hw
  | .object members, w, hw => by
    obtain ⟨text, htext, hlt⟩ := exists_memberTexts_of_mem_selection members hw
    have hle := length_le_length_intercalate htext
    rw [Tree.text, String.length_append, String.length_append]
    omega
  | .array elements, w, hw => by
    have hle := length_le_length_intercalate (text_mem_elementTexts (List.mem_filter.mp hw).1)
    have hbracket : "[".length = 1 := rfl
    rw [Tree.text, String.length_append, String.length_append]
    omega

theorem exists_memberTexts_of_mem_selection : ∀ (members : List (String × Tree)) {w : Tree},
    w ∈ memberSelection members → ∃ text ∈ memberTexts members, w.text.length < text.length
  | [], w, hw => by simp [memberSelection] at hw
  | (name, value) :: rest, w, hw => by
    rw [memberTexts]
    rcases List.mem_append.mp hw with hvalue | hrest
    · have hlt := length_text_lt_of_mem_selection value hvalue
      refine ⟨_, List.mem_cons_self, ?_⟩
      rw [String.length_append]
      omega
    · obtain ⟨text, htext, hlt⟩ := exists_memberTexts_of_mem_selection rest hrest
      exact ⟨text, List.mem_cons_of_mem _ htext, hlt⟩
end

end Tree

namespace Policy

open Turn (keyOf)
open Walk (Yields keysInside)

variable {limit : DigitLimit}

/-! ## Payloads -/

theorem serialize_run {r r' : Reader} {text : String}
    (hcopy : r.copy = (⟨.ok (), text⟩, r')) : Reading.serialize.run r = ⟨.ok text, r', []⟩ := by
  simp [Reading.serialize, Reading.run, Reader.answer, hcopy, Reader.Copy.result, Except.map]

theorem serialize_run_fails {r r' : Reader} {text : String} {fault : Fault}
    (hcopy : r.copy = (⟨.error fault, text⟩, r')) :
    Reading.serialize.run r =
      ⟨.error (fault.leaving .serialize), r', fault.reports .serialize⟩ := by
  cases horigin : fault.origin? <;>
    simp [Reading.serialize, Reading.run, Reader.answer, hcopy, Reader.Copy.result, Except.map,
      Fault.leaving, Fault.reports, horigin]

theorem array_visit_fails {shape : Shape} {c : Cursor} (hc : c.current = some (.opening shape))
    {fault : Fault} {text : String} {r' : Reader}
    (hcopy : Reader.copyOpen (.start shape) ⟨c, [1]⟩ = (⟨.error fault, text⟩, r'))
    (keys : List (Option String)) :
    Turn.visit array (.opening shape) keys c 1 =
      ⟨.error (fault.leaving .serialize), keys, r'.cursor, 1, fault.reports .serialize⟩ := by
  have henter : array.enter shape (keyOf keys) 1 = (.ok .process, 1) := by cases shape <;> rfl
  have hview : (Reader.view ⟨c, []⟩).copy = (⟨.error fault, text⟩, r') :=
    (Reader.copy_opening (r := Reader.view ⟨c, []⟩) hc).trans hcopy
  have hbuild : (array.build 1).run (Reader.view ⟨c, []⟩) =
      ⟨(.error (fault.leaving .serialize), 1), r', fault.reports .serialize⟩ := by
    simp only [array, Program.run_ofReading, Reading.run_map, serialize_run_fails hview,
      Except.map]
  simp only [Turn.visit, henter, Turn.follow, Turn.process, hbuild]

theorem array_visit_excess {ts : List Token} (hts : StaysOpen 1 ts) {later : Feed}
    (hprint : ∀ t ∈ ts, t.IsPrintable later.limit) {t : Token} {excess : DigitExcess}
    (ht : t.excess? later.limit = some excess) (us : List Token) (shape : Shape)
    (keys : List (Option String)) :
    Turn.visit array (.opening shape) keys
        (.before (ts ++ t :: us) later (some (.opening shape))) 1 =
      ⟨.error (.tooManyDigits excess), keys, .before us later (some t), 1, []⟩ := by
  have hopen : ∀ d ∈ [1], (Writer.start shape).levels.length ≤ d := by simp [Writer.start]
  exact array_visit_fails rfl
    (Reader.copyOpen_before_excess (w := .start shape) hts hprint hopen ht us _) keys

theorem array_build_view {v : Tree} {shape : Shape} (hv : v.shape? = some shape)
    (hprint : v.IsPrintable limit) (openArrays : Nat) :
    ((array.build openArrays).run (v.view limit)).result =
      (.ok (some v.payload), openArrays) := by
  have hopen : ∀ d ∈ [1], 1 ≤ d := by simp
  have hlimit : v.IsPrintable (Feed.finished limit).limit := hprint
  have hcopy := Reader.copy_before hv hlimit hopen []
  rw [List.append_nil] at hcopy
  simp only [array, Program.run_ofReading, Reading.run_map]
  rw [Tree.view, Reader.view, serialize_run hcopy]
  rfl

/-! ## The tokens of a document -/

theorem array_yields_element {v : Tree}
    (hprint : ∀ w ∈ [v].filter Tree.isContainer, w.IsPrintable limit)
    (keys : List (Option String)) :
    Yields array limit v.tokens keys 1 (([v].filter Tree.isContainer).map Tree.payload) keys 1 := by
  cases v with
  | scalar value => exact .scalar array value keys 1
  | object members =>
    have hwhole := hprint (.object members) List.mem_cons_self
    exact .process (v := .object members) rfl rfl (array_build_view rfl hwhole 1)
  | array elements =>
    have hwhole := hprint (.array elements) List.mem_cons_self
    exact .process (v := .array elements) rfl rfl (array_build_view rfl hwhole 1)

theorem array_yields_elementTokens {elements : List Tree}
    (hprint : ∀ w ∈ elements.filter Tree.isContainer, w.IsPrintable limit)
    (keys : List (Option String)) :
    Yields array limit (Tree.elementTokens elements) keys 1
      ((elements.filter Tree.isContainer).map Tree.payload) keys 1 := by
  induction elements with
  | nil => exact .nil array keys 1
  | cons v rest ih =>
    have hcons : (v :: rest).filter Tree.isContainer =
        [v].filter Tree.isContainer ++ rest.filter Tree.isContainer := List.filter_append [v] rest
    rw [hcons] at hprint
    have hfirst := array_yields_element (fun w hw => hprint w (List.mem_append_left _ hw)) keys
    have happend := hfirst.append (ih fun w hw => hprint w (List.mem_append_right _ hw))
    rw [← List.map_append, ← List.filter_append] at happend
    exact happend

mutual
/-- A document brings the payloads of its selection, and restores keys and counter. -/
theorem array_yields_tokens : ∀ (v : Tree) (_ : ∀ w ∈ v.selection, w.IsPrintable limit)
    (keys : List (Option String)),
    Yields array limit v.tokens keys 0 (v.selection.map Tree.payload) keys 0
  | .scalar value, _, keys => .scalar array value keys 0
  | .object members, hprint, keys => by
    have hopening : Yields array limit [.opening .object] keys 0 [] (none :: keys) 0 := .descend rfl
    have hmembers := array_yields_memberTokens members hprint none keys
    have hclosing : Yields array limit [.closing .object]
        ((Tree.lastName members).or none :: keys) 0 [] keys 0 := .token fun _ => rfl
    have htokens := hopening.append (hmembers.append hclosing)
    rw [List.nil_append, List.append_nil] at htokens
    exact htokens
  | .array elements, hprint, keys => by
    have hopening : Yields array limit [.opening .array] keys 0 [] keys 1 := .descend rfl
    have helements := array_yields_elementTokens hprint keys
    have hclosing : Yields array limit [.closing .array] keys 1 [] keys 0 := .token fun _ => rfl
    have htokens := hopening.append (helements.append hclosing)
    rw [List.nil_append, List.append_nil] at htokens
    exact htokens

theorem array_yields_memberTokens : ∀ (members : List (String × Tree))
    (_ : ∀ w ∈ Tree.memberSelection members, w.IsPrintable limit) (key : Option String)
    (outer : List (Option String)),
    Yields array limit (Tree.memberTokens members) (key :: outer) 0
      ((Tree.memberSelection members).map Tree.payload) ((Tree.lastName members).or key :: outer) 0
  | [], _, key, outer => .nil array _ 0
  | (name, value) :: rest, hprint, key, outer => by
    have hname := Yields.key array limit name (key :: outer) 0
    have hvalue := array_yields_tokens value
      (fun w hw => hprint w (List.mem_append_left _ hw)) (some name :: outer)
    have hrest := array_yields_memberTokens rest
      (fun w hw => hprint w (List.mem_append_right _ hw)) (some name) outer
    have htokens := hname.append (hvalue.append hrest)
    rw [List.nil_append, ← List.map_append, ← Tree.or_lastName_cons name value rest key] at htokens
    exact htokens
end

theorem array_quiet_pullAll {v : Tree} (hprint : ∀ w ∈ v.selection, w.IsPrintable limit)
    (count : Nat) :
    (Walk.pullAll array {} ⟨.ofFeed (.on limit (.ofTokens v.tokens)), 0, count⟩).quiet =
      ⟨v.selection.map fun w => .handle w.payload, some (.ok ()), { finished := true },
        ⟨.before [] (.finished limit) none, 0, count + v.selection.length⟩, []⟩ := by
  have htokens := array_yields_tokens v hprint [] [] (.finished limit) none count
  rw [List.append_nil, Feed.on_finished] at htokens
  rw [Cursor.ofFeed_ofTokens, htokens,
    Walk.quiet_pullAll_end rfl (Cursor.next_before_finished limit _)]
  simp [Walk.Harvest.behind]

theorem array_quiet_pullAll_stuck {us ts : List Token} {payloads : List Payload} {later : Feed}
    {keys' : List (Option String)} (hus : Yields array later.limit us [] 0 payloads keys' 1)
    {shape : Shape} {fault : Fault}
    (hvisit : (Turn.visit array (.opening shape) keys'
      (.before ts later (some (.opening shape))) 1).outcome = .error fault)
    (hfault : fault.origin? = none) (count : Nat) :
    ∃ keys cursor state,
      (Walk.pullAll array {} ⟨.before (us ++ .opening shape :: ts) later none, 0, count⟩).quiet =
        ⟨payloads.map .handle, some (.error fault), { keys, finished := true },
          ⟨cursor, state, count + payloads.length⟩, []⟩ := by
  have hyields := hus (.opening shape :: ts) later none count
  rw [Feed.on_limit] at hyields
  obtain ⟨keys, hpull⟩ := Walk.quiet_pullAll_visit_fault (w := { keys := keys' })
    (s := ⟨.before (.opening shape :: ts) later (lastToken none us), 1, count + payloads.length⟩)
    rfl (Cursor.next_before_cons _ ts later _) hvisit
  generalize Turn.visit array (.opening shape) _ _ _ = turn at hpull
  refine ⟨keys, turn.cursor, turn.state, ?_⟩
  rw [hyields, hpull]
  simp [Walk.Harvest.behind, Fault.leaving, hfault]

theorem array_quiet_pullAll_tooLong {later : Feed} (hlimit : later.limit = .standard)
    (us : List Token) (count : Nat) :
    ∃ keys cursor state,
      (Walk.pullAll array {} ⟨.before ([.opening .array] ++ .opening .object ::
          ([.key "a"] ++ .tooLong :: us)) later none, 0, count⟩).quiet =
        ⟨[], some (.error (.tooManyDigits ⟨digitLimit, none⟩)), { keys, finished := true },
          ⟨cursor, state, count⟩, []⟩ := by
  have hopening : Yields array later.limit [.opening .array] [] 0 [] [] 1 := .descend rfl
  have hname : StaysOpen 1 [.key "a"] := trivial
  have hprint : ∀ t ∈ [Token.key "a"], t.IsPrintable later.limit :=
    List.forall_mem_singleton.mpr rfl
  have hexcess : Token.tooLong.excess? later.limit = some ⟨digitLimit, none⟩ :=
    hlimit ▸ Token.excess_tooLong
  have hvisit := array_visit_excess hname hprint hexcess us .object []
  exact array_quiet_pullAll_stuck hopening (congrArg Turn.outcome hvisit) rfl count

end Policy

/-! ## Complete splits -/

namespace Walk

variable {σ α : Type}

/-- Splits one source after the other, keeping policy state and count. -/
def splitAll (p : Policy σ α) : List Feed → σ → Nat → List (Harvest σ α)
  | [], _, _ => []
  | feed :: rest, state, count =>
    let harvest := pullAll p {} ⟨.ofFeed feed, state, count⟩
    harvest :: splitAll p rest harvest.scene.state harvest.scene.count

end Walk

namespace Policy

end Policy

end JsonCleave
