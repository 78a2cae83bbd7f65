import JsonCleave.Proofs.Harvest
/-!
# Walks and recursive tours

A tour is the recursive traversal of a tree, in which the keys are the names of the members. A walk
over the tokens asks a policy the same questions in the same order, and hands out the same payloads.
-/

namespace JsonCleave

variable {σ α : Type}

/-! ## Guides -/

inductive Choice where
  | descend
  | process
  | skip
deriving DecidableEq, Repr

def Choice.decision : Choice → Decision
  | .descend => .descend
  | .process => .process
  | .skip => .skip

/-- A policy whose hooks never fail. -/
structure Guide (σ α : Type) where
  enter : Shape → Option String → σ → Choice × σ
  leave : Shape → Option String → σ → σ
  build : σ → Program (Option α × σ)
  request : Nat → α → σ → Except Fault (WriteRequest α) × σ

inductive Question where
  | entering (shape : Shape) (key : Option String)
  | leaving (shape : Shape) (key : Option String)
  | building
deriving DecidableEq, Repr

namespace Guide

def policy (g : Guide σ α) : Policy σ α where
  enter shape key s := (.ok (g.enter shape key s).1.decision, (g.enter shape key s).2)
  leave shape key s := (.ok (), g.leave shape key s)
  build s := (g.build s).map fun built => (.ok built.1, built.2)
  request := g.request

def recorded (g : Guide σ α) : Guide (σ × List Question) α where
  enter shape key s :=
    let (choice, s') := g.enter shape key s.1
    (choice, s', s.2 ++ [.entering shape key])
  leave shape key s := (g.leave shape key s.1, s.2 ++ [.leaving shape key])
  build s := (g.build s.1).map fun built => (built.1, built.2, s.2 ++ [.building])
  request serial handle s :=
    let (request, s') := g.request serial handle s.1
    (request, s', s.2)

end Guide

/-! ## Tours -/

/-- Result of a recursive tour: questions, payloads, and final state. -/
structure Tour (σ α : Type) where
  questions : List Question
  handles : List α
  state : σ

namespace Tour

def idle (s : σ) : Tour σ α := ⟨[], [], s⟩

def andThen (first : Tour σ α) (second : σ → Tour σ α) : Tour σ α :=
  let later := second first.state
  ⟨first.questions ++ later.questions, first.handles ++ later.handles, later.state⟩

end Tour

namespace Guide

def meet (g : Guide σ α) (shape : Shape) (key : Option String) (view : Reader)
    (inside : σ → Tour σ α) (s : σ) : Tour σ α :=
  let asked : Tour σ α := ⟨[.entering shape key], [], (g.enter shape key s).2⟩
  asked.andThen fun s' =>
    match (g.enter shape key s).1 with
    | .descend => inside s'
    | .process =>
      let (handle, s'') := ((g.build s').run view).result
      ⟨[.building], handle.toList, s''⟩
    | .skip => .idle s'

def depart (g : Guide σ α) (shape : Shape) (key : Option String) (s : σ) : Tour σ α :=
  ⟨[.leaving shape key], [], g.leave shape key s⟩

mutual
/-- The recursive tour of a value under a key. Members have their own name as key, elements the key
of their array; the end of an object has the name of its last member. -/
def tour (g : Guide σ α) (limit : DigitLimit) : Tree → Option String → σ → Tour σ α
  | .scalar _, _, s => .idle s
  | .object members, key, s =>
    g.meet .object key ((Tree.object members).view limit)
      (fun s' =>
        (memberTour g limit members s').andThen (g.depart .object (Tree.lastName members))) s
  | .array elements, key, s =>
    g.meet .array key ((Tree.array elements).view limit)
      (fun s' => (elementTour g limit elements key s').andThen (g.depart .array key)) s

def memberTour (g : Guide σ α) (limit : DigitLimit) : List (String × Tree) → σ → Tour σ α
  | [], s => .idle s
  | (name, value) :: rest, s => (tour g limit value (some name) s).andThen (memberTour g limit rest)

def elementTour (g : Guide σ α) (limit : DigitLimit) : List Tree → Option String → σ → Tour σ α
  | [], _, s => .idle s
  | value :: rest, key, s => (tour g limit value key s).andThen (elementTour g limit rest key)
end

/-! ## Walks follow tours -/

open Turn (keyOf visit)
open Walk (Yields keysInside)

variable {limit : DigitLimit}

theorem yields_meet (g : Guide σ α) {v : Tree} {shape : Shape} (hv : v.shape? = some shape)
    (keys : List (Option String)) {inside : σ → Tour σ α}
    (hinside : ∀ s, Yields g.policy limit v.laterTokens (keysInside shape keys) s
      (inside s).handles keys (inside s).state) (s : σ) :
    let tour := g.meet shape (keyOf keys) (v.view limit) inside s
    Yields g.policy limit v.tokens keys s tour.handles keys tour.state := by
  have henter : g.policy.enter shape (keyOf keys) s =
      (.ok (g.enter shape (keyOf keys) s).1.decision, (g.enter shape (keyOf keys) s).2) := rfl
  cases hchoice : (g.enter shape (keyOf keys) s).1 with
  | descend =>
    rw [hchoice] at henter
    rw [Tree.tokens_of_shape hv]
    simpa [meet, hchoice, Tour.andThen] using (Yields.descend henter).append (hinside _)
  | process =>
    rw [hchoice] at henter
    simpa [meet, hchoice, Tour.andThen] using Yields.process hv henter rfl
  | skip =>
    rw [hchoice] at henter
    simpa [meet, hchoice, Tour.andThen, Tour.idle] using Yields.skip hv henter

theorem yields_departObject (g : Guide σ α) (key : Option String)
    (outer : List (Option String)) (s : σ) :
    Yields g.policy limit [.closing .object] (key :: outer) s (g.depart .object key s).handles outer
      (g.depart .object key s).state :=
  .token fun _ => rfl

theorem yields_departArray (g : Guide σ α) (keys : List (Option String)) (s : σ) :
    Yields g.policy limit [.closing .array] keys s (g.depart .array (keyOf keys) s).handles keys
      (g.depart .array (keyOf keys) s).state :=
  .token fun _ => rfl

mutual
/-- The tokens of a value lead a walk along its tour, and restore the keys. -/
theorem yields_tokens (g : Guide σ α) : ∀ (v : Tree) (keys : List (Option String)) (s : σ),
    Yields g.policy limit v.tokens keys s (g.tour limit v (keyOf keys) s).handles keys
      (g.tour limit v (keyOf keys) s).state
  | .scalar value, keys, s => .scalar _ value keys s
  | .object members, keys, s => by
    refine yields_meet g (v := .object members) rfl keys (fun s' => ?_) s
    have hmembers := yields_memberTokens g members none keys s'
    rw [Option.or_none] at hmembers
    exact hmembers.append (yields_departObject g _ keys _)
  | .array elements, keys, s => by
    refine yields_meet g (v := .array elements) rfl keys (fun s' => ?_) s
    have helements := yields_elementTokens g elements keys s'
    exact helements.append (yields_departArray g keys _)

theorem yields_memberTokens (g : Guide σ α) : ∀ (members : List (String × Tree))
    (key : Option String) (outer : List (Option String)) (s : σ),
    Yields g.policy limit (Tree.memberTokens members) (key :: outer) s
      (g.memberTour limit members s).handles ((Tree.lastName members).or key :: outer)
      (g.memberTour limit members s).state
  | [], key, outer, s => .nil _ _ s
  | (name, value) :: rest, key, outer, s => by
    have hname := Yields.key g.policy limit name (key :: outer) s
    have hvalue := yields_tokens g value (some name :: outer) s
    have hrest :=
      yields_memberTokens g rest (some name) outer (g.tour limit value (some name) s).state
    rw [Tree.or_lastName_cons]
    exact hname.append (hvalue.append hrest)

theorem yields_elementTokens (g : Guide σ α) : ∀ (elements : List Tree)
    (keys : List (Option String)) (s : σ),
    Yields g.policy limit (Tree.elementTokens elements) keys s
      (g.elementTour limit elements (keyOf keys) s).handles keys
      (g.elementTour limit elements (keyOf keys) s).state
  | [], keys, s => .nil _ keys s
  | value :: rest, keys, s => by
    have hvalue := yields_tokens g value keys s
    have hrest := yields_elementTokens g rest keys (g.tour limit value (keyOf keys) s).state
    exact hvalue.append hrest
end

theorem quiet_pullAll_tokens (g : Guide σ α) (limit : DigitLimit) (v : Tree) (s : σ) (count : Nat) :
    (Walk.pullAll g.policy {} ⟨.ofFeed (.on limit (.ofTokens v.tokens)), s, count⟩).quiet =
      ⟨(g.tour limit v none s).handles.map .handle, some (.ok ()), { finished := true },
        ⟨.before [] (.finished limit) none, (g.tour limit v none s).state,
          count + (g.tour limit v none s).handles.length⟩, []⟩ := by
  have hyields : Yields g.policy limit v.tokens [] s _ _ _ := yields_tokens g v [] s
  have htokens := hyields [] (.finished limit) none count
  rw [List.append_nil, Feed.on_finished] at htokens
  rw [Cursor.ofFeed_ofTokens, htokens,
    Walk.quiet_pullAll_end rfl (Cursor.next_before_finished limit _)]
  simp [Walk.Harvest.behind, keyOf]

end Guide

/-! ## Recorded tours -/

namespace Tour

def recorded (asked : List Question) (tour : Tour σ α) : Tour (σ × List Question) α :=
  ⟨tour.questions, tour.handles, tour.state, asked ++ tour.questions⟩

theorem recorded_idle (asked : List Question) (s : σ) :
    (idle s : Tour σ α).recorded asked = idle (s, asked) := by
  simp [recorded, idle]

theorem recorded_andThen (asked : List Question) (first : Tour σ α) (second : σ → Tour σ α)
    {second' : σ × List Question → Tour (σ × List Question) α}
    (hsecond : ∀ s asked', second' (s, asked') = (second s).recorded asked') :
    (first.andThen second).recorded asked = (first.recorded asked).andThen second' := by
  simp [recorded, andThen, hsecond]

end Tour

namespace Guide

theorem recorded_meet (g : Guide σ α) (shape : Shape) (key : Option String) (view : Reader)
    {inside : σ → Tour σ α} {inside' : σ × List Question → Tour (σ × List Question) α}
    (hinside : ∀ s asked, inside' (s, asked) = (inside s).recorded asked) (s : σ)
    (asked : List Question) :
    g.recorded.meet shape key view inside' (s, asked) =
      (g.meet shape key view inside s).recorded asked := by
  have hchoice : (g.recorded.enter shape key (s, asked)).1 = (g.enter shape key s).1 := rfl
  have hasked : (⟨[.entering shape key], [], (g.recorded.enter shape key (s, asked)).2⟩ :
      Tour (σ × List Question) α) =
        Tour.recorded asked ⟨[.entering shape key], [], (g.enter shape key s).2⟩ := rfl
  rw [meet, meet, hasked, hchoice]
  refine (Tour.recorded_andThen asked _ _ fun s' asked' => ?_).symm
  cases (g.enter shape key s).1 with
  | descend => exact hinside s' asked'
  | process => rfl
  | skip => exact (Tour.recorded_idle asked' s').symm

mutual
theorem recorded_tour (g : Guide σ α) : ∀ (v : Tree) (key : Option String) (s : σ)
    (asked : List Question),
    g.recorded.tour limit v key (s, asked) = (g.tour limit v key s).recorded asked
  | .scalar value, key, s, asked => (Tour.recorded_idle asked s).symm
  | .object members, key, s, asked => by
    rw [tour, tour]
    refine recorded_meet g .object key _ (fun s' asked' => ?_) s asked
    rw [recorded_memberTour]
    exact (Tour.recorded_andThen asked' _ _ fun _ _ => rfl).symm
  | .array elements, key, s, asked => by
    rw [tour, tour]
    refine recorded_meet g .array key _ (fun s' asked' => ?_) s asked
    rw [recorded_elementTour]
    exact (Tour.recorded_andThen asked' _ _ fun _ _ => rfl).symm

theorem recorded_memberTour (g : Guide σ α) : ∀ (members : List (String × Tree)) (s : σ)
    (asked : List Question),
    g.recorded.memberTour limit members (s, asked) = (g.memberTour limit members s).recorded asked
  | [], s, asked => (Tour.recorded_idle asked s).symm
  | (name, value) :: rest, s, asked => by
    rw [memberTour, recorded_tour]
    exact (Tour.recorded_andThen asked _ _ fun s' asked' =>
      recorded_memberTour g rest s' asked').symm

theorem recorded_elementTour (g : Guide σ α) : ∀ (elements : List Tree) (key : Option String)
    (s : σ) (asked : List Question),
    g.recorded.elementTour limit elements key (s, asked) =
      (g.elementTour limit elements key s).recorded asked
  | [], key, s, asked => (Tour.recorded_idle asked s).symm
  | value :: rest, key, s, asked => by
    rw [elementTour, recorded_tour]
    exact (Tour.recorded_andThen asked _ _ fun s' asked' =>
      recorded_elementTour g rest key s' asked').symm
end

/-- Over a document, a walk of any guide asks the questions of the tour, in order and with the same
keys, hands out its payloads, and stops in its final state. -/
theorem pullAll_eq_tour (g : Guide σ α) (limit : DigitLimit) (v : Tree) (s : σ) (count : Nat) :
    let tour := g.tour limit v none s
    let harvest := Walk.pullAll g.policy {} ⟨.ofFeed (.on limit (.ofTokens v.tokens)), s, count⟩
    let record :=
      Walk.pullAll g.recorded.policy {} ⟨.ofFeed (.on limit (.ofTokens v.tokens)), (s, []), count⟩
    (harvest.items = tour.handles.map .handle ∧ harvest.outcome = some (.ok ()) ∧
      harvest.walk = { finished := true } ∧ harvest.scene.state = tour.state ∧
      harvest.scene.count = count + tour.handles.length) ∧
    record.items = harvest.items ∧ record.outcome = harvest.outcome ∧
      record.scene.state = (tour.state, tour.questions) := by
  have hharvest := quiet_pullAll_tokens g limit v s count
  have hrecord := quiet_pullAll_tokens g.recorded limit v (s, []) count
  rw [recorded_tour] at hrecord
  rw [Walk.Harvest.quiet, Walk.Harvest.mk.injEq] at hharvest hrecord
  obtain ⟨hitems, houtcome, hwalk, hscene, -⟩ := hharvest
  obtain ⟨hitems', houtcome', -, hscene', -⟩ := hrecord
  refine ⟨⟨hitems, houtcome, hwalk, ?_, ?_⟩, ?_, ?_, ?_⟩
  · rw [hscene]
  · rw [hscene]
  · rw [hitems, hitems']
    rfl
  · rw [houtcome, houtcome']
  · rw [hscene']
    rfl

end Guide

end JsonCleave
