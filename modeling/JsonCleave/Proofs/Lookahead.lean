import JsonCleave.Proofs.Refusal
import JsonCleave.Proofs.Tour
import JsonCleave.Proofs.Unclosed
/-!
# Pulls do not read ahead

A pull that brings an item has read up to the closing bracket of its container and no further, so
items, questions and policy states do not depend on what follows. The exception is an unclosed
container whose builder skips it at a good end of the source.
-/

namespace JsonCleave

variable {σ α : Type}

namespace Turn

open Cursor (before)

/-! ## Turns that read a certain part -/

def moved (turn : Turn σ α) (c : Cursor) : Turn σ α := { turn with cursor := c }

/-- How far processing a container reads does not depend on what follows it; without a fault it
reads to the closing bracket. -/
theorem process_local (limit : DigitLimit) {ts : List Token} (hts : Closes 1 ts)
    (p : Policy σ α) (keys : List (Option String)) (current : Option Token) (state : σ) :
    ∃ (turn : Turn σ α) (us vs : List Token), ts = us ++ vs ∧
      (∀ handle, turn.outcome = .ok handle → vs = []) ∧
      ∀ later, process p keys (before ts (.on limit later) current) state =
        turn.moved (before vs (.on limit later) (lastToken current us)) := by
  obtain ⟨result, log, e, hbecomes, hlocal⟩ :=
    (p.build state).run_local ⟨limit, ts, current, [], 1, hts⟩
  obtain ⟨hlimit, hfurther, us, hus, hcurrent⟩ := hbecomes
  have hnil : e.further = [] := List.length_eq_zero_iff.mp hfurther
  match result with
  | (.error fault, state') =>
    refine ⟨⟨.error fault, keys, before [] (.finished none) none, state', log⟩, us, e.tokens, hus,
      by simp, fun later => ?_⟩
    have hrun := hlocal later
    simp only [Excerpt.reader, List.nil_append, hlimit] at hrun
    simp only [process, Reader.view, hrun, moved, hcurrent]
  | (.ok handle, state') =>
    refine ⟨⟨.ok handle, keys, before [] (.finished none) none, state', log⟩, ts, [],
      (List.append_nil ts).symm, fun _ _ => rfl, fun later => ?_⟩
    have hrun := hlocal later
    have hdrain := Reader.drain_before e.closes [] (.on limit later) e.current
    dsimp only at hus hcurrent
    rw [List.append_nil, hcurrent, ← lastToken_append, ← hus] at hdrain
    simp only [Excerpt.reader, hnil, List.nil_append, hcurrent, hlimit] at hrun
    simp only [process, Reader.view, hrun, hdrain, moved]

/-- The traversal processes the container whose opening bracket is the last token of `us`, with
handle `a`. -/
inductive Takes (p : Policy σ α) :
    List (Option String) → Cursor → σ → Shape → Cursor → α → Prop
  | here {keys : List (Option String)} {c c' : Cursor} {state state' state'' : σ} {shape : Shape}
      {a : α} (hnext : c.next = (.ok (some (.opening shape)), c'))
      (henter : p.enter shape (keyOf keys) state = (.ok .process, state'))
      (hbuild : ((p.build state').run (Reader.view ⟨c', []⟩)).result = (.ok (some a), state'')) :
      Takes p keys c state shape c' a
  | onward {keys : List (Option String)} {c c' c'' : Cursor} {state : σ} {t : Token}
      {shape : Shape} {a : α} (hnext : c.next = (.ok (some t), c'))
      (hvisit : (visit p t keys c' state).outcome = .ok none)
      (hlater : Takes p (visit p t keys c' state).keys (visit p t keys c' state).cursor
        (visit p t keys c' state).state shape c'' a) : Takes p keys c state shape c'' a

variable {p : Policy σ α} {keys : List (Option String)} {state : σ} {later : Feed}
  {ts : List Token} {current : Option Token}

theorem visit_cases (p : Policy σ α) (t : Token) (keys : List (Option String)) (state : σ) :
    (∃ turn : Turn σ α, (∀ a, turn.outcome ≠ .ok (some a)) ∧
      ∀ c, visit p t keys c state = turn.moved c) ∨
    (∃ shape state', t = .opening shape ∧ p.enter shape (keyOf keys) state = (.ok .skip, state') ∧
      ∀ c, visit p t keys c state = follow p shape .skip keys c state') ∨
    ∃ shape state', t = .opening shape ∧ p.enter shape (keyOf keys) state = (.ok .process, state') ∧
      ∀ c, visit p t keys c state = process p keys c state' := by
  have nowhere : Cursor := before [] (.finished none) none
  cases t with
  | key name => exact .inl ⟨⟨.ok none, some name :: keys.tail, nowhere, state, []⟩, by simp,
      fun _ => rfl⟩
  | scalar value => exact .inl ⟨⟨.ok none, keys, nowhere, state, []⟩, by simp, fun _ => rfl⟩
  | closing shape =>
    rcases hleave : p.leave shape (keyOf keys) state with ⟨answer, state'⟩
    cases answer with
    | error fault =>
      exact .inl ⟨⟨.error fault, keys, nowhere, state', []⟩, by simp,
        fun _ => by simp [visit, hleave, moved]⟩
    | ok =>
      cases shape with
      | object => exact .inl ⟨⟨.ok none, keys.tail, nowhere, state', []⟩, by simp,
          fun _ => by simp [visit, hleave, moved]⟩
      | array => exact .inl ⟨⟨.ok none, keys, nowhere, state', []⟩, by simp,
          fun _ => by simp [visit, hleave, moved]⟩
  | opening shape =>
    rcases henter : p.enter shape (keyOf keys) state with ⟨fault | decision, state'⟩
    · exact .inl ⟨⟨.error fault, keys, nowhere, state', []⟩, by simp,
        fun _ => by simp [visit, henter, moved]⟩
    · cases decision with
      | unknown answer =>
        exact .inl ⟨⟨.error (.unknownDecision answer), keys, nowhere, state', []⟩, by simp,
          fun _ => by simp [visit, henter, follow, moved]⟩
      | descend =>
        cases shape with
        | object => exact .inl ⟨⟨.ok none, none :: keys, nowhere, state', []⟩, by simp,
            fun _ => by simp [visit, henter, follow, moved]⟩
        | array => exact .inl ⟨⟨.ok none, keys, nowhere, state', []⟩, by simp,
            fun _ => by simp [visit, henter, follow, moved]⟩
      | skip => exact .inr (.inl ⟨shape, state', rfl, henter, fun _ => by simp [visit, henter]⟩)
      | process =>
        exact .inr (.inr ⟨shape, state', rfl, henter, fun _ => by simp [visit, henter, follow]⟩)

theorem visit_ok (hlater : later.IsSilent) {t : Token} {handle : Option α}
    (h : (visit p t keys (before ts later (some t)) state).outcome = .ok handle) :
    (∃ (turn : Turn σ α) (us vs : List Token), ts = us ++ vs ∧
      ∀ later', visit p t keys (before us (.on later.limit later') (some t)) state =
        turn.moved (before [] (.on later.limit later') (lastToken (some t) us))) ∨
    ∃ rest current', rest.IsRestOf later ∧
      (visit p t keys (before ts later (some t)) state).cursor = before [] rest current' := by
  rcases visit_cases p t keys state with
    ⟨turn, -, hvisit⟩ | ⟨shape, state', rfl, -, hvisit⟩ | ⟨shape, state', rfl, -, hvisit⟩
  · exact .inl ⟨turn, [], ts, rfl, fun later' => hvisit _⟩
  · rcases exists_closes_or_staysOpen Nat.one_pos ts with ⟨us, vs, rfl, hus⟩ | hopen
    · refine .inl ⟨⟨.ok none, keys, before [] later none, state', []⟩, us, vs, rfl,
        fun later' => ?_⟩
      have hskip : (before (us ++ []) (.on later.limit later')
          (some (.opening shape))).skipChildren = _ := Cursor.skipChildren_before hus [] _
      rw [List.append_nil] at hskip
      simp [hvisit, follow, hskip, moved]
    · obtain ⟨rest, current', hrest, ⟨fault, hskip⟩ | ⟨-, hskip⟩⟩ :=
        Cursor.skipOpen_runs_out hlater hopen (some (.opening shape))
      · simp [hvisit, follow, Cursor.skipChildren, Token.isOpening, hskip] at h
      · refine .inr ⟨rest, current', hrest, ?_⟩
        simp [hvisit, follow, Cursor.skipChildren, Token.isOpening, hskip]
  · rw [hvisit] at h
    rcases exists_closes_or_staysOpen Nat.one_pos ts with ⟨us, vs, rfl, hus⟩ | hopen
    · obtain ⟨turn, read, left, rfl, hleft, hlocal⟩ :=
        process_local later.limit hus p keys (some (.opening shape)) state'
      have hhere := hlocal (later.behind vs)
      rw [← Feed.behind_on, Feed.on_limit, ← Cursor.before_append] at hhere
      rw [hhere] at h
      obtain rfl := hleft handle h
      refine .inl ⟨turn, read, vs, by simp, fun later' => ?_⟩
      rw [hvisit]
      simpa using hlocal later'
    · obtain ⟨-, rest, current', hrest, hcursor⟩ := process_unclosed hlater hopen h
      exact .inr ⟨rest, current', hrest, by rw [hvisit, hcursor]⟩

theorem process_ok_result {c : Cursor} {handle : Option α}
    (h : (process p keys c state).outcome = .ok handle) :
    ∃ state', ((p.build state).run (Reader.view ⟨c, []⟩)).result = (.ok handle, state') := by
  rcases hbuild : ((p.build state).run (Reader.view ⟨c, []⟩)).result with ⟨answer, state'⟩
  cases answer with
  | error fault => simp [process, hbuild] at h
  | ok built =>
    simp only [process, hbuild] at h
    split at h
    · cases h
    · exact ⟨state', by rw [← h]⟩

theorem traverse_onward {c c' : Cursor} {t : Token} (log : List Entry)
    (hnext : c.next = (.ok (some t), c')) (hvisit : (visit p t keys c' state).outcome = .ok none) :
    traverse p log keys c state =
      traverse p (log ++ (visit p t keys c' state).log) (visit p t keys c' state).keys
        (visit p t keys c' state).cursor (visit p t keys c' state).state := by
  rw [traverse_token log hnext, hvisit]

theorem traverse_stop {c c' : Cursor} {t : Token} (log : List Entry)
    (hnext : c.next = (.ok (some t), c')) (hvisit : (visit p t keys c' state).outcome ≠ .ok none) :
    traverse p log keys c state =
      { visit p t keys c' state with log := log ++ (visit p t keys c' state).log } := by
  rw [traverse_token log hnext]
  split
  · exact absurd ‹_› hvisit
  · rfl

/-! ## Traversals that bring a payload -/

/-- The traversal reads exactly `us`, with the same result whatever follows. -/
def ReadsJust (p : Policy σ α) (limit : DigitLimit) (log : List Entry)
    (keys : List (Option String)) (us : List Token) (current : Option Token) (state : σ) : Prop :=
  ∃ turn : Turn σ α, ∀ later, traverse p log keys (before us (.on limit later) current) state =
    turn.moved (before [] (.on limit later) (lastToken current us))

theorem ReadsJust.here {shape : Shape} {us : List Token} {state' : σ} {a : α}
    (hus : Closes 1 us)
    (hturn : ∀ c, visit p (.opening shape) keys c state = process p keys c state')
    (hprocess : (process p keys (before us later (some (.opening shape))) state').outcome =
      .ok (some a))
    (log : List Entry) (current : Option Token) :
    ReadsJust p later.limit log keys (.opening shape :: us) current state := by
  obtain ⟨turn, read, left, rfl, hleft, hlocal⟩ :=
    process_local later.limit hus p keys (some (.opening shape)) state'
  rw [← later.on_limit, hlocal] at hprocess
  obtain rfl := hleft _ hprocess
  have houtcome : turn.outcome = .ok (some a) := hprocess
  rw [List.append_nil] at hlocal ⊢
  refine ⟨{ turn with log := log ++ turn.log }, fun later' => ?_⟩
  have hstop : traverse p log keys _ state = _ := traverse_stop log
    (Cursor.next_before_cons (.opening shape) read (.on later.limit later') current)
    (by rw [hturn, hlocal]; simp [moved, houtcome])
  rw [hstop, hturn, hlocal]
  rfl

theorem ReadsJust.cons {limit : DigitLimit} {t : Token} {us vs : List Token} {turn : Turn σ α}
    {log : List Entry} (hnone : turn.outcome = .ok none)
    (hvisit : ∀ later, visit p t keys (before us (.on limit later) (some t)) state =
      turn.moved (before [] (.on limit later) (lastToken (some t) us)))
    (hvs : ReadsJust p limit (log ++ turn.log) turn.keys vs (lastToken (some t) us) turn.state)
    (current : Option Token) : ReadsJust p limit log keys (t :: (us ++ vs)) current state := by
  obtain ⟨found, hfound⟩ := hvs
  refine ⟨found, fun later => ?_⟩
  have hhere := hvisit (later.behind vs)
  rw [← Feed.behind_on, ← Cursor.before_append, ← Cursor.before_append, List.nil_append] at hhere
  have honward : traverse p log keys _ state = _ := traverse_onward log
    (Cursor.next_before_cons t (us ++ vs) (.on limit later) current) (by rw [hhere]; exact hnone)
  rw [hhere] at honward
  rw [honward, lastToken, lastToken_append]
  exact hfound later

theorem visit_item (hlater : later.IsSilent) {t : Token} {a : α}
    (h : (visit p t keys (before ts later (some t)) state).outcome = .ok (some a))
    (log : List Entry) (current : Option Token) :
    ∃ shape, t = .opening shape ∧
      Takes p keys (before (t :: ts) later current) state shape (before ts later (some t)) a ∧
      ((∃ inside rest, ts = inside ++ rest ∧ Closes 1 inside ∧
          ReadsJust p later.limit log keys (t :: inside) current state) ∨
        StaysOpen 1 ts ∧ later.Completes ∧ ∃ rest current', rest.IsRestOf later ∧
          (visit p t keys (before ts later (some t)) state).cursor = before [] rest current') := by
  rcases visit_cases p t keys state with
    ⟨turn, hne, hturn⟩ | ⟨shape, state', rfl, -, hturn⟩ | ⟨shape, state', rfl, henter, hturn⟩
  · rw [hturn] at h
    exact absurd h (hne a)
  · rw [hturn] at h
    simp only [follow] at h
    split at h <;> cases h
  · rw [hturn] at h ⊢
    obtain ⟨state'', hbuild⟩ := process_ok_result h
    refine ⟨shape, rfl, .here (Cursor.next_before_cons _ ts later current) henter hbuild, ?_⟩
    rcases exists_closes_or_staysOpen Nat.one_pos ts with ⟨us, vs, rfl, hus⟩ | hopen
    · rw [Cursor.before_append] at h
      have hjust := ReadsJust.here hus hturn h log current
      exact .inl ⟨us, vs, rfl, hus, hjust⟩
    · exact .inr ⟨hopen, process_unclosed hlater hopen h⟩

/-- A handle comes from a processed container, read up to its closing bracket and no further; or the
container is unclosed and the source has ended well. -/
theorem traverse_item (hlater : later.IsSilent) {log : List Entry} {a : α}
    (h : (traverse p log keys (before ts later current) state).outcome = .ok (some a)) :
    ∃ front shape back, ts = front ++ .opening shape :: back ∧
      Takes p keys (before ts later current) state shape
        (before back later (some (.opening shape))) a ∧
      ((∃ inside rest, back = inside ++ rest ∧ Closes 1 inside ∧
          ReadsJust p later.limit log keys (front ++ .opening shape :: inside) current state) ∨
        StaysOpen 1 back ∧ later.Completes ∧ ∃ rest current', rest.IsRestOf later ∧
          (traverse p log keys (before ts later current) state).cursor =
            before [] rest current') := by
  induction hn : ts.length using Nat.strongRecOn generalizing ts keys current state log with
  | ind n ih =>
    cases ts with
    | nil =>
      exact absurd h (traverse_over p log keys (Cursor.isOver_before hlater current) state a)
    | cons t ts =>
      have hnext := Cursor.next_before_cons t ts later current
      by_cases hnone : (visit p t keys (before ts later (some t)) state).outcome = .ok none
      · -- the traversal goes on behind what the visit has read
        rw [traverse_onward log hnext hnone] at h ⊢
        rcases visit_ok hlater hnone with
          ⟨turn, us, vs, rfl, hlocal⟩ | ⟨rest, current', hrest, hend⟩
        · have hhere := hlocal (later.behind vs)
          rw [← Feed.behind_on, Feed.on_limit, ← Cursor.before_append, ← Cursor.before_append,
            List.nil_append] at hhere
          have hlt : vs.length < n := by
            rw [← hn, List.length_cons, List.length_append]
            omega
          rw [hhere] at h ⊢
          obtain ⟨front, shape, back, rfl, htakes, hreads⟩ := ih _ hlt h rfl
          refine ⟨t :: (us ++ front), shape, back, by simp, ?_, ?_⟩
          · apply Takes.onward hnext hnone
            rw [hhere]
            exact htakes
          · apply hreads.imp_left
            rintro ⟨inside, rest, hback, hinside, hjust⟩
            refine ⟨inside, rest, hback, hinside, ?_⟩
            rw [hhere] at hnone
            simpa using hjust.cons hnone hlocal current
        · rw [hend] at h
          exact absurd h (traverse_over p _ _
            (Cursor.isOver_before (hlater.of_rest hrest) current') _ a)
      · -- the visit has brought the payload
        rw [traverse_stop log hnext hnone] at h ⊢
        obtain ⟨shape, rfl, htakes, hreads⟩ := visit_item hlater h log current
        exact ⟨[], shape, ts, rfl, htakes, hreads⟩

end Turn

def Pull.moved {β : Type} (pulled : Pull σ β) (c : Cursor) : Pull σ β :=
  { pulled with scene := { pulled.scene with cursor := c } }

namespace Walk

open Cursor (before)
open Turn (traverse Takes)

variable {p : Policy σ α} {w : Walk} {s : Scene σ} {state : σ} {count n : Nat} {later : Feed}
  {ts us vs : List Token} {current : Option Token}

/-! ## Pulls that bring an item -/

def IsMadeOf (p : Policy σ α) (item : Item α) (a : α) : Prop :=
  item = .handle a ∨ ∃ request serial state state',
    item = .request request ∧ p.request serial a state = (.ok request, state')

theorem pull_moved (hw : w.finished = false) {c c' d d' : Cursor} {turn : Turn σ α}
    (hturn : traverse p [] w.keys c state = turn.moved d)
    (hturn' : traverse p [] w.keys c' state = turn.moved d') (count : Nat) :
    w.pull p ⟨c', state, count⟩ = (w.pull p ⟨c, state, count⟩).moved d' := by
  simp only [pull, nextHandle, hw, hturn, hturn', Turn.moved, Bool.false_eq_true, ↓reduceIte]
  cases turn.outcome with
  | error fault => rfl
  | ok found =>
    cases found with
    | none => rfl
    | some a =>
      cases hwrites : w.writes with
      | false => simp [emit, Pull.moved]
      | true =>
        rcases hrequest : p.request count a turn.state with ⟨answer, state'⟩
        cases answer with
        | error fault => simp [hrequest, Pull.moved]
        | ok request => simp [hrequest, emit, Pull.moved]

theorem traverse_of_unfinished (h : (w.pull p s).walk.finished = false) :
    w.finished = false ∧ ∃ a, (traverse p [] w.keys s.cursor s.state).outcome = .ok (some a) := by
  cases hw : w.finished with
  | true =>
    rw [pull_finished p s hw, hw] at h
    cases h
  | false =>
    refine ⟨rfl, ?_⟩
    cases hturn : (traverse p [] w.keys s.cursor s.state).outcome with
    | error fault => simp [pull, nextHandle, hw, hturn] at h
    | ok found =>
      cases found with
      | none => simp [pull, nextHandle, hw, hturn] at h
      | some a => exact ⟨a, rfl⟩

theorem traverse_of_item {item : Item α} (h : (w.pull p s).outcome = .item item) :
    w.finished = false ∧ ∃ a, (traverse p [] w.keys s.cursor s.state).outcome = .ok (some a) ∧
      IsMadeOf p item a := by
  cases hw : w.finished with
  | true =>
    rw [pull_finished p s hw] at h
    cases h
  | false =>
    refine ⟨rfl, ?_⟩
    cases hturn : (traverse p [] w.keys s.cursor s.state).outcome with
    | error fault => simp [pull, nextHandle, hw, hturn] at h
    | ok found =>
      cases found with
      | none => simp [pull, nextHandle, hw, hturn] at h
      | some a =>
        refine ⟨a, rfl, ?_⟩
        simp only [pull, nextHandle, hw, hturn, Bool.false_eq_true, ↓reduceIte] at h
        split at h
        · split at h
          · rename_i hrequest
            exact .inr ⟨_, _, _, _, by simpa [emit, eq_comm] using h, hrequest⟩
          · cases h
        · exact .inl (by simpa [emit, eq_comm] using h)

/-! ## Runs of pulls -/

def outcomes (p : Policy σ α) (w : Walk) (s : Scene σ) : Nat → List (Outcome (Item α))
  | 0 => []
  | n + 1 => (w.pull p s).outcome :: outcomes p (w.pull p s).walk (w.pull p s).scene n

/-- The pulls read exactly `us`, with the same results whatever follows. -/
def ReadsJust (p : Policy σ α) (limit : DigitLimit) (w : Walk) (us : List Token)
    (current : Option Token) (state : σ) (count n : Nat) : Prop :=
  ∃ (brought : List (Outcome (Item α))) (w' : Walk) (state' : σ) (count' : Nat), ∀ later,
    outcomes p w ⟨before us (.on limit later) current, state, count⟩ n = brought ∧
      afterPulls p w ⟨before us (.on limit later) current, state, count⟩ n =
        (w', ⟨before [] (.on limit later) (lastToken current us), state', count'⟩)

theorem ReadsJust.nil (p : Policy σ α) (limit : DigitLimit) (w : Walk) (current : Option Token)
    (state : σ) (count : Nat) : ReadsJust p limit w [] current state count 0 :=
  ⟨[], w, state, count, fun _ => ⟨rfl, rfl⟩⟩

theorem ReadsJust.cons {limit : DigitLimit} {pulled : Pull σ (Item α)}
    (hpull : ∀ later, w.pull p ⟨before us (.on limit later) current, state, count⟩ =
      pulled.moved (before [] (.on limit later) (lastToken current us)))
    (hvs : ReadsJust p limit pulled.walk vs (lastToken current us) pulled.scene.state
      pulled.scene.count n) :
    ReadsJust p limit w (us ++ vs) current state count (n + 1) := by
  obtain ⟨brought, w', state', count', hrun⟩ := hvs
  refine ⟨pulled.outcome :: brought, w', state', count', fun later => ?_⟩
  obtain ⟨houtcomes, hafter⟩ := hrun later
  have hfirst := hpull (later.behind vs)
  rw [← Feed.behind_on, ← Cursor.before_append, ← Cursor.before_append,
    List.nil_append] at hfirst
  rw [outcomes, afterPulls, hfirst, lastToken_append]
  exact ⟨congrArg _ houtcomes, hafter⟩

theorem ReadsJust.cursor_eq {later : Feed} (h : ReadsJust p later.limit w us current state count n)
    (rest : List Token) :
    (afterPulls p w ⟨before (us ++ rest) later current, state, count⟩ n).2.cursor =
      before rest later (lastToken current us) := by
  obtain ⟨brought, w', state', count', hrun⟩ := h
  have hafter := (hrun (later.behind rest)).2
  rw [← Feed.behind_on, Feed.on_limit, ← Cursor.before_append, ← Cursor.before_append,
    List.nil_append] at hafter
  rw [hafter]

theorem pull_of_found (hw : w.finished = false) (hlater : later.IsSilent) {a : α}
    (hfound : (traverse p [] w.keys (before ts later current) state).outcome = .ok (some a))
    (count : Nat) :
    ∃ front shape back, ts = front ++ .opening shape :: back ∧
      Takes p w.keys (before ts later current) state shape
        (before back later (some (.opening shape))) a ∧
      ((∃ inside rest, back = inside ++ rest ∧ Closes 1 inside ∧
          ∀ later', w.pull p ⟨before (front ++ .opening shape :: inside)
              (.on later.limit later') current, state, count⟩ =
            (w.pull p ⟨before ts later current, state, count⟩).moved
              (before [] (.on later.limit later')
                (lastToken current (front ++ .opening shape :: inside)))) ∨
        StaysOpen 1 back ∧ later.Completes ∧ ∃ rest current', rest.IsRestOf later ∧
          (w.pull p ⟨before ts later current, state, count⟩).scene.cursor =
            before [] rest current') := by
  obtain ⟨front, shape, back, rfl, htakes, hreads⟩ := Turn.traverse_item hlater hfound
  refine ⟨front, shape, back, rfl, htakes, ?_⟩
  rcases hreads with ⟨inside, rest, rfl, hinside, turn, hturn⟩ |
    ⟨hopen, hcompletes, rest, current', hrest, hcursor⟩
  · refine .inl ⟨inside, rest, rfl, hinside, fun later' => ?_⟩
    have hhere := hturn (later.behind rest)
    rw [← Feed.behind_on, Feed.on_limit, ← Cursor.before_append, ← Cursor.before_append,
      List.append_assoc, List.cons_append] at hhere
    exact pull_moved hw hhere (hturn later') count
  · refine .inr ⟨hopen, hcompletes, rest, current', hrest, ?_⟩
    rw [cursor_pull, scene_nextHandle hw]
    exact hcursor

theorem unfinished_of_item {item : Item α}
    (hitem : ((afterPulls p w s n).1.pull p (afterPulls p w s n).2).outcome = .item item) :
    w.finished = false := by
  cases hw : w.finished with
  | false => rfl
  | true =>
    rw [afterPulls_finished hw] at hitem
    dsimp only at hitem
    rw [pull_finished p _ hw] at hitem
    cases hitem

/-- The container of an item, after any number of earlier pulls. -/
theorem item_of_pulls (hlater : later.IsSilent) (hcursor : s.cursor = before ts later current)
    {item : Item α}
    (hitem : ((afterPulls p w s n).1.pull p (afterPulls p w s n).2).outcome = .item item) :
    ∃ front shape back a, ts = front ++ .opening shape :: back ∧
      Takes p (afterPulls p w s n).1.keys (afterPulls p w s n).2.cursor
        (afterPulls p w s n).2.state shape (before back later (some (.opening shape))) a ∧
      IsMadeOf p item a ∧
      ((∃ inside rest, back = inside ++ rest ∧ Closes 1 inside ∧
          ReadsJust p later.limit w (front ++ .opening shape :: inside) current s.state s.count
            (n + 1)) ∨
        StaysOpen 1 back ∧ later.Completes ∧ ∃ rest current', rest.IsRestOf later ∧
          (afterPulls p w s (n + 1)).2.cursor = before [] rest current') := by
  induction n generalizing w s ts later current with
  | zero =>
    obtain ⟨c, state, count⟩ := s
    obtain rfl : c = before ts later current := hcursor
    obtain ⟨hw, a, hfound, hmade⟩ := traverse_of_item hitem
    obtain ⟨front, shape, back, hts, htakes, hreads⟩ := pull_of_found hw hlater hfound count
    refine ⟨front, shape, back, a, hts, htakes, hmade, hreads.imp_left ?_⟩
    rintro ⟨inside, rest, hback, hinside, hpull⟩
    refine ⟨inside, rest, hback, hinside, ?_⟩
    have hrun := ReadsJust.cons hpull (.nil p _ _ _ _ _)
    rwa [List.append_nil] at hrun
  | succ n ih =>
    rw [afterPulls] at hitem ⊢
    obtain ⟨hw, a₀, hfound⟩ := traverse_of_unfinished (unfinished_of_item hitem)
    obtain ⟨c, state, count⟩ := s
    obtain rfl : c = before ts later current := hcursor
    obtain ⟨front, shape, back, rfl, -, ⟨inside, more, rfl, -, hpull⟩ |
      ⟨-, -, rest, current', hrest, hend⟩⟩ := pull_of_found hw hlater hfound count
    · -- the other pulls read on behind the container that the first has handed out
      have hfirst := hpull (later.behind more)
      rw [← Feed.behind_on, Feed.on_limit, ← Cursor.before_append, ← Cursor.before_append,
        List.append_assoc, List.cons_append, List.nil_append] at hfirst
      obtain ⟨front', shape', back', a, hmore, htakes, hmade, hreads⟩ :=
        ih hlater (congrArg (·.scene.cursor) hfirst) hitem
      refine ⟨front ++ .opening shape :: (inside ++ front'), shape', back', a, by simp [hmore],
        htakes, hmade, ?_⟩
      apply hreads.imp_left
      rintro ⟨inside', rest, hback, hinside, hjust⟩
      refine ⟨inside', rest, hback, hinside, ?_⟩
      simpa using ReadsJust.cons hpull hjust
    · -- the source has nothing left to bring an item from
      obtain ⟨front', shape', back', a, hnil, -⟩ := ih (hlater.of_rest hrest) hend hitem
      simp at hnil

end Walk

end JsonCleave
