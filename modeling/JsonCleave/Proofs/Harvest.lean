import JsonCleave.Walk
import JsonCleave.Proofs.Enclosure
/-!
# All pulls as one run

Each pull resumes the traversal where the previous one ended, so pulling to the end is one run over
the tokens, in which handing out a payload is one step. The lemmas hold for every policy and source;
`quiet` drops the log.
-/

namespace JsonCleave

variable {σ α : Type}

namespace Turn

/-! ## The traversal, token by token -/

variable {p : Policy σ α} {keys : List (Option String)} {cursor cursor' : Cursor} {state : σ}

theorem traverse_end (log : List Entry) (hnext : cursor.next = (.ok none, cursor')) :
    traverse p log keys cursor state = ⟨.ok none, keys, cursor', state, log⟩ := by
  rw [traverse]
  split <;> rename_i heq <;> rw [hnext] at heq <;> simp_all

theorem traverse_fault {fault : Fault} (log : List Entry)
    (hnext : cursor.next = (.error fault, cursor')) :
    traverse p log keys cursor state = ⟨.error fault, keys, cursor', state, log⟩ := by
  rw [traverse]
  split <;> rename_i heq <;> rw [hnext] at heq <;> simp_all

theorem traverse_token {t : Token} (log : List Entry)
    (hnext : cursor.next = (.ok (some t), cursor')) :
    traverse p log keys cursor state =
      match (visit p t keys cursor' state).outcome with
      | .ok none =>
        traverse p (log ++ (visit p t keys cursor' state).log) (visit p t keys cursor' state).keys
          (visit p t keys cursor' state).cursor (visit p t keys cursor' state).state
      | _ =>
        { visit p t keys cursor' state with log := log ++ (visit p t keys cursor' state).log } := by
  rw [traverse]
  split <;> rename_i heq <;> rw [hnext] at heq
  · simp at heq
  · simp at heq
  · obtain ⟨ht, rfl⟩ := Prod.mk.inj heq
    obtain rfl : t = _ := by simpa using ht
    rfl

theorem traverse_append (p : Policy σ α) (earlier log : List Entry)
    (keys : List (Option String)) (cursor : Cursor) (state : σ) :
    traverse p (earlier ++ log) keys cursor state =
      { traverse p log keys cursor state with
        log := earlier ++ (traverse p log keys cursor state).log } := by
  fun_induction traverse p log keys cursor state with
  | case1 log keys cursor state fault cursor' hnext => rw [traverse_fault _ hnext]
  | case2 log keys cursor state cursor' hnext => rw [traverse_end _ hnext]
  | case3 log keys cursor state t cursor' hnext turn heq ih =>
    simp only [turn] at heq ih
    rw [traverse_token _ hnext, heq, List.append_assoc]
    exact ih
  | case4 log keys cursor state t cursor' hnext turn hne =>
    simp only [turn] at hne
    rw [traverse_token _ hnext]
    split
    · rename_i heq
      exact absurd heq hne
    · simp only [turn, List.append_assoc]

end Turn

namespace Walk

open Turn

/-! ## A pull, token by token -/

variable {p : Policy σ α} {w : Walk} {s : Scene σ} {c' : Cursor} {t : Token}

/-- A finished walk stops, and changes nothing. -/
theorem pull_finished (p : Policy σ α) (s : Scene σ) (hw : w.finished = true) :
    w.pull p s = ⟨.stopped, w, s, []⟩ := by
  simp [pull, nextHandle, hw]

theorem pull_end (hw : w.finished = false) (hnext : s.cursor.next = (.ok none, c')) :
    w.pull p s =
      ⟨.stopped, { w with finished := true }, { s with cursor := c' }, [.finished s.count]⟩ := by
  simp [pull, nextHandle, hw, traverse_end _ hnext]

theorem nextHandle_onward (hw : w.finished = false) (hnext : s.cursor.next = (.ok (some t), c'))
    (hvisit : (visit p t w.keys c' s.state).outcome = .ok none) :
    w.nextHandle p s =
      let turn := visit p t w.keys c' s.state
      let found := nextHandle p { w with keys := turn.keys }
        { s with cursor := turn.cursor, state := turn.state }
      { found with log := turn.log ++ found.log } := by
  have hlog := traverse_append p (visit p t w.keys c' s.state).log []
  rw [List.append_nil] at hlog
  simp only [nextHandle, hw, traverse_token _ hnext, hvisit, List.nil_append, hlog,
    Bool.false_eq_true, ↓reduceIte]
  split <;> simp

theorem pull_onward (hw : w.finished = false) (hnext : s.cursor.next = (.ok (some t), c'))
    (hvisit : (visit p t w.keys c' s.state).outcome = .ok none) :
    w.pull p s =
      let turn := visit p t w.keys c' s.state
      let found := pull p { w with keys := turn.keys }
        { s with cursor := turn.cursor, state := turn.state }
      { found with log := turn.log ++ found.log } := by
  simp only [pull, nextHandle_onward hw hnext hvisit]
  split
  · rfl
  · rfl
  · split
    · split <;> simp [emit]
    · simp [emit]

theorem pull_handle {a : α} (hw : w.finished = false) (hwrites : w.writes = false)
    (hnext : s.cursor.next = (.ok (some t), c'))
    (hvisit : (visit p t w.keys c' s.state).outcome = .ok (some a)) :
    w.pull p s =
      let turn := visit p t w.keys c' s.state
      ⟨.item (.handle a), { w with keys := turn.keys }, ⟨turn.cursor, turn.state, s.count + 1⟩,
        turn.log ++ [.emitted (s.count + 1)]⟩ := by
  simp [pull, nextHandle, hw, hwrites, traverse_token _ hnext, hvisit, emit]

theorem pull_visit_fault {fault : Fault} (hw : w.finished = false)
    (hnext : s.cursor.next = (.ok (some t), c'))
    (hvisit : (visit p t w.keys c' s.state).outcome = .error fault) :
    ∃ keys log, w.pull p s =
      let turn := visit p t w.keys c' s.state
      ⟨.failed (fault.leaving .traverse), { w with keys, finished := true },
        { s with cursor := turn.cursor, state := turn.state }, log⟩ := by
  refine ⟨(visit p t w.keys c' s.state).keys,
    (visit p t w.keys c' s.state).log ++ fault.reports .traverse, ?_⟩
  simp [pull, nextHandle, hw, traverse_token _ hnext, hvisit]

theorem pull_source_fault {fault : Fault} (hw : w.finished = false)
    (hnext : s.cursor.next = (.error fault, c')) :
    ∃ log, w.pull p s =
      ⟨.failed (fault.leaving .traverse), { w with finished := true }, { s with cursor := c' },
        log⟩ := by
  refine ⟨fault.reports .traverse, ?_⟩
  simp [pull, nextHandle, hw, traverse_fault _ hnext]

/-! ## All pulls -/

def Harvest.quiet (h : Harvest σ α) : Harvest σ α := { h with log := [] }

def Harvest.behind (handles : List α) (h : Harvest σ α) : Harvest σ α :=
  { h with items := handles.map .handle ++ h.items }

@[simp] theorem Harvest.behind_behind (earlier handles : List α) (h : Harvest σ α) :
    (h.behind handles).behind earlier = h.behind (earlier ++ handles) := by
  simp [behind]

theorem pullAll_item {i : Item α} (hpull : (w.pull p s).outcome = .item i) :
    w.pullAll p s =
      let later := pullAll p (w.pull p s).walk (w.pull p s).scene
      { later with items := i :: later.items, log := (w.pull p s).log ++ later.log } := by
  rw [pullAll]
  split <;> simp_all

theorem pullAll_stopped (hpull : (w.pull p s).outcome = .stopped) :
    w.pullAll p s =
      ⟨[], some (.ok ()), (w.pull p s).walk, (w.pull p s).scene, (w.pull p s).log⟩ := by
  rw [pullAll]
  split <;> simp_all

theorem pullAll_failed {fault : Fault} (hpull : (w.pull p s).outcome = .failed fault) :
    w.pullAll p s =
      ⟨[], some (.error fault), (w.pull p s).walk, (w.pull p s).scene, (w.pull p s).log⟩ := by
  rw [pullAll]
  split <;> simp_all

/-- More pulls than pending deliveries are all pulls. -/
theorem pullMany_eq_pullAll {n : Nat} (hn : s.cursor.pending.length < n) :
    w.pullMany p s n = w.pullAll p s := by
  induction n generalizing w s with
  | zero => omega
  | succ n ih =>
    rw [pullMany]
    match hpull : (w.pull p s).outcome with
    | .item i =>
      have hlt := length_pending_pull_lt hpull
      rw [pullAll_item hpull, ← ih (by omega)]
    | .stopped => rw [pullAll_stopped hpull]
    | .failed fault => rw [pullAll_failed hpull]

theorem quiet_pullAll_congr {w' : Walk} {s' : Scene σ} {log : List Entry}
    (hpull : w.pull p s = { w'.pull p s' with log }) :
    (w.pullAll p s).quiet = (w'.pullAll p s').quiet := by
  have houtcome : (w.pull p s).outcome = (w'.pull p s').outcome := by rw [hpull]
  cases houtcome' : (w'.pull p s').outcome with
  | item i =>
    rw [pullAll_item (houtcome.trans houtcome'), pullAll_item houtcome', hpull]
    rfl
  | stopped =>
    rw [pullAll_stopped (houtcome.trans houtcome'), pullAll_stopped houtcome', hpull]
    rfl
  | failed fault =>
    rw [pullAll_failed (houtcome.trans houtcome'), pullAll_failed houtcome', hpull]
    rfl

theorem quiet_pullAll_onward (hw : w.finished = false)
    (hnext : s.cursor.next = (.ok (some t), c'))
    (hvisit : (visit p t w.keys c' s.state).outcome = .ok none) :
    (w.pullAll p s).quiet =
      let turn := visit p t w.keys c' s.state
      (pullAll p { w with keys := turn.keys }
        { s with cursor := turn.cursor, state := turn.state }).quiet :=
  quiet_pullAll_congr (pull_onward hw hnext hvisit)

theorem quiet_pullAll_handle {a : α} (hw : w.finished = false) (hwrites : w.writes = false)
    (hnext : s.cursor.next = (.ok (some t), c'))
    (hvisit : (visit p t w.keys c' s.state).outcome = .ok (some a)) :
    (w.pullAll p s).quiet =
      let turn := visit p t w.keys c' s.state
      (pullAll p { w with keys := turn.keys }
        ⟨turn.cursor, turn.state, s.count + 1⟩).quiet.behind [a] := by
  have hpull := pull_handle hw hwrites hnext hvisit
  rw [pullAll_item (by rw [hpull]), hpull]
  rfl

theorem quiet_pullAll_end (hw : w.finished = false) (hnext : s.cursor.next = (.ok none, c')) :
    (w.pullAll p s).quiet =
      ⟨[], some (.ok ()), { w with finished := true }, { s with cursor := c' }, []⟩ := by
  have hpull := pull_end (p := p) hw hnext
  rw [pullAll_stopped (by rw [hpull]), hpull]
  rfl

theorem quiet_pullAll_visit_fault {fault : Fault} (hw : w.finished = false)
    (hnext : s.cursor.next = (.ok (some t), c'))
    (hvisit : (visit p t w.keys c' s.state).outcome = .error fault) :
    ∃ keys, (w.pullAll p s).quiet =
      let turn := visit p t w.keys c' s.state
      ⟨[], some (.error (fault.leaving .traverse)), { w with keys, finished := true },
        { s with cursor := turn.cursor, state := turn.state }, []⟩ := by
  obtain ⟨keys, log, hpull⟩ := pull_visit_fault hw hnext hvisit
  refine ⟨keys, ?_⟩
  rw [pullAll_failed (by rw [hpull]), hpull]
  rfl

theorem quiet_pullAll_source_fault {fault : Fault} (hw : w.finished = false)
    (hnext : s.cursor.next = (.error fault, c')) :
    (w.pullAll p s).quiet =
      ⟨[], some (.error (fault.leaving .traverse)), { w with finished := true },
        { s with cursor := c' }, []⟩ := by
  obtain ⟨log, hpull⟩ := pull_source_fault (p := p) hw hnext
  rw [pullAll_failed (by rw [hpull]), hpull]
  rfl

/-! ## Tokens in front of any source -/

/-- The handle of a container depends on its tokens only, and the container is read to its end. -/
theorem process_before {ts : List Token} (hts : Closes 1 ts) {limit : DigitLimit}
    {current : Option Token} {state state' : σ} {handle : Option α}
    (hrun : ((p.build state).run
      (Reader.view ⟨.before ts (.finished limit) current, []⟩)).result = (.ok handle, state'))
    (keys : List (Option String)) (us : List Token) (later : Feed) :
    ∃ log, process p keys (.before (ts ++ us) (.on limit later) current) state =
      ⟨.ok handle, keys, .before us (.on limit later) (lastToken current ts), state', log⟩ := by
  obtain ⟨result, log, e, hbecomes, hlocal⟩ :=
    (p.build state).run_local ⟨limit, ts, current, [], 1, hts⟩
  have hresult : result = (.ok handle, state') := by
    rw [← hrun]
    exact (congrArg Reading.Run.result (hlocal (.finished limit))).symm
  obtain ⟨rfl, hlength, -⟩ := id hbecomes
  have hfurther : e.further = [] := List.length_eq_zero_iff.mp hlength
  -- to the container the tokens behind it are part of what follows
  have hahead : Cursor.before (ts ++ us) (.on e.limit later) current =
      .before ts (.on e.limit (later.behind us)) current := by
    simp [Cursor.before, Feed.behind, Feed.on]
  have hreader := hlocal (later.behind us)
  have hdrain := Reader.drain_before e.closes [] (.on e.limit (later.behind us)) e.current
  rw [List.append_nil, hbecomes.lastToken_eq] at hdrain
  refine ⟨log, ?_⟩
  simp only [Excerpt.reader, hfurther, List.nil_append] at hreader
  simp only [process, Reader.view, hahead, hreader, hresult, hdrain]
  rfl

theorem quiet_pullAll_before {keys keys' : List (Option String)} {ts : List Token} {later : Feed}
    {current : Option Token} {state state' : σ} {count : Nat} {handle : Option α}
    {log : List Entry}
    (hvisit : visit p t keys (.before ts later (some t)) state =
      ⟨.ok handle, keys', c', state', log⟩) :
    (pullAll p { keys } ⟨.before (t :: ts) later current, state, count⟩).quiet =
      (pullAll p { keys := keys' } ⟨c', state', count + handle.toList.length⟩).quiet.behind
        handle.toList := by
  cases handle with
  | none =>
    rw [quiet_pullAll_onward rfl (Cursor.next_before_cons t ts later current) (by rw [hvisit]),
      hvisit]
    rfl
  | some a =>
    rw [quiet_pullAll_handle rfl rfl (Cursor.next_before_cons t ts later current)
      (by rw [hvisit]), hvisit]
    rfl

/-! ## What tokens yield -/

/-- The tokens `ts` lead a walk from `keys` and a state to others, and bring `payloads`, whatever
follows them. -/
def Yields (p : Policy σ α) (limit : DigitLimit) (ts : List Token)
    (keys : List (Option String)) (state : σ) (handles : List α) (keys' : List (Option String))
    (state' : σ) : Prop :=
  ∀ us later current count,
    (pullAll p { keys } ⟨.before (ts ++ us) (.on limit later) current, state, count⟩).quiet =
      (pullAll p { keys := keys' }
        ⟨.before us (.on limit later) (lastToken current ts), state',
          count + handles.length⟩).quiet.behind handles

variable {limit : DigitLimit} {ts us : List Token} {keys keys' keys'' : List (Option String)}
  {state state' state'' : σ} {handles handles' : List α} {shape : Shape}

theorem Yields.nil (p : Policy σ α) (keys : List (Option String)) (state : σ) :
    Yields p limit [] keys state [] keys state := fun _ _ _ _ => rfl

theorem Yields.append (hts : Yields p limit ts keys state handles keys' state')
    (hus : Yields p limit us keys' state' handles' keys'' state'') :
    Yields p limit (ts ++ us) keys state (handles ++ handles') keys'' state'' := by
  intro vs later current count
  rw [List.append_assoc, hts, hus, Harvest.behind_behind, lastToken_append, List.length_append,
    Nat.add_assoc]

theorem Yields.token
    (hvisit : ∀ cursor, visit p t keys cursor state = ⟨.ok none, keys', cursor, state', []⟩) :
    Yields p limit [t] keys state [] keys' state' :=
  fun us later _ _ => quiet_pullAll_before (hvisit (.before us (.on limit later) (some t)))

theorem Yields.key (p : Policy σ α) (limit : DigitLimit) (name : String)
    (keys : List (Option String)) (state : σ) :
    Yields p limit [.key name] keys state [] (some name :: keys.tail) state :=
  .token fun _ => rfl

theorem Yields.scalar (p : Policy σ α) (value : Scalar) (keys : List (Option String))
    (state : σ) : Yields p limit [.scalar value] keys state [] keys state :=
  .token fun _ => rfl

def keysInside : Shape → List (Option String) → List (Option String)
  | .object, keys => none :: keys
  | .array, keys => keys

theorem Yields.descend (henter : p.enter shape (keyOf keys) state = (.ok .descend, state')) :
    Yields p limit [.opening shape] keys state [] (keysInside shape keys) state' := by
  refine .token fun cursor => ?_
  simp only [visit, henter]
  cases shape <;> rfl

theorem Yields.skip {v : Tree} (hv : v.shape? = some shape)
    (henter : p.enter shape (keyOf keys) state = (.ok .skip, state')) :
    Yields p limit v.tokens keys state [] keys state' := by
  intro us later current count
  have hvisit : visit p (.opening shape) keys
      (.before (v.laterTokens ++ us) (.on limit later) (some (.opening shape))) state =
        ⟨.ok none, keys, .before us (.on limit later)
          (lastToken (some (.opening shape)) v.laterTokens), state', []⟩ := by
    simp only [visit, henter, follow,
      Cursor.skipChildren_before (Tree.closes_laterTokens hv)]
  rw [Tree.tokens_of_shape hv]
  exact quiet_pullAll_before hvisit

theorem Yields.process {v : Tree} {handle : Option α} (hv : v.shape? = some shape)
    (henter : p.enter shape (keyOf keys) state = (.ok .process, state'))
    (hrun : ((p.build state').run (v.view limit)).result = (.ok handle, state'')) :
    Yields p limit v.tokens keys state handle.toList keys state'' := by
  intro us later current count
  have htokens := Tree.tokens_of_shape hv
  obtain ⟨log, hprocess⟩ := process_before (Tree.closes_laterTokens hv) hrun keys us later
  rw [htokens, List.head?_cons] at hprocess
  have hvisit : visit p (.opening shape) keys
      (.before (v.laterTokens ++ us) (.on limit later) (some (.opening shape))) state =
        ⟨.ok handle, keys, .before us (.on limit later)
          (lastToken (some (.opening shape)) v.laterTokens), state'', log⟩ := by
    simp only [visit, henter, follow, hprocess]
  rw [htokens]
  exact quiet_pullAll_before hvisit

end Walk

end JsonCleave
