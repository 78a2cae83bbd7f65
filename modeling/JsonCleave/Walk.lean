import JsonCleave.Policy
/-!
# Walks: splitting a stream pull by pull

A walk goes through the tokens of a cursor and stops at each container that a policy
takes. It keeps the keys of the objects it is in, and whether it has ended. The
cursor, the policy's state and the count of payloads may be shared with other walks; they are
passed in and handed back by every pull.
-/

namespace JsonCleave

variable {σ α : Type}

/-- Result of handling one or more tokens: a handle, nothing, or a fault, and the state after it. -/
structure Turn (σ α : Type) where
  outcome : Except Fault (Option α)
  keys : List (Option String)
  cursor : Cursor
  state : σ
  log : List Entry

namespace Turn

/-- Processes a container: builds its handle from a view, then drains the view. -/
def process (p : Policy σ α) (keys : List (Option String)) (cursor : Cursor) (state : σ) :
    Turn σ α :=
  let run := (p.build state).run (Reader.view ⟨cursor, []⟩)
  match run.result with
  | (.error fault, state') => ⟨.error fault, keys, run.reader.cursor, state', run.log⟩
  | (.ok handle, state') =>
    match run.reader.drain with
    | (.error fault, r) => ⟨.error fault, keys, r.cursor, state', run.log⟩
    | (.ok _, r) => ⟨.ok handle, keys, r.cursor, state', run.log⟩

/-- Carries out a decision. Descending into an object pushes a key, which is none until a member
name is read. -/
def follow (p : Policy σ α) (shape : Shape) (decision : Decision)
    (keys : List (Option String)) (cursor : Cursor) (state : σ) : Turn σ α :=
  match decision with
  | .descend =>
    match shape with
    | .object => ⟨.ok none, none :: keys, cursor, state, []⟩
    | .array => ⟨.ok none, keys, cursor, state, []⟩
  | .process => process p keys cursor state
  | .skip =>
    match cursor.skipChildren with
    | (.error fault, cursor') => ⟨.error fault, keys, cursor', state, []⟩
    | (.ok _, cursor') => ⟨.ok none, keys, cursor', state, []⟩
  | .unknown answer => ⟨.error (.unknownDecision answer), keys, cursor, state, []⟩

def keyOf (keys : List (Option String)) : Option String := keys.head?.join

def visit (p : Policy σ α) (t : Token) (keys : List (Option String)) (cursor : Cursor)
    (state : σ) : Turn σ α :=
  match t with
  | .key name => ⟨.ok none, some name :: keys.tail, cursor, state, []⟩
  | .scalar _ => ⟨.ok none, keys, cursor, state, []⟩
  | .opening shape =>
    match p.enter shape (keyOf keys) state with
    | (.error fault, state') => ⟨.error fault, keys, cursor, state', []⟩
    | (.ok decision, state') => follow p shape decision keys cursor state'
  | .closing shape =>
    match p.leave shape (keyOf keys) state with
    | (.error fault, state') => ⟨.error fault, keys, cursor, state', []⟩
    | (.ok _, state') =>
      match shape with
      | .object => ⟨.ok none, keys.tail, cursor, state', []⟩
      | .array => ⟨.ok none, keys, cursor, state', []⟩

theorem length_pending_process_le (p : Policy σ α) (keys : List (Option String))
    (cursor : Cursor) (state : σ) :
    (process p keys cursor state).cursor.pending.length ≤ cursor.pending.length := by
  have hrun := (p.build state).length_pending_run_le (Reader.view ⟨cursor, []⟩)
  have hdrain := ((p.build state).run (Reader.view ⟨cursor, []⟩)).reader.length_pending_drain_le
  unfold process
  simp only []
  split
  · exact hrun
  · split <;> (rename_i heq; rw [heq] at hdrain; exact Nat.le_trans hdrain hrun)

theorem length_pending_follow_le (p : Policy σ α) (shape : Shape) (decision : Decision)
    (keys : List (Option String)) (cursor : Cursor) (state : σ) :
    (follow p shape decision keys cursor state).cursor.pending.length ≤
      cursor.pending.length := by
  have hskip := cursor.length_pending_skipChildren_le
  unfold follow
  split
  · split <;> exact Nat.le_refl _
  · exact length_pending_process_le p keys cursor state
  · split <;> simp_all
  · exact Nat.le_refl _

theorem length_pending_visit_le (p : Policy σ α) (t : Token) (keys : List (Option String))
    (cursor : Cursor) (state : σ) :
    (visit p t keys cursor state).cursor.pending.length ≤ cursor.pending.length := by
  unfold visit
  split
  · exact Nat.le_refl _
  · exact Nat.le_refl _
  · split
    · exact Nat.le_refl _
    · exact length_pending_follow_le p _ _ _ _ _
  · split
    · exact Nat.le_refl _
    · split <;> exact Nat.le_refl _

def traverse (p : Policy σ α) (log : List Entry) (keys : List (Option String))
    (cursor : Cursor) (state : σ) : Turn σ α :=
  match _h : cursor.next with
  | (.error fault, cursor') => ⟨.error fault, keys, cursor', state, log⟩
  | (.ok none, cursor') => ⟨.ok none, keys, cursor', state, log⟩
  | (.ok (some t), cursor') =>
    let turn := visit p t keys cursor' state
    match turn.outcome with
    | .ok none => traverse p (log ++ turn.log) turn.keys turn.cursor turn.state
    | _ => { turn with log := log ++ turn.log }
termination_by cursor.pending.length
decreasing_by
  exact Nat.lt_of_le_of_lt (length_pending_visit_le p t keys cursor' state)
    (Cursor.length_pending_next ‹_›)

theorem length_pending_traverse_le (p : Policy σ α) (log : List Entry)
    (keys : List (Option String)) (cursor : Cursor) (state : σ) :
    (traverse p log keys cursor state).cursor.pending.length ≤ cursor.pending.length := by
  fun_induction traverse p log keys cursor state with
  | case1 _ _ cursor _ _ _ h => have := cursor.length_pending_next_le; simp_all
  | case2 _ _ cursor _ _ h => have := cursor.length_pending_next_le; simp_all
  | case3 log keys cursor state t cursor' h turn heq ih =>
    have hvisit := length_pending_visit_le p t keys cursor' state
    have hnext := Cursor.length_pending_next h
    exact Nat.le_trans ih (Nat.le_of_lt (Nat.lt_of_le_of_lt hvisit hnext))
  | case4 log keys cursor state t cursor' h turn heq =>
    have hvisit := length_pending_visit_le p t keys cursor' state
    have hnext := Cursor.length_pending_next h
    exact Nat.le_of_lt (Nat.lt_of_le_of_lt hvisit hnext)

/-- A handle costs at least one token. -/
theorem length_pending_traverse_lt {p : Policy σ α} {log : List Entry}
    {keys : List (Option String)} {cursor : Cursor} {state : σ} {a : α}
    (h : (traverse p log keys cursor state).outcome = .ok (some a)) :
    (traverse p log keys cursor state).cursor.pending.length < cursor.pending.length := by
  fun_induction traverse p log keys cursor state with
  | case1 => simp at h
  | case2 => simp at h
  | case3 log keys cursor state t cursor' hnext turn heq ih =>
    have hvisit := length_pending_visit_le p t keys cursor' state
    exact Nat.lt_trans (ih h) (Nat.lt_of_le_of_lt hvisit (Cursor.length_pending_next hnext))
  | case4 log keys cursor state t cursor' hnext turn heq =>
    have hvisit := length_pending_visit_le p t keys cursor' state
    exact Nat.lt_of_le_of_lt hvisit (Cursor.length_pending_next hnext)

end Turn

inductive Outcome (α : Type) where
  | item (a : α)
  | stopped
  | failed (fault : Fault)
deriving Repr

inductive Item (α : Type) where
  | handle (a : α)
  | request (r : WriteRequest α)
deriving Repr

/-- State shared by the walks over one source: cursor, policy state, and number of items
handed out. -/
structure Scene (σ : Type) where
  cursor : Cursor
  state : σ
  count : Nat := 0

/-- State of one walk; `keys` has one entry for each object descended into, the innermost first. -/
structure Walk where
  writes : Bool := false
  keys : List (Option String) := []
  finished : Bool := false
deriving DecidableEq, Repr

structure Pull (σ α : Type) where
  outcome : Outcome α
  walk : Walk
  scene : Scene σ
  log : List Entry

namespace Walk

/-- The next handle. Bad input is reported as an interruption of the traversal; a fault or the end
of the tokens finishes the walk. -/
def nextHandle (p : Policy σ α) (w : Walk) (s : Scene σ) : Pull σ α :=
  if w.finished then ⟨.stopped, w, s, []⟩
  else
    let turn := Turn.traverse p [] w.keys s.cursor s.state
    let scene := { s with cursor := turn.cursor, state := turn.state }
    match turn.outcome with
    | .ok (some a) => ⟨.item a, { w with keys := turn.keys }, scene, turn.log⟩
    | .ok none =>
      ⟨.stopped, { w with keys := turn.keys, finished := true }, scene,
        turn.log ++ [.finished s.count]⟩
    | .error fault =>
      ⟨.failed (fault.leaving .traverse), { w with keys := turn.keys, finished := true }, scene,
        turn.log ++ fault.reports .traverse⟩

def emit (item : Item α) (found : Pull σ α) : Pull σ (Item α) :=
  let count := found.scene.count + 1
  ⟨.item item, found.walk, { found.scene with count },
    found.log ++ [.emitted count]⟩

/-- The next item. A refused write request fails the pull but does not finish the walk. -/
def pull (p : Policy σ α) (w : Walk) (s : Scene σ) : Pull σ (Item α) :=
  let found := w.nextHandle p s
  match found.outcome with
  | .stopped => ⟨.stopped, found.walk, found.scene, found.log⟩
  | .failed fault => ⟨.failed fault, found.walk, found.scene, found.log⟩
  | .item a =>
    if w.writes then
      match p.request found.scene.count a found.scene.state with
      | (.ok request, state) =>
        emit (.request request) { found with scene := { found.scene with state } }
      | (.error fault, state) =>
        ⟨.failed fault, found.walk, { found.scene with state }, found.log⟩
    else emit (.handle a) found

theorem length_pending_nextHandle_lt {p : Policy σ α} {w : Walk} {s : Scene σ} {a : α}
    (h : (w.nextHandle p s).outcome = .item a) :
    (w.nextHandle p s).scene.cursor.pending.length < s.cursor.pending.length := by
  unfold nextHandle at h ⊢
  split at h
  · simp at h
  · simp only [] at h ⊢
    rename_i hfinished
    simp only [hfinished, ↓reduceIte, Bool.false_eq_true]
    split at h <;> simp_all
    rename_i heq
    exact Turn.length_pending_traverse_lt heq

/-- An item costs at least one token. -/
theorem length_pending_pull_lt {p : Policy σ α} {w : Walk} {s : Scene σ} {i : Item α}
    (h : (w.pull p s).outcome = .item i) :
    (w.pull p s).scene.cursor.pending.length < s.cursor.pending.length := by
  unfold pull at h ⊢
  simp only [] at h ⊢
  split at h
  · simp at h
  · simp at h
  · rename_i a heq
    have := length_pending_nextHandle_lt heq
    simp only [heq]
    split
    · rename_i hwrites
      simp only [hwrites, ↓reduceIte] at h
      split at h
      · rename_i hrequest
        simpa [hrequest, emit] using this
      · simp at h
    · simpa [emit] using this

theorem length_pending_nextHandle_le (p : Policy σ α) (w : Walk) (s : Scene σ) :
    (w.nextHandle p s).scene.cursor.pending.length ≤ s.cursor.pending.length := by
  have := Turn.length_pending_traverse_le p [] w.keys s.cursor s.state
  unfold nextHandle
  split
  · exact Nat.le_refl _
  · simp only []
    split <;> exact this

theorem length_pending_pull_le (p : Policy σ α) (w : Walk) (s : Scene σ) :
    (w.pull p s).scene.cursor.pending.length ≤ s.cursor.pending.length := by
  have := length_pending_nextHandle_le p w s
  unfold pull
  simp only []
  split
  · exact this
  · exact this
  · split
    · split <;> exact this
    · exact this

/-- Items of a sequence of pulls, the outcome of the last pull if it brought no item, and the state
after it. -/
structure Harvest (σ α : Type) where
  items : List (Item α)
  outcome : Option (Except Fault Unit)
  walk : Walk
  scene : Scene σ
  log : List Entry

def pullAll (p : Policy σ α) (w : Walk) (s : Scene σ) : Harvest σ α :=
  let pulled := w.pull p s
  match _h : pulled.outcome with
  | .item i =>
    let later := pullAll p pulled.walk pulled.scene
    { later with items := i :: later.items, log := pulled.log ++ later.log }
  | .stopped => ⟨[], some (.ok ()), pulled.walk, pulled.scene, pulled.log⟩
  | .failed fault => ⟨[], some (.error fault), pulled.walk, pulled.scene, pulled.log⟩
termination_by s.cursor.pending.length
decreasing_by exact length_pending_pull_lt ‹_›

/-- At most `n` pulls. The outcome is none if all of them brought items. -/
def pullMany (p : Policy σ α) (w : Walk) (s : Scene σ) : Nat → Harvest σ α
  | 0 => ⟨[], none, w, s, []⟩
  | n + 1 =>
    let pulled := w.pull p s
    match pulled.outcome with
    | .item i =>
      let later := pullMany p pulled.walk pulled.scene n
      { later with items := i :: later.items, log := pulled.log ++ later.log }
    | .stopped => ⟨[], some (.ok ()), pulled.walk, pulled.scene, pulled.log⟩
    | .failed fault => ⟨[], some (.error fault), pulled.walk, pulled.scene, pulled.log⟩

structure Shared (σ α : Type) where
  items : List (Item α)
  faults : List Fault
  walk : Walk
  scene : Scene σ
  log : List Entry

def pullShared (p : Policy σ α) (w : Walk) (s : Scene σ) : Nat → Shared σ α
  | 0 => ⟨[], [], w, s, []⟩
  | n + 1 =>
    let harvest := w.pullAll p s
    let later := pullShared p harvest.walk harvest.scene n
    let faults :=
      match harvest.outcome with
      | some (.error fault) => fault :: later.faults
      | _ => later.faults
    { later with
      items := harvest.items ++ later.items
      faults
      log := harvest.log ++ later.log }

end Walk

end JsonCleave
