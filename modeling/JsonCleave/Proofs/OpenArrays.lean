import JsonCleave.Proofs.Document
import JsonCleave.Proofs.Interruption
/-!
# Open arrays of the array policy

At most one array is open. A pull that brings an item ends inside it, and any other pull finishes
its walk. While an array is open, the pulls of walks outside of it leave it open and take their
containers for its elements.
-/

namespace JsonCleave

variable {σ α β : Type}

namespace Item

def content : Item α → α
  | .handle a => a
  | .request r => r.content

def wrap (writes : Bool) (serial : Nat) (a : α) : Item α :=
  if writes then .request (.document serial a) else .handle a

@[simp] theorem content_wrap (writes : Bool) (serial : Nat) (a : α) :
    (wrap writes serial a).content = a := by
  cases writes <;> rfl

end Item

namespace Outcome

def map (f : α → β) : Outcome α → Outcome β
  | .item a => .item (f a)
  | .stopped => .stopped
  | .failed fault => .failed fault

theorem eq_item_of_map_eq {f : α → β} {outcome : Outcome α} {b : β}
    (h : outcome.map f = .item b) : ∃ a, outcome = .item a ∧ f a = b := by
  cases outcome with
  | item a => exact ⟨a, rfl, by simpa [map] using h⟩
  | stopped => simp [map] at h
  | failed fault => simp [map] at h

theorem map_eq_stopped {f : α → β} {outcome : Outcome α} :
    outcome.map f = .stopped ↔ outcome = .stopped := by
  cases outcome <;> simp [map]

theorem map_eq_failed {f : α → β} {outcome : Outcome α} {fault : Fault} :
    outcome.map f = .failed fault ↔ outcome = .failed fault := by
  cases outcome <;> simp [map]

end Outcome

/-- No pull on the cursor delivers a token. -/
def Cursor.IsOver (c : Cursor) : Prop := ∀ t c', c.next ≠ (.ok (some t), c')

theorem Feed.Halts.isOver {later : Feed} {ending : Ending} (h : later.Halts ending)
    (current : Option Token) : (Cursor.before [] later current).IsOver := by
  intro t c' hnext
  obtain ⟨deliveries, ending', limit⟩ := later
  rcases h with hhead | ⟨rfl, rfl⟩
  · cases deliveries with
    | nil => simp at hhead
    | cons delivery rest =>
      obtain rfl : delivery = .halt ending := by simpa using hhead
      exact Cursor.halt_ne_some _ _ _ _ hnext
  · exact Cursor.halt_ne_some _ _ _ _ hnext

theorem Cursor.exists_next_before_complete {later : Feed} (hlater : later.Halts .complete) :
    ∃ rest, ∀ current, (before [] later current).next = (.ok none, before [] rest none) := by
  obtain ⟨deliveries, ending, limit⟩ := later
  rcases hlater with hhead | ⟨hnil, hending⟩
  · cases deliveries with
    | nil => simp at hhead
    | cons delivery rest =>
      obtain rfl : delivery = .halt .complete := by simpa using hhead
      exact ⟨⟨rest, ending, limit⟩, fun _ => rfl⟩
  · dsimp only at hnil hending
    subst hnil hending
    exact ⟨.finished limit, fun _ => rfl⟩

theorem Cursor.next_before_complete {later : Feed} (hlater : later.Halts .complete)
    (current : Option Token) : ∃ c', (before [] later current).next = (.ok none, c') := by
  obtain ⟨rest, hend⟩ := exists_next_before_complete hlater
  exact ⟨_, hend current⟩

namespace Policy

open Turn (visit process traverse)
open Walk (pull)

/-! ## The number of open arrays -/

theorem state_process_array (keys : List (Option String)) (c : Cursor) (openArrays : Nat) :
    (process array keys c openArrays).state = openArrays := by
  have hbuild : ((array.build openArrays).run (Reader.view ⟨c, []⟩)).result.2 = openArrays := by
    simp only [array, Program.run_ofReading, Reading.run_map]
  unfold process
  dsimp only
  split
  · rename_i heq
    rw [heq] at hbuild
    exact hbuild
  · rename_i heq
    rw [heq] at hbuild
    split <;> exact hbuild

theorem visit_array_opening (shape : Shape) (keys : List (Option String)) (c : Cursor) :
    visit array (.opening shape) keys c 1 = process array keys c 1 := by
  cases shape <;> rfl

/-- At most one array is open, and a handle is found inside one. -/
theorem state_visit_array (t : Token) (keys : List (Option String)) (c : Cursor)
    {openArrays : Nat} (h : openArrays ≤ 1) :
    (visit array t keys c openArrays).state ≤ 1 ∧
      ∀ a, (visit array t keys c openArrays).outcome = .ok (some a) →
        (visit array t keys c openArrays).state = 1 := by
  obtain rfl | rfl : openArrays = 0 ∨ openArrays = 1 := by omega
  · cases t with
    | opening shape =>
      cases shape <;> simp [visit, array, enterObject, enterArrayCounting, Turn.follow]
    | closing shape => cases shape <;> simp [visit, array, leaveContainer]
    | key name => simp [visit]
    | scalar value => simp [visit]
  · cases t with
    | opening shape => simp [visit_array_opening, state_process_array]
    | closing shape => cases shape <;> simp [visit, array, leaveContainer]
    | key name => simp [visit]
    | scalar value => simp [visit]

theorem state_traverse_array (log : List Entry) (keys : List (Option String)) (c : Cursor)
    {openArrays : Nat} (h : openArrays ≤ 1) :
    (traverse array log keys c openArrays).state ≤ 1 ∧
      ∀ a, (traverse array log keys c openArrays).outcome = .ok (some a) →
        (traverse array log keys c openArrays).state = 1 := by
  fun_induction traverse array log keys c openArrays with
  | case1 => exact ⟨h, by simp⟩
  | case2 => exact ⟨h, by simp⟩
  | case3 log keys c openArrays t c' hnext turn heq ih => exact ih (state_visit_array t keys c' h).1
  | case4 log keys c openArrays t c' hnext turn hne => exact state_visit_array t keys c' h

/-! ## Pulls -/

@[simp] theorem request_array (serial : Nat) (payload : Payload) (openArrays : Nat) :
    array.request serial payload openArrays = (.ok (.document serial payload), openArrays) := rfl

/-- A pull of the array policy, by the result of its traversal. -/
theorem pull_array_eq {w : Walk} (hw : w.finished = false) (s : Scene Nat) :
    w.pull array s =
      let turn := traverse array [] w.keys s.cursor s.state
      match turn.outcome with
      | .ok (some a) =>
        ⟨.item (.wrap w.writes s.count a), { w with keys := turn.keys },
          ⟨turn.cursor, turn.state, s.count + 1⟩, turn.log ++ [.emitted (s.count + 1)]⟩
      | .ok none =>
        ⟨.stopped, { w with keys := turn.keys, finished := true },
          ⟨turn.cursor, turn.state, s.count⟩, turn.log ++ [.finished s.count]⟩
      | .error fault =>
        ⟨.failed (fault.leaving .traverse), { w with keys := turn.keys, finished := true },
          ⟨turn.cursor, turn.state, s.count⟩, turn.log ++ fault.reports .traverse⟩ := by
  cases hturn : (traverse array [] w.keys s.cursor s.state).outcome with
  | error fault => simp [pull, Walk.nextHandle, hw, hturn]
  | ok handle =>
    cases handle with
    | none => simp [pull, Walk.nextHandle, hw, hturn]
    | some a =>
      cases hwrites : w.writes <;>
        simp [pull, Walk.nextHandle, hw, hturn, hwrites, Walk.emit, Item.wrap]

theorem pull_array_cases (w : Walk) (c : Cursor) {openArrays : Nat} (h : openArrays ≤ 1)
    (count : Nat) :
    let pulled := w.pull array ⟨c, openArrays, count⟩
    pulled.scene.state = 1 ∨ pulled.walk.finished = true ∧ pulled.scene.state ≤ 1 := by
  cases hw : w.finished with
  | true =>
    rw [Walk.pull_finished array _ hw]
    exact .inr ⟨hw, h⟩
  | false =>
    obtain ⟨hle, hitem⟩ := state_traverse_array [] w.keys c h
    rw [pull_array_eq hw]
    dsimp only
    split
    · exact .inl (hitem _ ‹_›)
    · exact .inr ⟨rfl, hle⟩
    · exact .inr ⟨rfl, hle⟩

theorem pull_array_congr (w : Walk) (writes : Bool) (c : Cursor) (openArrays count count' : Nat) :
    let pulled := w.pull array ⟨c, openArrays, count⟩
    let pulled' := Walk.pull array { w with writes } ⟨c, openArrays, count'⟩
    pulled'.outcome.map Item.content = pulled.outcome.map Item.content ∧
      pulled'.walk = { pulled.walk with writes } ∧
      pulled'.scene.cursor = pulled.scene.cursor ∧ pulled'.scene.state = pulled.scene.state := by
  obtain ⟨own, keys, finished⟩ := w
  cases finished with
  | true => exact ⟨rfl, rfl, rfl, rfl⟩
  | false =>
    rw [pull_array_eq (w := ⟨own, keys, false⟩) rfl, pull_array_eq (w := ⟨writes, keys, false⟩) rfl]
    dsimp only
    split <;> simp [Outcome.map]

theorem pull_array_count (w : Walk) (c : Cursor) (openArrays count count' : Nat) :
    let pulled := w.pull array ⟨c, openArrays, count⟩
    let pulled' := w.pull array ⟨c, openArrays, count'⟩
    pulled'.outcome.map Item.content = pulled.outcome.map Item.content ∧
      pulled'.walk = pulled.walk ∧
      pulled'.scene.cursor = pulled.scene.cursor ∧ pulled'.scene.state = pulled.scene.state := by
  obtain ⟨houtcome, hwalk, hcursor, hstate⟩ :=
    pull_array_congr w w.writes c openArrays count count'
  obtain ⟨-, hsame, -, -⟩ := pull_array_congr w w.writes c openArrays count count
  exact ⟨houtcome, hwalk.trans hsame.symm, hcursor, hstate⟩

/-! ## Walks outside all arrays -/

/-- The walk is in no open array: it has finished, its source is over, or it has read nothing. -/
inductive Outside : Walk → Cursor → Prop where
  | finished {w : Walk} (hw : w.finished = true) (c : Cursor) : Outside w c
  | atEnd (w : Walk) {c : Cursor} (hc : c.IsOver) : Outside w c
  | fresh (w : Walk) (source : Reads) : Outside w (.ofFeed (.ofReads source))

theorem pull_array_over {w : Walk} (hw : w.finished = false) {c : Cursor} (hc : c.IsOver)
    (openArrays count : Nat) :
    let pulled := w.pull array ⟨c, openArrays, count⟩
    pulled.scene.state = openArrays ∧ pulled.walk.finished = true := by
  match hnext : c.next with
  | (.error fault, c') =>
    obtain ⟨log, hpull⟩ :=
      Walk.pull_source_fault (p := array) (s := ⟨c, openArrays, count⟩) hw hnext
    rw [hpull]
    exact ⟨rfl, rfl⟩
  | (.ok none, c') =>
    rw [Walk.pull_end (s := ⟨c, openArrays, count⟩) hw hnext]
    exact ⟨rfl, rfl⟩
  | (.ok (some t), c') => exact absurd hnext (hc t c')

theorem visit_array_whole {v : Tree} {shape : Shape} (hv : v.shape? = some shape) {later : Feed}
    (hprint : v.IsPrintable later.limit) (keys : List (Option String)) :
    ∃ current log, visit array (.opening shape) keys
        (.before v.laterTokens later (some (.opening shape))) 1 =
      ⟨.ok (some v.payload), keys, .before [] later current, 1, log⟩ := by
  have hrun := array_build_view hv hprint 1
  rw [Tree.view, Tree.tokens_of_shape hv, List.head?_cons] at hrun
  obtain ⟨log, hprocess⟩ :=
    Walk.process_before (Tree.closes_laterTokens hv) hrun keys [] later
  rw [List.append_nil, Feed.on_limit] at hprocess
  exact ⟨_, log, by rw [visit_array_opening, hprocess]⟩

theorem pull_array_whole {v : Tree} {shape : Shape} (hv : v.shape? = some shape) {later : Feed}
    (hprint : v.IsPrintable later.limit) {w : Walk} (hw : w.finished = false)
    (current : Option Token) (count : Nat) :
    ∃ current',
      let pulled := w.pull array ⟨.before v.tokens later current, 1, count⟩
      pulled.outcome.map Item.content = .item v.payload ∧
        pulled.scene.cursor = .before [] later current' ∧ pulled.scene.state = 1 := by
  obtain ⟨current', log, hvisit⟩ := visit_array_whole hv hprint w.keys
  have hnext : (Cursor.before v.tokens later current).next =
      (.ok (some (.opening shape)), .before v.laterTokens later (some (.opening shape))) := by
    rw [Tree.tokens_of_shape hv, Cursor.next_before_cons]
  have hpull := Walk.pull_handle (p := array) (w := { w with writes := false })
    (s := ⟨.before v.tokens later current, 1, count⟩) hw rfl hnext (by rw [hvisit])
  obtain ⟨houtcome, -, hcursor, hstate⟩ :=
    pull_array_congr w false (.before v.tokens later current) 1 count count
  rw [hpull] at houtcome hcursor hstate
  dsimp only at houtcome hcursor hstate
  rw [hvisit] at hcursor hstate
  exact ⟨current', houtcome.symm, hcursor.symm, hstate.symm⟩

theorem pull_array_fault {shape : Shape} {ts : List Token} {later : Feed} {w : Walk} {fault : Fault}
    (hvisit : (visit array (.opening shape) w.keys
      (.before ts later (some (.opening shape))) 1).outcome = .error fault)
    (hw : w.finished = false) (current : Option Token) (count : Nat) :
    let pulled := w.pull array ⟨.before (.opening shape :: ts) later current, 1, count⟩
    pulled.scene.state = 1 ∧ pulled.walk.finished = true := by
  obtain ⟨keys, log, hpull⟩ := Walk.pull_visit_fault (p := array)
    (s := ⟨.before (.opening shape :: ts) later current, 1, count⟩) hw
    (Cursor.next_before_cons _ ts later current) hvisit
  rw [hpull]
  refine ⟨?_, rfl⟩
  dsimp only
  rw [visit_array_opening, state_process_array]

theorem pull_array_broken {ts : List Token} (hts : StaysOpen 1 ts) {later : Feed}
    {origin : Origin} (hlater : later.Fails origin) (shape : Shape) {w : Walk}
    (hw : w.finished = false) (current : Option Token) (count : Nat) :
    let pulled := w.pull array ⟨.before (.opening shape :: ts) later current, 1, count⟩
    pulled.scene.state = 1 ∧ pulled.walk.finished = true := by
  rcases printable_or_exists_excess later.limit ts with hprint | ⟨us, t, vs, excess, rfl, hus, ht⟩
  · exact pull_array_fault (array_visit_interrupted hts hprint hlater shape w.keys) hw current count
  · have hvisit := array_visit_excess hts.of_append hus ht vs shape w.keys
    exact pull_array_fault (congrArg Turn.outcome hvisit) hw current count

theorem pull_array_scalar (value : Scalar) {later : Feed} {ending : Ending}
    (hlater : later.Halts ending) {w : Walk} (hw : w.finished = false) (current : Option Token)
    (openArrays count : Nat) :
    let pulled := w.pull array ⟨.before [.scalar value] later current, openArrays, count⟩
    pulled.scene.state = openArrays ∧ pulled.walk.finished = true := by
  have honward := Walk.pull_onward (p := array) (w := w)
    (s := ⟨.before [.scalar value] later current, openArrays, count⟩) hw
    (Cursor.next_before_cons _ [] later current) rfl
  have hend := pull_array_over (w := { w with keys := w.keys }) hw
    (hlater.isOver (some (.scalar value))) openArrays count
  rw [honward]
  exact hend

def KeepsOut (pulled : Pull Nat (Item Payload)) : Prop :=
  pulled.scene.state = 1 ∧ Outside pulled.walk pulled.scene.cursor

theorem KeepsOut.of_finished {pulled : Pull Nat (Item Payload)}
    (h : pulled.scene.state = 1 ∧ pulled.walk.finished = true) : KeepsOut pulled :=
  ⟨h.1, .finished h.2 _⟩

theorem keepsOut_whole (v : Tree) {later : Feed} {ending : Ending} (hlater : later.Halts ending)
    {w : Walk} (hw : w.finished = false) (count : Nat) :
    KeepsOut (w.pull array ⟨.before v.tokens later none, 1, count⟩) := by
  cases hv : v.shape? with
  | none =>
    cases v with
    | scalar value => exact .of_finished (pull_array_scalar value hlater hw none 1 count)
    | object members => simp [Tree.shape?] at hv
    | array elements => simp [Tree.shape?] at hv
  | some shape =>
    rcases printable_or_exists_excess later.limit v.laterTokens with
      hprint | ⟨us, t, vs, excess, hcut, hus, ht⟩
    · obtain ⟨current, -, hcursor, hstate⟩ :=
        pull_array_whole hv (Tree.isPrintable_of_laterTokens hv hprint) hw none count
      exact ⟨hstate, .atEnd _ (hcursor ▸ hlater.isOver current)⟩
    · have hcloses := Tree.closes_laterTokens hv
      rw [hcut] at hcloses
      have hopen := hcloses.staysOpen (List.cons_ne_nil t vs)
      have hvisit := array_visit_excess hopen hus ht vs shape w.keys
      rw [Tree.tokens_of_shape hv, hcut]
      exact .of_finished (pull_array_fault (congrArg Turn.outcome hvisit) hw none count)

theorem keepsOut_broken {v : Tree} {ts us : List Token} (hcut : ts ++ us = v.tokens)
    {later : Feed} {origin : Origin} (hlater : later.Fails origin) {w : Walk}
    (hw : w.finished = false) (count : Nat) :
    KeepsOut (w.pull array ⟨.before ts later none, 1, count⟩) := by
  have hhalts : later.Halts (.broken origin) := hlater
  by_cases hus : us = []
  · rw [hus, List.append_nil] at hcut
    rw [hcut]
    exact keepsOut_whole v hhalts hw count
  · cases ts with
    | nil => exact .of_finished (pull_array_over hw (hhalts.isOver none) 1 count)
    | cons t ts =>
      cases hv : v.shape? with
      | none =>
        cases v with
        | scalar value => simp_all [Tree.tokens]
        | object members => simp [Tree.shape?] at hv
        | array elements => simp [Tree.shape?] at hv
      | some shape =>
        rw [Tree.tokens_of_shape hv] at hcut
        obtain ⟨rfl, hinside⟩ := List.cons.inj hcut
        have hcloses := Tree.closes_laterTokens hv
        rw [← hinside] at hcloses
        exact .of_finished
          (pull_array_broken (hcloses.staysOpen hus) hlater shape hw none count)

/-- While an array is open, a pull of a walk outside keeps it open; a fresh walk takes its whole
document for an element. -/
theorem Outside.keepsOut {w : Walk} {c : Cursor} (h : Outside w c) (count : Nat) :
    KeepsOut (w.pull array ⟨c, 1, count⟩) := by
  cases hw : w.finished with
  | true =>
    rw [Walk.pull_finished array _ hw]
    exact ⟨rfl, .finished hw c⟩
  | false =>
    cases h with
    | finished hw' => simp [hw] at hw'
    | atEnd hc => exact .of_finished (pull_array_over hw hc 1 count)
    | fresh source =>
      obtain ⟨v, ts, later, hfeed, htells⟩ := Feed.exists_ofReads_tellsOf source
      rw [hfeed, Cursor.ofFeed_behind]
      rcases htells with ⟨rfl, hcomplete⟩ | ⟨⟨us, hcut⟩, origin, hfails⟩
      · exact keepsOut_whole v hcomplete hw count
      · exact keepsOut_broken hcut hfails hw count

/-! ## First pulls -/

theorem pull_array_fresh_ne {limit : DigitLimit} {v : Tree}
    (hprint : ∀ w ∈ v.selection, w.IsPrintable limit) (w : Walk)
    (hw : w = { writes := w.writes }) (count : Nat) :
    (w.pull array ⟨.ofFeed (.on limit (.ofTokens v.tokens)), 0, count⟩).outcome.map Item.content ≠
      .item v.payload := by
  intro h
  obtain ⟨houtcome, -, -, -⟩ :=
    pull_array_congr w false (.ofFeed (.on limit (.ofTokens v.tokens))) 0 count count
  rw [h, hw] at houtcome
  obtain ⟨i, hitem, hcontent⟩ := Outcome.eq_item_of_map_eq houtcome
  have hall := congrArg Walk.Harvest.items (array_quiet_pullAll hprint count)
  have hfirst := congrArg Walk.Harvest.items (Walk.pullAll_item hitem)
  dsimp only [Walk.Harvest.quiet] at hall hfirst
  rw [hall] at hfirst
  have hmem : i ∈ v.selection.map fun w => Item.handle w.payload := by
    rw [hfirst]
    exact List.mem_cons_self
  obtain ⟨u, hu, rfl⟩ := List.mem_map.mp hmem
  have hlt := Tree.length_text_lt_of_mem_selection v hu
  have htext : u.text = v.text := congrArg Payload.content hcontent
  rw [htext] at hlt
  exact Nat.lt_irrefl _ hlt

theorem pull_array_no_container {v : Tree} (hv : v.shape? = none) {w : Walk}
    (hw : w.finished = false) (limit : DigitLimit) (openArrays count : Nat) :
    let pulled := w.pull array ⟨.ofFeed (.on limit (.ofTokens v.tokens)), openArrays, count⟩
    pulled.outcome = .stopped ∧ pulled.walk.finished = true := by
  cases v with
  | scalar value =>
    have honward := Walk.pull_onward (p := array) (w := w)
      (s := ⟨.before [.scalar value] (.finished limit) none, openArrays, count⟩) hw
      (Cursor.next_before_cons _ [] (.finished limit) none) rfl
    have hend := Walk.pull_end (p := array) (w := { w with keys := w.keys })
      (s := ⟨.before [] (.finished limit) (some (.scalar value)), openArrays, count⟩) hw
      (Cursor.next_before_finished limit _)
    rw [Cursor.ofFeed_ofTokens, Tree.tokens, honward]
    dsimp only [Turn.visit]
    rw [hend]
    exact ⟨rfl, rfl⟩
  | object members => simp [Tree.shape?] at hv
  | array elements => simp [Tree.shape?] at hv

end Policy

end JsonCleave
