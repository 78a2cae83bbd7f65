import JsonCleave.Proofs.History
/-!
# Invariant of parallel workers

For any order of the workers' steps and any failing writes: the documents pulled are those of a
single reader in the same order, each is held by one worker, in one file, or its write failed; the
progress numbers are consecutive; every fault is held by the worker that met it.
-/

namespace JsonCleave

open Walk (pullAll)
open Policy (array)

namespace Walk

namespace Harvest

def contents (h : Harvest Nat Payload) : List Payload := h.items.map Item.content

def faults (h : Harvest Nat Payload) : List Fault :=
  match h.outcome with
  | some (.error fault) => [fault]
  | _ => []

end Harvest

variable {w : Walk} {s : Scene Nat}

theorem reads_item {i : Item Payload} (hpull : (w.pull array s).outcome = .item i) :
    (w.pullAll array s).contents =
        i.content :: (pullAll array (w.pull array s).walk (w.pull array s).scene).contents ∧
      (w.pullAll array s).faults =
        (pullAll array (w.pull array s).walk (w.pull array s).scene).faults := by
  rw [pullAll_item hpull]
  exact ⟨rfl, rfl⟩

theorem reads_stopped (hpull : (w.pull array s).outcome = .stopped) :
    (w.pullAll array s).contents = [] ∧ (w.pullAll array s).faults = [] := by
  rw [pullAll_stopped hpull]
  exact ⟨rfl, rfl⟩

theorem reads_failed {fault : Fault} (hpull : (w.pull array s).outcome = .failed fault) :
    (w.pullAll array s).contents = [] ∧ (w.pullAll array s).faults = [fault] := by
  rw [pullAll_failed hpull]
  exact ⟨rfl, rfl⟩

theorem reads_finished (hw : w.finished = true) (s : Scene Nat) :
    (w.pullAll array s).contents = [] ∧ (w.pullAll array s).faults = [] :=
  reads_stopped (by rw [pull_finished array s hw])

end Walk

namespace Crew

variable {settings : BatchSettings} {directory : Location} {storage : Storage}
  {alone : Walk.Harvest Nat Payload} {b b' : Bench} {w w' : Worker} {workers : List Worker}
  {events : List Event} {event : Option Event} {n : Nat}

/-! ## Pulls -/

/-- The documents pulled and those still to come are the documents of a single reader, in order and
numbered from zero, and so is the fault behind them. -/
structure PullsAs (alone : Walk.Harvest Nat Payload) (b : Bench) (events : List Event) : Prop where
  writes : b.walk.writes = true
  contents : (events.filterMap Event.pulled?).map (·.content) ++
    (b.walk.pullAll array b.scene).contents = alone.contents
  addresses : (events.filterMap Event.pulled?).map (·.address) =
    (List.range b.scene.count).map .fresh
  faults : events.filterMap Event.interrupted? ++ (b.walk.pullAll array b.scene).faults =
    alone.faults

theorem PullsAs.append (h : PullsAs alone b events)
    {more : List Event} (hpulled : more.filterMap Event.pulled? = [])
    (hinterrupted : more.filterMap Event.interrupted? = []) (hwalk : b'.walk = b.walk)
    (hscene : b'.scene = b.scene) : PullsAs alone b' (events ++ more) := by
  refine ⟨by rw [hwalk, h.writes], ?_, ?_, ?_⟩
  · rw [filterMap_append_of_nil hpulled, hwalk, hscene, h.contents]
  · rw [filterMap_append_of_nil hpulled, hscene, h.addresses]
  · rw [filterMap_append_of_nil hinterrupted, hwalk, hscene, h.faults]

theorem PullsAs.atEnd (h : PullsAs alone b events)
    (hno : ∀ i, (b.walk.pull array b.scene).outcome ≠ .item i) {more : List Event}
    (hpulled : more.filterMap Event.pulled? = [])
    (hcontents : (b.walk.pullAll array b.scene).contents = [])
    (hfaults : (b.walk.pullAll array b.scene).faults = more.filterMap Event.interrupted?) :
    PullsAs alone b.afterPull (events ++ more) := by
  obtain ⟨hwrites, ⟨payload, hitem, -⟩ | ⟨-, hfinished, hcount⟩⟩ :=
    Policy.pull_array_outcome h.writes b.scene
  · exact absurd hitem (hno _)
  · obtain ⟨hnone, hnoFault⟩ := Walk.reads_finished hfinished (b.walk.pull array b.scene).scene
    refine ⟨hwrites, ?_, ?_, ?_⟩
    · rw [filterMap_append_of_nil hpulled, ← h.contents, hcontents]
      exact congrArg _ hnone
    · rw [filterMap_append_of_nil hpulled, h.addresses, Bench.afterPull, hcount]
    · rw [← h.faults, List.filterMap_append, List.append_assoc, hfaults]
      exact congrArg _ ((congrArg _ hnoFault).trans (List.append_nil _))

theorem PullsAs.step (h : PullsAs alone b events)
    (hstep : b.Happens settings directory w event w' b') :
    PullsAs alone b' (events ++ event.toList) := by
  obtain ⟨hwrites, houtcome⟩ := Policy.pull_array_outcome h.writes b.scene
  cases hstep with
  | pulled payload hitem =>
    obtain ⟨payload', -, hcount⟩ | ⟨hno, -⟩ := houtcome
    · obtain ⟨hcontents, hfaults⟩ := Walk.reads_item hitem
      refine ⟨hwrites, ?_, ?_, ?_⟩
      · simpa [hcontents, Item.content, Bench.afterPull, WriteRequest.document]
          using h.contents
      · simp [h.addresses, Bench.afterPull, hcount, List.range_succ,
          WriteRequest.document]
      · simpa [hfaults, List.filterMap_cons, Bench.afterPull] using h.faults
    · simp [hitem] at hno
  | ended hstopped =>
    obtain ⟨hcontents, hfaults⟩ := Walk.reads_stopped hstopped
    exact h.atEnd (by simp [hstopped]) rfl hcontents hfaults
  | interrupted fault hfailed =>
    obtain ⟨hcontents, hfaults⟩ := Walk.reads_failed hfailed
    exact h.atEnd (by simp [hfailed]) rfl hcontents hfaults
  | wrote request hrequest => exact h.append rfl rfl rfl rfl
  | unwritten request fault hrequest => exact h.append rfl rfl rfl rfl
  | drew => exact h.append rfl rfl rfl rfl
  | rested hw => exact h.append rfl rfl rfl rfl

/-! ## Files -/

section Perm

variable {α : Type} {pulled wrote unwritten held held' : List α} {x : α}

theorem perm_take (h : pulled.Perm (wrote ++ (unwritten ++ held)))
    (hheld : held'.Perm (held ++ [x])) :
    (pulled ++ [x]).Perm (wrote ++ (unwritten ++ held')) :=
  calc
    List.Perm (pulled ++ [x]) (wrote ++ (unwritten ++ held) ++ [x]) := h.append_right [x]
    _ = wrote ++ (unwritten ++ (held ++ [x])) := by rw [List.append_assoc, List.append_assoc]
    List.Perm _ (wrote ++ (unwritten ++ held')) :=
      (hheld.symm.append_left unwritten).append_left wrote

theorem perm_lose (h : pulled.Perm (wrote ++ (unwritten ++ held)))
    (hheld : (held' ++ [x]).Perm held) :
    pulled.Perm (wrote ++ ((unwritten ++ [x]) ++ held')) := by
  have hback : held.Perm ([x] ++ held') := hheld.symm.trans List.perm_append_comm
  calc
    List.Perm pulled (wrote ++ (unwritten ++ held)) := h
    List.Perm _ (wrote ++ (unwritten ++ ([x] ++ held'))) :=
      (hback.append_left unwritten).append_left wrote
    _ = wrote ++ ((unwritten ++ [x]) ++ held') := by rw [List.append_assoc unwritten]

theorem perm_write (h : pulled.Perm (wrote ++ (unwritten ++ held)))
    (hheld : (held' ++ [x]).Perm held) :
    pulled.Perm ((wrote ++ [x]) ++ (unwritten ++ held')) :=
  calc
    List.Perm pulled (wrote ++ ((unwritten ++ [x]) ++ held')) := perm_lose h hheld
    List.Perm _ (wrote ++ (([x] ++ unwritten) ++ held')) :=
      (List.perm_append_comm.append_right held').append_left wrote
    _ = (wrote ++ [x]) ++ (unwritten ++ held') := by
      rw [List.append_assoc, List.append_assoc]

end Perm

def fileOf (directory : Location) (request : WriteRequest Payload) : Document :=
  ⟨directory, request.address, request.content.content⟩

/-- Every document pulled is in exactly one file, or its write failed, or a worker holds it; no
other files were written. -/
structure WritesTo (settings : BatchSettings) (directory : Location) (storage : Storage)
    (workers : List Worker) (b : Bench) (events : List Event) : Prop where
  shares : (events.filterMap Event.pulled?).Perm (events.filterMap Event.wrote? ++
    ((events.filterMap Event.unwritten?).map Prod.fst ++ workers.filterMap Worker.held?))
  granted : ∀ request ∈ events.filterMap Event.wrote?, settings.refusal? request = none
  refused : ∀ x ∈ events.filterMap Event.unwritten?, settings.refusal? x.1 = some x.2
  documents : b.storage.documents =
    ((events.filterMap Event.wrote?).map (fileOf directory)).reverse ++ storage.documents

theorem WritesTo.append {workers' : List Worker}
    (h : WritesTo settings directory storage workers b events)
    (hheld : (workers'.filterMap Worker.held?).Perm (workers.filterMap Worker.held?))
    {more : List Event} (hpulled : more.filterMap Event.pulled? = [])
    (hwrote : more.filterMap Event.wrote? = [])
    (hunwritten : more.filterMap Event.unwritten? = []) (hstorage : b'.storage = b.storage) :
    WritesTo settings directory storage workers' b' (events ++ more) := by
  refine ⟨?_, ?_, ?_, ?_⟩
  · rw [filterMap_append_of_nil hpulled, filterMap_append_of_nil hwrote,
      filterMap_append_of_nil hunwritten]
    exact h.shares.trans ((hheld.symm.append_left _).append_left _)
  · rw [filterMap_append_of_nil hwrote]
    exact h.granted
  · rw [filterMap_append_of_nil hunwritten]
    exact h.refused
  · rw [filterMap_append_of_nil hwrote, hstorage, h.documents]

theorem WritesTo.step (h : WritesTo settings directory storage workers b events)
    (hn : workers[n]? = some w)
    (hstep : b.Happens settings directory w event w' b') :
    WritesTo settings directory storage (workers.set n w') b' (events ++ event.toList) := by
  have hset := filterMap_set_perm hn Worker.held? w'
  cases hstep with
  | pulled payload hitem =>
    have hheld : ((workers.set n (.holding (.document b.scene.count payload))).filterMap
        Worker.held?).Perm
          (workers.filterMap Worker.held? ++ [.document b.scene.count payload]) := by
      simpa using hset
    refine ⟨?_, ?_, ?_, ?_⟩
    · simpa [List.filterMap_cons] using perm_take h.shares hheld
    · simpa [List.filterMap_cons] using h.granted
    · simpa [List.filterMap_cons] using h.refused
    · simpa [List.filterMap_cons, Bench.afterPull] using h.documents
  | wrote request hrequest =>
    have hheld : ((workers.set n .written).filterMap Worker.held? ++ [request]).Perm
        (workers.filterMap Worker.held?) := by simpa using hset
    refine ⟨?_, ?_, ?_, ?_⟩
    · simpa [List.filterMap_cons] using perm_write h.shares hheld
    · intro r hr
      rcases List.mem_append.mp (by simpa only [List.filterMap_append] using hr) with hr | hr
      · exact h.granted r hr
      · obtain rfl : r = request := by simpa using hr
        exact hrequest
    · simpa [List.filterMap_cons] using h.refused
    · simp [Storage.addDocument, h.documents, fileOf]
  | unwritten request fault hrequest =>
    have hheld : ((workers.set n (.failed fault)).filterMap Worker.held? ++ [request]).Perm
        (workers.filterMap Worker.held?) := by simpa using hset
    refine ⟨?_, ?_, ?_, ?_⟩
    · simpa [List.filterMap_cons] using perm_lose h.shares hheld
    · simpa [List.filterMap_cons] using h.granted
    · intro x hx
      rcases List.mem_append.mp (by simpa only [List.filterMap_append] using hx) with hx | hx
      · exact h.refused x hx
      · obtain rfl : x = (request, fault) := by simpa using hx
        exact hrequest
    · simpa [List.filterMap_cons] using h.documents
  | ended hstopped => exact h.append (by simpa using hset) rfl rfl rfl rfl
  | interrupted fault hfailed => exact h.append (by simpa using hset) rfl rfl rfl rfl
  | drew => exact h.append (by simpa using hset) rfl rfl rfl rfl
  | rested hw => exact h.append ((List.perm_append_right_iff _).mp hset) rfl rfl rfl rfl

/-! ## Progress numbers -/

/-- The progress numbers drawn are `1, 2, …`: one for each document written, except those whose
workers have not drawn yet. The multiples of the interval are logged. -/
structure Draws (settings : BatchSettings) (workers : List Worker) (b : Bench)
    (events : List Event) : Prop where
  drawn : events.filterMap Event.drew? = List.range' 1 b.drawn
  files : b.drawn + workers.countP Worker.isWritten = (events.filterMap Event.wrote?).length
  reported : b.reversedLog.reverse.filterMap Entry.progress? =
    (events.filterMap Event.drew?).filter fun k : Nat => (k : Int) % settings.interval = 0

theorem Draws.append {workers' : List Worker} (h : Draws settings workers b events)
    (hwritten : workers'.countP Worker.isWritten = workers.countP Worker.isWritten)
    {more : List Event} (hwrote : more.filterMap Event.wrote? = [])
    (hdrew : more.filterMap Event.drew? = []) (hdrawn : b'.drawn = b.drawn)
    (hlog : b'.reversedLog.reverse.filterMap Entry.progress? =
      b.reversedLog.reverse.filterMap Entry.progress?) :
    Draws settings workers' b' (events ++ more) := by
  refine ⟨?_, ?_, ?_⟩
  · rw [filterMap_append_of_nil hdrew, h.drawn, hdrawn]
  · rw [filterMap_append_of_nil hwrote, hdrawn, hwritten, h.files]
  · rw [filterMap_append_of_nil hdrew, hlog, h.reported]

theorem Draws.step (h : Draws settings workers b events) (hn : workers[n]? = some w)
    (hstep : b.Happens settings directory w event w' b') :
    Draws settings (workers.set n w') b' (events ++ event.toList) := by
  have hset := countP_set_add hn Worker.isWritten w'
  have hpull : b.afterPull.reversedLog.reverse.filterMap Entry.progress? =
      b.reversedLog.reverse.filterMap Entry.progress? := by
    simp [Bench.afterPull, Policy.progress_pull_array]
  cases hstep with
  | wrote request hrequest =>
    refine ⟨by simpa [List.filterMap_cons] using h.drawn, ?_,
      by simpa [List.filterMap_cons] using h.reported⟩
    have hfiles := h.files
    simp at hset ⊢
    omega
  | drew =>
    refine ⟨?_, ?_, ?_⟩
    · simp [h.drawn, List.range'_1_concat, Nat.add_comm]
    · have hfiles := h.files
      simp [List.filterMap_cons] at hset ⊢
      omega
    · have hlast : (if ((b.drawn + 1 : Nat) : Int) % settings.interval = 0 then
          [Entry.progress (b.drawn + 1)] else []).reverse.filterMap Entry.progress? =
            [b.drawn + 1].filter fun k : Nat => (k : Int) % settings.interval = 0 := by
        rw [List.filter_cons]
        by_cases hmultiple : ((b.drawn + 1 : Nat) : Int) % settings.interval = 0
        · simp only [hmultiple, ↓reduceIte, decide_true]
          rfl
        · simp only [hmultiple, ↓reduceIte, decide_false]
          rfl
      rw [List.reverse_append, List.filterMap_append, hlast, h.reported, List.filterMap_append,
        List.filter_append]
      rfl
  | pulled payload hitem => exact h.append (by simpa using hset) rfl rfl rfl hpull
  | ended hstopped => exact h.append (by simpa using hset) rfl rfl rfl hpull
  | interrupted fault hfailed => exact h.append (by simpa using hset) rfl rfl rfl hpull
  | unwritten request fault hrequest => exact h.append (by simpa using hset) rfl rfl rfl rfl
  | rested hw => exact h.append (Nat.add_right_cancel hset) rfl rfl rfl rfl

/-! ## Faults -/

/-- Every fault is held by exactly one worker, and a worker ends only after the walk has
finished. -/
structure Charges (workers : List Worker) (b : Bench) (events : List Event) : Prop where
  faults : (workers.filterMap Worker.fault?).Perm
    (events.filterMap Event.interrupted? ++ (events.filterMap Event.unwritten?).map Prod.snd)
  ended : .ended ∈ workers → b.walk.finished = true
  interrupted : events.filterMap Event.interrupted? ≠ [] → b.walk.finished = true

theorem Charges.append {workers' : List Worker} (h : Charges workers b events)
    (hfaults : (workers'.filterMap Worker.fault?).Perm (workers.filterMap Worker.fault?))
    (hended : .ended ∈ workers' → b'.walk.finished = true)
    (hwalk : b.walk.finished = true → b'.walk.finished = true) {more : List Event}
    (hinterrupted : more.filterMap Event.interrupted? = [])
    (hunwritten : more.filterMap Event.unwritten? = []) :
    Charges workers' b' (events ++ more) := by
  refine ⟨?_, hended, ?_⟩
  · rw [filterMap_append_of_nil hinterrupted, filterMap_append_of_nil hunwritten]
    exact hfaults.trans h.faults
  · rw [filterMap_append_of_nil hinterrupted]
    exact fun hsome => hwalk (h.interrupted hsome)

theorem finished_afterPull (hfinished : b.walk.finished = true) :
    b.afterPull.walk.finished = true := by
  rw [Bench.afterPull, Walk.pull_finished array b.scene hfinished]
  exact hfinished

theorem Charges.step (h : Charges workers b events) (hwrites : b.walk.writes = true)
    (hn : workers[n]? = some w) (hstep : b.Happens settings directory w event w' b') :
    Charges (workers.set n w') b' (events ++ event.toList) := by
  have hset := filterMap_set_perm hn Worker.fault? w'
  have hended (hw' : w' ≠ .ended) (hmem : .ended ∈ workers.set n w') : b.walk.finished = true :=
    h.ended ((List.mem_or_eq_of_mem_set hmem).resolve_right hw'.symm)
  obtain ⟨-, houtcome⟩ := Policy.pull_array_outcome hwrites b.scene
  have hover (hno : ∀ i, (b.walk.pull array b.scene).outcome ≠ .item i) :
      b.afterPull.walk.finished = true := by
    obtain ⟨payload, hitem, -⟩ | ⟨-, hfinished, -⟩ := houtcome
    · exact absurd hitem (hno _)
    · exact hfinished
  cases hstep with
  | pulled payload hitem =>
    exact h.append (by simpa using hset) (fun hmem => finished_afterPull (hended (by simp) hmem))
      finished_afterPull rfl rfl
  | ended hstopped =>
    exact h.append (by simpa using hset) (fun _ => hover (by simp [hstopped]))
      finished_afterPull rfl rfl
  | interrupted fault hfailed =>
    have hfinished := hover (by simp [hfailed])
    refine ⟨?_, fun _ => hfinished, fun _ => hfinished⟩
    have hfaults : ((workers.set n (.failed fault)).filterMap Worker.fault?).Perm
        (workers.filterMap Worker.fault? ++ [fault]) := by simpa using hset
    refine (hfaults.trans (h.faults.append_right [fault])).trans ?_
    rw [List.append_assoc, List.filterMap_append, List.filterMap_append, List.append_assoc]
    refine List.Perm.append_left _ (List.perm_append_comm.trans ?_)
    simp [List.filterMap_cons]
  | wrote request hrequest =>
    refine h.append (by simpa using hset) ?_ ?_ rfl rfl
    · exact hended (by simp)
    · exact id
  | unwritten request fault hrequest =>
    have hfaults : ((workers.set n (.failed fault)).filterMap Worker.fault?).Perm
        (workers.filterMap Worker.fault? ++ [fault]) := by simpa using hset
    refine ⟨?_, hended (by simp), ?_⟩
    · simpa [List.filterMap_cons] using hfaults.trans (h.faults.append_right [fault])
    · simpa [List.filterMap_cons] using h.interrupted
  | drew =>
    refine h.append (by simpa using hset) ?_ ?_ rfl rfl
    · exact hended (by simp)
    · exact id
  | rested hw =>
    refine h.append ((List.perm_append_right_iff _).mp hset) (fun hmem => ?_) id rfl rfl
    rcases List.mem_or_eq_of_mem_set hmem with hmem | rfl
    · exact h.ended hmem
    · exact h.ended (List.mem_of_getElem? hn)

/-! ## All of it -/

/-- Invariant of a crew: documents, files, progress numbers and faults. -/
structure Accounts (settings : BatchSettings) (directory : Location) (storage : Storage)
    (alone : Walk.Harvest Nat Payload) (crew : Crew) (events : List Event) : Prop where
  pulls : PullsAs alone crew.bench events
  files : WritesTo settings directory storage crew.workers crew.bench events
  numbers : Draws settings crew.workers crew.bench events
  charges : Charges crew.workers crew.bench events

theorem Accounts.step {crew : Crew}
    (htarget : settings.target = some directory) (hinterval : settings.interval ≠ 0)
    (h : Accounts settings directory storage alone crew events) (n : Nat) :
    Accounts settings directory storage alone (crew.step settings n)
      (events ++ (crew.event? settings n).toList) := by
  cases hn : crew.workers[n]? with
  | none => simpa [Crew.step, event?, hn] using h
  | some w =>
    have hstep := Bench.happens_step htarget hinterval h.pulls.writes w
    simp only [Crew.step, event?, hn, Option.bind_some]
    exact ⟨h.pulls.step hstep, h.files.step hn hstep, h.numbers.step hn hstep,
      h.charges.step h.pulls.writes hn hstep⟩

theorem Accounts.run {crew : Crew}
    (htarget : settings.target = some directory) (hinterval : settings.interval ≠ 0)
    (h : Accounts settings directory storage alone crew []) (schedule : List Nat) :
    Accounts settings directory storage alone (crew.run settings schedule)
      (crew.history settings schedule) :=
  run_history (fun _ _ n hcrew => hcrew.step htarget hinterval n) h schedule

end Crew

end JsonCleave
