import JsonCleave.Batch
import JsonCleave.Proofs.OpenArrays
/-!
# Events of a batch

The events of a run record what each step did: a document was pulled, the traversal was interrupted,
a document was written or could not be written, a progress number was drawn. `Happens` is the
inversion of one step of one worker.
-/

namespace JsonCleave

/-- The event of a worker's step. -/
inductive Event where
  | pulled (request : WriteRequest Payload)
  | interrupted (fault : Fault)
  | wrote (request : WriteRequest Payload)
  | unwritten (request : WriteRequest Payload) (fault : Fault)
  | drew (number : Nat)

namespace Event

@[simp] def pulled? : Event → Option (WriteRequest Payload)
  | .pulled request => some request
  | _ => none

@[simp] def interrupted? : Event → Option Fault
  | .interrupted fault => some fault
  | _ => none

@[simp] def wrote? : Event → Option (WriteRequest Payload)
  | .wrote request => some request
  | _ => none

@[simp] def unwritten? : Event → Option (WriteRequest Payload × Fault)
  | .unwritten request fault => some (request, fault)
  | _ => none

@[simp] def drew? : Event → Option Nat
  | .drew number => some number
  | _ => none

end Event

def Entry.progress? : Entry → Option Nat
  | .progress number => some number
  | _ => none

namespace Worker

@[simp] def held? : Worker → Option (WriteRequest Payload)
  | .holding request => some request
  | _ => none

@[simp] def fault? : Worker → Option Fault
  | .failed fault => some fault
  | _ => none

@[simp] def isWritten : Worker → Bool
  | .written => true
  | _ => false

end Worker

def BatchSettings.refusal? (settings : BatchSettings) (request : WriteRequest Payload) :
    Option Fault :=
  match request.address with
  | .fresh serial => settings.refused serial
  | .named _ => none

namespace Bench

def event? (settings : BatchSettings) (w : Worker) (b : Bench) : Option Event :=
  match w, (b.step settings w).1 with
  | .ready, .holding request => some (.pulled request)
  | .ready, .failed fault => some (.interrupted fault)
  | .holding request, .written => some (.wrote request)
  | .holding request, .failed fault => some (.unwritten request fault)
  | .written, _ => some (.drew (b.drawn + 1))
  | _, _ => none

def afterPull (b : Bench) : Bench :=
  let pulled := b.walk.pull Policy.array b.scene
  { b with
    walk := pulled.walk
    scene := pulled.scene
    reversedLog := pulled.log.reverse ++ b.reversedLog }

/-- The effects of a step, by its event. -/
inductive Happens (settings : BatchSettings) (directory : Location) (b : Bench) :
    Worker → Option Event → Worker → Bench → Prop where
  | pulled (payload : Payload)
      (hpull : (b.walk.pull Policy.array b.scene).outcome =
        .item (.request (.document b.scene.count payload))) :
      Happens settings directory b .ready (some (.pulled (.document b.scene.count payload)))
        (.holding (.document b.scene.count payload)) b.afterPull
  | ended (hpull : (b.walk.pull Policy.array b.scene).outcome = .stopped) :
      Happens settings directory b .ready none .ended b.afterPull
  | interrupted (fault : Fault)
      (hpull : (b.walk.pull Policy.array b.scene).outcome = .failed fault) :
      Happens settings directory b .ready (some (.interrupted fault)) (.failed fault) b.afterPull
  | wrote (request : WriteRequest Payload) (hrequest : settings.refusal? request = none) :
      Happens settings directory b (.holding request) (some (.wrote request)) .written
        { b with
          storage := b.storage.addDocument directory request.address request.content.content }
  | unwritten (request : WriteRequest Payload) (fault : Fault)
      (hrequest : settings.refusal? request = some fault) :
      Happens settings directory b (.holding request) (some (.unwritten request fault))
        (.failed fault) b
  | drew :
      Happens settings directory b .written (some (.drew (b.drawn + 1))) .ready
        { b with
          drawn := b.drawn + 1
          reversedLog :=
            (if ((b.drawn + 1 : Nat) : Int) % settings.interval = 0 then [.progress (b.drawn + 1)]
              else []) ++ b.reversedLog }
  | rested {w : Worker} (hw : w.isDone = true) : Happens settings directory b w none w b

end Bench

namespace Policy

theorem pull_array_outcome {w : Walk} (hwrites : w.writes = true) (s : Scene Nat) :
    let pulled := w.pull array s
    pulled.walk.writes = true ∧
      ((∃ payload, pulled.outcome = .item (.request (.document s.count payload)) ∧
          pulled.scene.count = s.count + 1) ∨
        (pulled.outcome = .stopped ∨ ∃ fault, pulled.outcome = .failed fault) ∧
          pulled.walk.finished = true ∧ pulled.scene.count = s.count) := by
  cases hw : w.finished with
  | true =>
    rw [Walk.pull_finished array s hw]
    exact ⟨hwrites, .inr ⟨.inl rfl, hw, rfl⟩⟩
  | false =>
    rw [pull_array_eq hw]
    dsimp only
    split
    · rename_i payload hturn
      exact ⟨hwrites, .inl ⟨payload, by rw [hwrites]; rfl, rfl⟩⟩
    · exact ⟨hwrites, .inr ⟨.inl rfl, rfl, rfl⟩⟩
    · exact ⟨hwrites, .inr ⟨.inr ⟨_, rfl⟩, rfl, rfl⟩⟩

/-! ### Pulls report no progress -/

theorem speaker_reports (stage : Stage) (fault : Fault) :
    ∀ entry ∈ fault.reports stage, entry.speaker = .splitter := by
  intro entry hentry
  obtain ⟨origin, -, rfl⟩ := Option.map_eq_some_iff.mp (Option.mem_toList.mp hentry)
  rfl

theorem speaker_serialize (r : Reader) :
    ∀ entry ∈ (Reading.serialize.run r).log, entry.speaker = .splitter := by
  cases houtcome : r.copy.1.outcome with
  | ok _ =>
    have hcopy : r.copy = (⟨.ok (), r.copy.1.text⟩, r.copy.2) := by rw [← houtcome]
    rw [serialize_run hcopy]
    simp
  | error fault =>
    have hcopy : r.copy = (⟨.error fault, r.copy.1.text⟩, r.copy.2) := by rw [← houtcome]
    rw [serialize_run_fails hcopy]
    exact speaker_reports .serialize fault

theorem speaker_process_array (keys : List (Option String)) (c : Cursor) (openArrays : Nat) :
    ∀ entry ∈ (Turn.process array keys c openArrays).log, entry.speaker = .splitter := by
  have hrun : ∀ entry ∈ ((array.build openArrays).run (Reader.view ⟨c, []⟩)).log,
      entry.speaker = .splitter := by
    simp only [array, Program.run_ofReading, Reading.run_map]
    exact speaker_serialize _
  unfold Turn.process
  dsimp only
  split
  · exact hrun
  · split <;> exact hrun

theorem speaker_visit_array (t : Token) (keys : List (Option String)) (c : Cursor)
    (openArrays : Nat) :
    ∀ entry ∈ (Turn.visit array t keys c openArrays).log, entry.speaker = .splitter := by
  have hnone : ∀ entry ∈ ([] : List Entry), entry.speaker = .splitter := by simp
  unfold Turn.visit
  split
  · exact hnone
  · exact hnone
  · split
    · exact hnone
    · unfold Turn.follow
      split
      · split <;> exact hnone
      · exact speaker_process_array keys c _
      · split <;> exact hnone
      · exact hnone
  · split
    · exact hnone
    · split <;> exact hnone

theorem speaker_traverse_array {log : List Entry} (hlog : ∀ entry ∈ log, entry.speaker = .splitter)
    (keys : List (Option String)) (c : Cursor) (openArrays : Nat) :
    ∀ entry ∈ (Turn.traverse array log keys c openArrays).log, entry.speaker = .splitter := by
  fun_induction Turn.traverse array log keys c openArrays with
  | case1 => exact hlog
  | case2 => exact hlog
  | case3 log keys c openArrays t c' hnext turn heq ih =>
    exact ih (List.forall_mem_append.mpr ⟨hlog, speaker_visit_array t keys c' openArrays⟩)
  | case4 log keys c openArrays t c' hnext turn hne =>
    exact List.forall_mem_append.mpr ⟨hlog, speaker_visit_array t keys c' openArrays⟩

theorem speaker_pull_array (w : Walk) (s : Scene Nat) :
    ∀ entry ∈ (w.pull array s).log, entry.speaker = .splitter := by
  cases hw : w.finished with
  | true =>
    rw [Walk.pull_finished array s hw]
    simp
  | false =>
    have hlog := speaker_traverse_array (List.forall_mem_nil _) w.keys s.cursor s.state
    rw [pull_array_eq hw]
    dsimp only
    split
    · exact List.forall_mem_append.mpr ⟨hlog, by simp [Entry.speaker]⟩
    · exact List.forall_mem_append.mpr ⟨hlog, by simp [Entry.speaker]⟩
    · exact List.forall_mem_append.mpr ⟨hlog, speaker_reports .traverse _⟩

theorem progress_pull_array (w : Walk) (s : Scene Nat) :
    (w.pull array s).log.filterMap Entry.progress? = [] := by
  rw [List.filterMap_eq_nil_iff]
  intro entry hentry
  have hspeaker := speaker_pull_array w s entry hentry
  cases entry <;> first | rfl | cases hspeaker

end Policy

namespace Bench

theorem writeStep_eq {settings : BatchSettings} {directory : Location}
    (htarget : settings.target = some directory) (request : WriteRequest Payload) (b : Bench) :
    b.writeStep settings request =
      match settings.refusal? request with
      | some fault => (.failed fault, b)
      | none =>
        (.written, { b with
          storage :=
            b.storage.addDocument directory request.address request.content.content }) := by
  unfold writeStep
  rw [htarget]
  rfl

theorem drawStep_eq {settings : BatchSettings} (hinterval : settings.interval ≠ 0) (b : Bench) :
    b.drawStep settings = (.ready, { b with
      drawn := b.drawn + 1
      reversedLog :=
        (if ((b.drawn + 1 : Nat) : Int) % settings.interval = 0 then [.progress (b.drawn + 1)]
          else []) ++ b.reversedLog }) := by
  unfold drawStep
  dsimp only
  rw [if_neg hinterval]
  split <;> simp_all

theorem happens_step {settings : BatchSettings} {directory : Location}
    (htarget : settings.target = some directory) (hinterval : settings.interval ≠ 0) {b : Bench}
    (hwrites : b.walk.writes = true) (w : Worker) :
    Happens settings directory b w (b.event? settings w) (b.step settings w).1
      (b.step settings w).2 := by
  cases w with
  | ready =>
    obtain ⟨-, ⟨payload, hitem, -⟩ | ⟨hstopped | ⟨fault, hfailed⟩, -, -⟩⟩ :=
      Policy.pull_array_outcome hwrites b.scene
    · simpa [event?, step, pullStep, hitem, afterPull] using Happens.pulled payload hitem
    · simpa [event?, step, pullStep, hstopped, afterPull] using Happens.ended hstopped
    · simpa [event?, step, pullStep, hfailed, afterPull] using Happens.interrupted fault hfailed
  | holding request =>
    cases hrequest : settings.refusal? request with
    | none =>
      simpa [event?, step, writeStep_eq htarget, hrequest] using Happens.wrote request hrequest
    | some fault =>
      simpa [event?, step, writeStep_eq htarget, hrequest] using
        Happens.unwritten request fault hrequest
  | written =>
    rw [event?, step, drawStep_eq hinterval]
    exact .drew
  | ended => exact .rested rfl
  | failed fault => exact .rested rfl

end Bench

/-! ## Histories -/

namespace Crew

def event? (settings : BatchSettings) (crew : Crew) (n : Nat) : Option Event :=
  crew.workers[n]?.bind fun w => crew.bench.event? settings w

/-- The events of a run, in order. -/
def history (settings : BatchSettings) (crew : Crew) : List Nat → List Event
  | [] => []
  | n :: schedule =>
    (crew.event? settings n).toList ++ history settings (crew.step settings n) schedule

/-- Invariants preserved by every event hold after every run. -/
theorem run_history {settings : BatchSettings} {Holds : Crew → List Event → Prop}
    (hstep : ∀ crew events n, Holds crew events →
      Holds (crew.step settings n) (events ++ (crew.event? settings n).toList))
    {crew : Crew} {events : List Event} (h : Holds crew events) (schedule : List Nat) :
    Holds (crew.run settings schedule) (events ++ crew.history settings schedule) := by
  induction schedule generalizing crew events with
  | nil => simpa [run, history] using h
  | cons n schedule ih =>
    have hrest := ih (hstep crew events n h)
    rw [List.append_assoc] at hrest
    exact hrest

end Crew

/-! ## Lists of which one place changes -/

theorem filterMap_append_of_nil {α β : Type} {as more : List α} {f : α → Option β}
    (hmore : more.filterMap f = []) : (as ++ more).filterMap f = as.filterMap f := by
  rw [List.filterMap_append, hmore, List.append_nil]

theorem filterMap_set_perm {α β : Type} {as : List α} {n : Nat} {a : α} (h : as[n]? = some a)
    (f : α → Option β) (a' : α) :
    ((as.set n a').filterMap f ++ (f a).toList).Perm (as.filterMap f ++ (f a').toList) := by
  induction as generalizing n with
  | nil => simp at h
  | cons first rest ih =>
    have hcons (x : α) (xs : List α) : (x :: xs).filterMap f = (f x).toList ++ xs.filterMap f := by
      cases hx : f x <;> simp [hx]
    cases n with
    | zero =>
      obtain rfl : first = a := by simpa using h
      rw [List.set_cons_zero, hcons, hcons, List.append_assoc, List.append_assoc]
      refine List.perm_append_comm.trans ?_
      rw [← List.append_assoc (f first).toList]
      exact List.perm_append_comm.append_right _
    | succ n =>
      have hrest := ih (n := n) (by simpa using h)
      rw [List.set_cons_succ, hcons, hcons, List.append_assoc, List.append_assoc]
      exact hrest.append_left _

theorem countP_set_add {α : Type} {as : List α} {n : Nat} {a : α} (h : as[n]? = some a)
    (p : α → Bool) (a' : α) :
    (as.set n a').countP p + [a].countP p = as.countP p + [a'].countP p := by
  have hlength := (filterMap_set_perm h (Option.guard p) a').length_eq
  have hguard (x : α) : (Option.guard p x).toList.length = [x].countP p := by
    cases hx : p x <;> simp [Option.guard, hx]
  simpa [List.filterMap_eq_filter, List.countP_eq_length_filter, hguard] using hlength

end JsonCleave
