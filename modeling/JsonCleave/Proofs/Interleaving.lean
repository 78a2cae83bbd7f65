import Mathlib
import JsonCleave.Proofs.Crew
import JsonCleave.Proofs.Stance
/-!
# Batches in any order

Every schedule of the workers ends after a bounded number of steps, with the result of a single
reader.
-/

namespace JsonCleave

open Policy (array)

/-! ## A reader alone -/

namespace Policy

theorem pullAll_array_congr (w : Walk) (s : Scene Nat) (writes : Bool) (count : Nat) :
    let own := w.pullAll array s
    let other := Walk.pullAll array { w with writes } ⟨s.cursor, s.state, count⟩
    other.contents = own.contents ∧ other.faults = own.faults := by
  induction w, s using Walk.pullAll.induct array generalizing count with
  | case1 w s pulled i hitem ih =>
    obtain ⟨houtcome, hwalk, hcursor, hstate⟩ :=
      pull_array_congr w writes s.cursor s.state s.count count
    rw [show (w.pull array ⟨s.cursor, s.state, s.count⟩).outcome = .item i from hitem] at houtcome
    obtain ⟨i', hitem', hcontent⟩ := Outcome.eq_item_of_map_eq houtcome
    obtain ⟨hcontents, hfaults⟩ := Walk.reads_item hitem
    obtain ⟨hcontents', hfaults'⟩ := Walk.reads_item hitem'
    obtain ⟨hlater, hlaterFaults⟩ := ih
      (Walk.pull array { w with writes } ⟨s.cursor, s.state, count⟩).scene.count
    rw [← hwalk, ← hcursor, ← hstate] at hlater hlaterFaults
    exact ⟨by rw [hcontents', hcontents, hcontent, hlater],
      by rw [hfaults', hfaults, hlaterFaults]⟩
  | case2 w s pulled hstopped =>
    obtain ⟨houtcome, -⟩ := pull_array_congr w writes s.cursor s.state s.count count
    have hstopped' := Outcome.map_eq_stopped.mp
      (houtcome.trans (Outcome.map_eq_stopped.mpr hstopped))
    obtain ⟨hcontents, hfaults⟩ := Walk.reads_stopped hstopped
    obtain ⟨hcontents', hfaults'⟩ := Walk.reads_stopped hstopped'
    exact ⟨hcontents'.trans hcontents.symm, hfaults'.trans hfaults.symm⟩
  | case3 w s pulled fault hfailed =>
    obtain ⟨houtcome, -⟩ := pull_array_congr w writes s.cursor s.state s.count count
    have hfailed' := Outcome.map_eq_failed.mp
      (houtcome.trans (Outcome.map_eq_failed.mpr hfailed))
    obtain ⟨hcontents, hfaults⟩ := Walk.reads_failed hfailed
    obtain ⟨hcontents', hfaults'⟩ := Walk.reads_failed hfailed'
    exact ⟨hcontents'.trans hcontents.symm, hfaults'.trans hfaults.symm⟩

end Policy

namespace Reads

/-- The result of pulling a byte source to the end with one fresh walk. -/
def alone (reads : Reads) : Walk.Harvest Nat Payload :=
  Walk.pullAll array {} ⟨.ofFeed (.ofReads reads), 0, 0⟩

/-- The source delivers a whole document and a good ending. -/
def IsWhole (reads : Reads) : Prop :=
  ∃ (v : Tree) (later : Feed), Feed.ofReads reads = later.behind v.tokens ∧ later.Halts .complete

def IsPrintable (reads : Reads) : Prop :=
  ∀ t, .token t ∈ (Feed.ofReads reads).deliveries → t.IsPrintable .standard

theorem IsPrintable.of_behind {reads : Reads} (h : reads.IsPrintable) {ts : List Token}
    {later : Feed} (hfeed : Feed.ofReads reads = later.behind ts) :
    ∀ t ∈ ts, t.IsPrintable later.limit := by
  intro t ht
  have hlimit : later.limit = .standard :=
    (congrArg Feed.limit hfeed).symm.trans (Feed.limit_ofReads reads)
  rw [hlimit]
  refine h t ?_
  rw [hfeed]
  exact List.mem_append_left _ (List.mem_map_of_mem ht)

theorem alone_of_document {reads : Reads} {v : Tree} {later : Feed}
    (hfeed : Feed.ofReads reads = later.behind v.tokens) (hlater : later.Halts .complete)
    (hprint : ∀ w ∈ v.selection, w.IsPrintable later.limit) :
    reads.alone.contents = v.selection.map Tree.payload ∧ reads.alone.faults = [] := by
  have hreaches := Reaches.between (Policy.array_yields_tokens v hprint [])
  obtain ⟨keys, cursor, state, hharvest⟩ := Policy.array_quiet_pullAll_ends hreaches hlater 0
  rw [← Cursor.ofFeed_behind, ← hfeed, Walk.Harvest.quiet, Walk.Harvest.mk.injEq] at hharvest
  rw [Walk.Harvest.contents, Walk.Harvest.faults, alone, hharvest.1, hharvest.2.1]
  simp [Item.content, Reach.endFault?, Function.comp_def]

theorem faults_alone_of_isWhole {reads : Reads} (h : reads.IsWhole) (hprint : reads.IsPrintable) :
    reads.alone.faults = [] := by
  obtain ⟨v, later, hfeed, hcomplete⟩ := h
  exact (alone_of_document hfeed hcomplete
    (Tree.IsPrintable.of_mem_selection (hprint.of_behind hfeed))).2

theorem faults_alone_of_not_isWhole {reads : Reads} (h : ¬ reads.IsWhole) :
    ∃ fault, reads.alone.faults = [fault] ∧
      (reads.IsPrintable → ∃ stage origin, fault = .interrupted stage origin) := by
  obtain ⟨v, ts, later, hfeed, ⟨rfl, hcomplete⟩ | ⟨hts, origin, hfails⟩⟩ :=
    Feed.exists_ofReads_tellsOf reads
  · exact absurd ⟨v, later, hfeed, hcomplete⟩ h
  · have hfaults {payloads : List Payload} {reach : Reach}
        (hreaches : Reaches later.limit ts [] 0 payloads reach) :
        reads.alone.faults = [reach.fault origin] := by
      obtain ⟨keys, cursor, state, hharvest⟩ := Policy.array_quiet_pullAll_fails hreaches hfails 0
      rw [← Cursor.ofFeed_behind, ← hfeed, Walk.Harvest.quiet, Walk.Harvest.mk.injEq] at hharvest
      rw [Walk.Harvest.faults, alone, hharvest.2.1]
    have houtside : Stance.outside.reach = .between := rfl
    refine ⟨_, hfaults (Policy.reaches_stance houtside ts []), fun hprint => ?_⟩
    obtain ⟨us, hcut⟩ := hts
    have hcharts := hfaults (Tree.charts_tokens v 0 [] ts us hcut.symm (hprint.of_behind hfeed))
    rw [hfaults (Policy.reaches_stance houtside ts []), List.cons.injEq] at hcharts
    exact ⟨_, origin, hcharts.1.trans (Reach.fault_within _ origin)⟩

end Reads

def Bench.fresh (reads : Reads) (storage : Storage) : Bench :=
  { walk := { writes := true }, scene := ⟨.ofFeed (.ofReads reads), 0, 0⟩, storage }

namespace Crew

variable {settings : BatchSettings} {directory : Location} {storage : Storage}
  {alone : Walk.Harvest Nat Payload} {crew : Crew} {events : List Event}

/-! ## The end of a batch -/

def work (crew : Crew) : Nat :=
  4 * crew.bench.scene.cursor.pending.length + (crew.workers.map Worker.rank).sum

def isBusy (crew : Crew) (n : Nat) : Bool := crew.workers[n]?.any fun w => !w.isDone

/-- The steps of a schedule that are taken by unfinished workers. -/
def busySteps (settings : BatchSettings) (crew : Crew) : List Nat → Nat
  | [] => 0
  | n :: schedule =>
    (crew.isBusy n).toNat + busySteps settings (crew.step settings n) schedule

theorem sum_map_set_add {α : Type} {as : List α} {n : Nat} {a : α} (h : as[n]? = some a)
    (f : α → Nat) (a' : α) :
    ((as.set n a').map f).sum + f a = (as.map f).sum + f a' := by
  have hsum := (filterMap_set_perm h (fun x => some (f x)) a').sum_nat
  simpa [List.filterMap_eq_map'] using hsum

theorem work_step_add_le (settings : BatchSettings) (crew : Crew) (n : Nat) :
    (crew.isBusy n).toNat + (crew.step settings n).work ≤ crew.work := by
  cases hn : crew.workers[n]? with
  | none => simp [isBusy, Crew.step, hn]
  | some w =>
    have hset := sum_map_set_add hn Worker.rank (crew.bench.step settings w).1
    have hbusy : crew.isBusy n = !w.isDone := by simp [isBusy, hn]
    simp only [Crew.step, hn, hbusy, work]
    cases hdone : w.isDone with
    | true =>
      have hrests : crew.bench.step settings w = (w, crew.bench) := by
        cases w <;> simp_all [Bench.step, Worker.isDone]
      rw [hrests] at hset ⊢
      simp only [Bool.not_true, Bool.toNat_false] at hset ⊢
      omega
    | false =>
      have hlt := Bench.work_step_lt settings crew.bench hdone
      simp only [Bench.work] at hlt
      simp only [Bool.not_false, Bool.toNat_true]
      omega

/-- The number of such steps is bounded: no schedule runs forever. -/
theorem busySteps_add_work_le (settings : BatchSettings) (crew : Crew) (schedule : List Nat) :
    crew.busySteps settings schedule + (crew.run settings schedule).work ≤ crew.work := by
  induction schedule generalizing crew with
  | nil => simp [busySteps, run]
  | cons n schedule ih =>
    have hstep := work_step_add_le settings crew n
    have hrest := ih (crew.step settings n)
    rw [busySteps, run, List.foldl_cons]
    rw [run] at hrest
    omega

theorem length_workers_step (settings : BatchSettings) (crew : Crew) (n : Nat) :
    (crew.step settings n).workers.length = crew.workers.length := by
  unfold Crew.step
  split
  · rfl
  · exact List.length_set

theorem length_workers_run (settings : BatchSettings) (crew : Crew) (schedule : List Nat) :
    (crew.run settings schedule).workers.length = crew.workers.length := by
  induction schedule generalizing crew with
  | nil => rfl
  | cons n schedule ih => exact (ih _).trans (length_workers_step settings crew n)

/-! ## One after the other -/

theorem run_append (settings : BatchSettings) (crew : Crew) (schedule later : List Nat) :
    crew.run settings (schedule ++ later) = (crew.run settings schedule).run settings later :=
  List.foldl_append

theorem isDone_finish (settings : BatchSettings) (w : Worker) (b : Bench) :
    (b.finish settings w).1.isDone = true := by
  fun_induction Bench.finish settings w b with
  | case1 w b hdone => exact hdone
  | case2 w b hdone ih => exact ih

theorem exists_run_finish (settings : BatchSettings) (w : Worker) (b : Bench)
    (before after : List Worker) :
    ∃ schedule, run settings ⟨before ++ w :: after, b⟩ schedule =
      ⟨before ++ (b.finish settings w).1 :: after, (b.finish settings w).2⟩ := by
  fun_induction Bench.finish settings w b with
  | case1 w b hdone => exact ⟨[], rfl⟩
  | case2 w b hdone ih =>
    obtain ⟨schedule, hschedule⟩ := ih
    have hstep : step settings ⟨before ++ w :: after, b⟩ before.length =
        ⟨before ++ (b.step settings w).1 :: after, (b.step settings w).2⟩ := by
      simp [step]
    exact ⟨before.length :: schedule, by rw [run, List.foldl_cons, hstep]; exact hschedule⟩

theorem exists_run_bench_finishAll (settings : BatchSettings) (n : Nat) (b : Bench)
    (before : List Worker) :
    ∃ schedule, run settings ⟨before ++ List.replicate n .ready, b⟩ schedule =
        ⟨before ++ (b.finishAll settings n).1, (b.finishAll settings n).2⟩ ∧
      ∀ w ∈ (b.finishAll settings n).1, w.isDone = true := by
  induction n generalizing b before with
  | zero => exact ⟨[], rfl, by simp [Bench.finishAll]⟩
  | succ n ih =>
    obtain ⟨first, hfirst⟩ := exists_run_finish settings .ready b before (List.replicate n .ready)
    obtain ⟨rest, hrest, hdone⟩ := ih (b.finish settings .ready).2
      (before ++ [(b.finish settings .ready).1])
    refine ⟨first ++ rest, ?_, ?_⟩
    · rw [List.append_assoc, List.singleton_append] at hrest
      rw [run_append, List.replicate_succ, hfirst, hrest]
      simp [Bench.finishAll]
    · rintro w (_ | ⟨_, hw⟩)
      · exact isDone_finish settings .ready b
      · exact hdone w hw

theorem exists_run_finishAll (settings : BatchSettings) (n : Nat) (b : Bench) :
    ∃ schedule, run settings (start n b) schedule = finishAll settings n b ∧
      (finishAll settings n b).isDone = true := by
  obtain ⟨schedule, hrun, hdone⟩ := exists_run_bench_finishAll settings n b []
  rw [List.nil_append, List.nil_append] at hrun
  exact ⟨schedule, hrun, List.all_eq_true.mpr hdone⟩

/-! ## Done -/

theorem held_of_isDone (hdone : crew.isDone) : crew.workers.filterMap Worker.held? = [] := by
  rw [List.filterMap_eq_nil_iff]
  intro w hw
  have hw' := List.all_eq_true.mp hdone w hw
  cases w <;> simp_all [Worker.isDone]

theorem written_of_isDone (hdone : crew.isDone) : crew.workers.countP Worker.isWritten = 0 := by
  rw [List.countP_eq_zero]
  intro w hw
  have hw' := List.all_eq_true.mp hdone w hw
  cases w <;> simp_all [Worker.isDone]

theorem fault?_eq_head? (workers : List Worker) :
    fault? workers = (workers.filterMap Worker.fault?).head? := by
  rw [List.head?_filterMap, fault?]
  rfl

theorem outcome_eq_ok_iff {count : Nat} :
    crew.outcome = .ok count ↔
      crew.workers.filterMap Worker.fault? = [] ∧ crew.bench.scene.count = count := by
  rw [outcome, fault?_eq_head?]
  cases crew.workers.filterMap Worker.fault? <;> simp

theorem outcome_of_fault {fault : Fault} {faults : List Fault}
    (h : crew.workers.filterMap Worker.fault? = fault :: faults) :
    crew.outcome = .error fault := by
  rw [outcome, fault?_eq_head?, h, List.head?_cons]

theorem Accounts.start (reads : Reads) (n : Nat) :
    Accounts settings directory storage reads.alone (Crew.start n (.fresh reads storage)) [] := by
  obtain ⟨hcontents, hfaults⟩ := Policy.pullAll_array_congr {}
    ⟨.ofFeed (.ofReads reads), 0, 0⟩ true 0
  have hready {β : Type} (f : Worker → Option β) (hf : f .ready = none) :
      (List.replicate n Worker.ready).filterMap f = [] := by
    rw [List.filterMap_eq_nil_iff]
    intro w hw
    rw [(List.mem_replicate.mp hw).2, hf]
  refine ⟨⟨rfl, hcontents, rfl, hfaults⟩, ⟨?_, by simp, by simp, rfl⟩, ⟨rfl, ?_, rfl⟩,
    ⟨?_, ?_, by simp⟩⟩
  · simp [Crew.start, hready Worker.held? rfl]
  · simp [Crew.start, Bench.fresh]
  · simp [Crew.start, hready Worker.fault? rfl]
  · simp [Crew.start]

theorem Accounts.finished (h : Accounts settings directory storage alone crew events)
    (hdone : crew.isDone) (hworkers : crew.workers ≠ [])
    (hunwritten : events.filterMap Event.unwritten? = []) :
    crew.bench.walk.finished = true := by
  obtain ⟨w, hw⟩ := List.exists_mem_of_ne_nil _ hworkers
  have hdoneW := List.all_eq_true.mp hdone w hw
  cases w with
  | ended => exact h.charges.ended hw
  | failed fault =>
    have hmem : fault ∈ crew.workers.filterMap Worker.fault? :=
      List.mem_filterMap.mpr ⟨_, hw, rfl⟩
    have hcharged := h.charges.faults.mem_iff.mp hmem
    rw [hunwritten, List.map_nil, List.append_nil] at hcharged
    exact h.charges.interrupted (List.ne_nil_of_mem hcharged)
  | ready => cases hdoneW
  | holding request => cases hdoneW
  | written => cases hdoneW

theorem Accounts.read_of_finished (h : Accounts settings directory storage alone crew events)
    (hfinished : crew.bench.walk.finished = true) :
    (events.filterMap Event.pulled?).map (·.content) = alone.contents ∧
      events.filterMap Event.interrupted? = alone.faults := by
  obtain ⟨hcontents, hfaults⟩ := Walk.reads_finished hfinished crew.bench.scene
  have hall := h.pulls.contents
  have hallFaults := h.pulls.faults
  rw [hcontents, List.append_nil] at hall
  rw [hfaults, List.append_nil] at hallFaults
  exact ⟨hall, hallFaults⟩

theorem Accounts.length_pulled (h : Accounts settings directory storage alone crew events) :
    (events.filterMap Event.pulled?).length = crew.bench.scene.count := by
  simpa using congrArg List.length h.pulls.addresses

/-- The files of a finished crew are the documents whose writes did not fail. -/
theorem Accounts.files_of_isDone (h : Accounts settings directory storage alone crew events)
    (hdone : crew.isDone) (hworkers : crew.workers ≠ [])
    (hunwritten : events.filterMap Event.unwritten? = []) :
    let files := ((events.filterMap Event.wrote?).map (fileOf directory)).reverse
    files.length = crew.bench.scene.count ∧
      (files.map (·.text)).Perm (alone.contents.map (·.content)) ∧
      crew.bench.drawn = files.length := by
  have hshares := h.files.shares
  rw [hunwritten, held_of_isDone hdone, List.map_nil, List.append_nil, List.append_nil] at hshares
  have hread := (h.read_of_finished (h.finished hdone hworkers hunwritten)).1
  have hnumbers := h.numbers.files
  rw [written_of_isDone hdone] at hnumbers
  refine ⟨?_, ?_, ?_⟩
  · simpa [h.length_pulled] using hshares.length_eq.symm
  · rw [← hread, List.map_reverse, List.map_map, List.map_map]
    exact (List.reverse_perm _).trans (hshares.symm.map fun request => request.content.content)
  · simpa using hnumbers

theorem Charges.faults_eq_nil_iff {workers : List Worker} {b : Bench}
    (h : Charges workers b events) :
    workers.filterMap Worker.fault? = [] ↔
      events.filterMap Event.interrupted? = [] ∧ events.filterMap Event.unwritten? = [] := by
  rw [← List.length_eq_zero_iff, h.faults.length_eq, List.length_eq_zero_iff,
    List.append_eq_nil_iff, List.map_eq_nil_iff]

theorem Accounts.outcome_of_unwritten (h : Accounts settings directory storage alone crew events)
    (hunwritten : events.filterMap Event.unwritten? ≠ []) :
    ∃ fault, crew.outcome = .error fault := by
  cases hfaults : crew.workers.filterMap Worker.fault? with
  | nil => exact absurd (h.charges.faults_eq_nil_iff.mp hfaults).2 hunwritten
  | cons fault faults => exact ⟨fault, outcome_of_fault hfaults⟩

theorem Accounts.faults_of_isDone (h : Accounts settings directory storage alone crew events)
    (hdone : crew.isDone) (hworkers : crew.workers ≠ [])
    (hunwritten : events.filterMap Event.unwritten? = []) :
    (crew.workers.filterMap Worker.fault?).Perm alone.faults := by
  have hfinished := h.finished hdone hworkers hunwritten
  have hfaults := h.charges.faults
  rw [hunwritten, List.map_nil, List.append_nil, (h.read_of_finished hfinished).2] at hfaults
  exact hfaults

/-- For every schedule, every positive number of workers and every set of failing writes: documents
are pulled once each and in order, and each one is in exactly one file, or its write failed, or a
worker holds it; the number of steps is bounded. A batch that returns had a whole source and no
failed write, and its files, count and progress numbers `1, …, N` are those of a single reader. If
no write fails, a broken source leaves exactly one worker with a fault, which the batch raises, and
all complete documents are in files. If some write fails, the batch fails. -/
theorem splits_in_every_order (htarget : settings.target = some directory)
    (hinterval : settings.interval ≠ 0) (reads : Reads) (storage : Storage) {n : Nat} (hn : 0 < n)
    (schedule : List Nat) :
    let start := Crew.start n (.fresh reads storage)
    let crew := start.run settings schedule
    let events := start.history settings schedule
    let pulled := events.filterMap Event.pulled?
    let wrote := events.filterMap Event.wrote?
    let unwritten := events.filterMap Event.unwritten?
    let files := (wrote.map (fileOf directory)).reverse
    let reported := crew.bench.reversedLog.reverse.filterMap Entry.progress?
    pulled.map (·.content) <+: reads.alone.contents ∧
      pulled.map (·.address) = (List.range pulled.length).map .fresh ∧
      pulled.Perm (wrote ++ (unwritten.map Prod.fst ++ crew.workers.filterMap Worker.held?)) ∧
      (∀ request ∈ wrote, settings.refusal? request = none) ∧
      (∀ x ∈ unwritten, settings.refusal? x.1 = some x.2) ∧
      crew.bench.storage.documents = files ++ storage.documents ∧
      start.busySteps settings schedule ≤ 4 * (Feed.ofReads reads).deliveries.length + n ∧
      (crew.isDone →
        crew.workers.filterMap Worker.held? = [] ∧
        (∀ count, crew.outcome = .ok count →
          reads.IsWhole ∧ unwritten = [] ∧ files.length = count ∧
            (files.map (·.text)).Perm (reads.alone.contents.map (·.content)) ∧
            events.filterMap Event.drew? = List.range' 1 count ∧
            reported =
              (List.range' 1 count).filter fun k : Nat => (k : Int) % settings.interval = 0) ∧
        (reads.IsWhole → reads.IsPrintable → unwritten = [] →
          ∃ count, crew.outcome = .ok count) ∧
        (¬ reads.IsWhole → unwritten = [] → ∃ fault,
          crew.workers.filterMap Worker.fault? = [fault] ∧ crew.outcome = .error fault ∧
            (files.map (·.text)).Perm (reads.alone.contents.map (·.content)) ∧
            (reads.IsPrintable → ∃ stage origin, fault = .interrupted stage origin)) ∧
        (unwritten ≠ [] → ∃ fault, crew.outcome = .error fault)) := by
  intro start crew events pulled wrote unwritten files reported
  have h : Accounts settings directory storage reads.alone crew events :=
    (Accounts.start reads n).run htarget hinterval schedule
  have hworkers : crew.workers ≠ [] := by
    have hlength := length_workers_run settings start schedule
    simp only [start, Crew.start, List.length_replicate] at hlength
    exact List.ne_nil_of_length_pos (hlength ▸ hn)
  have hbusy := busySteps_add_work_le settings start schedule
  have hwork : start.work = 4 * (Feed.ofReads reads).deliveries.length + n := by
    simp [start, Crew.start, work, Bench.fresh, Worker.rank, Cursor.ofFeed]
  refine ⟨⟨_, h.pulls.contents⟩, ?_, h.files.shares, h.files.granted, h.files.refused,
    h.files.documents, by omega, fun hdone => ⟨held_of_isDone hdone, ?_, ?_, ?_,
      h.outcome_of_unwritten⟩⟩
  · rw [h.length_pulled]
    exact h.pulls.addresses
  · intro count hcount
    obtain ⟨hnoFault, hscene⟩ := outcome_eq_ok_iff.mp hcount
    obtain ⟨-, hunwritten⟩ := h.charges.faults_eq_nil_iff.mp hnoFault
    obtain ⟨hlength, htexts, hdrawn⟩ := h.files_of_isDone hdone hworkers hunwritten
    have hfaults := h.faults_of_isDone hdone hworkers hunwritten
    have hdrew : events.filterMap Event.drew? = List.range' 1 count := by
      rw [h.numbers.drawn, hdrawn, hlength, hscene]
    have hwhole : reads.IsWhole := Classical.byContradiction fun hbroken => by
      obtain ⟨fault, hfault, -⟩ := Reads.faults_alone_of_not_isWhole hbroken
      rw [hnoFault, hfault] at hfaults
      cases hfaults.nil_eq
    refine ⟨hwhole, hunwritten, hlength.trans hscene, htexts, hdrew, ?_⟩
    rw [← hdrew]
    exact h.numbers.reported
  · intro hwhole hprint hunwritten
    have hfaults := h.faults_of_isDone hdone hworkers hunwritten
    rw [Reads.faults_alone_of_isWhole hwhole hprint, List.perm_nil] at hfaults
    exact ⟨_, outcome_eq_ok_iff.mpr ⟨hfaults, rfl⟩⟩
  · intro hbroken hunwritten
    obtain ⟨fault, hfault, hinterrupted⟩ := Reads.faults_alone_of_not_isWhole hbroken
    have hfaults := h.faults_of_isDone hdone hworkers hunwritten
    rw [hfault, List.perm_singleton] at hfaults
    exact ⟨fault, hfaults, outcome_of_fault hfaults,
      (h.files_of_isDone hdone hworkers hunwritten).2.1, hinterrupted⟩

/-! ### Two workers -/

def pairSettings : BatchSettings := { target := some ["out"], interval := 2 }

def records : Reads := .ofBytes (utf8Bytes "[\x7b\"a\":1\x7d,\x7b\"b\":2\x7d]")

def turns : List Nat := [0, 1, 1, 0, 1, 0, 1, 0]

theorem isDone_turns :
    ((Crew.start 2 (.fresh records {})).run pairSettings turns).isDone = true := by
  cbv

theorem outcome_turns :
    ((Crew.start 2 (.fresh records {})).run pairSettings turns).outcome = .ok 2 := by
  cbv

theorem splits_in_turns :
    let start := Crew.start 2 (.fresh records {})
    let crew := start.run pairSettings turns
    let events := start.history pairSettings turns
    let files := ((events.filterMap Event.wrote?).map (fileOf ["out"])).reverse
    pairSettings.target = some ["out"] ∧ pairSettings.interval ≠ 0 ∧ 0 < 2 ∧
      crew.isDone = true ∧ crew.outcome = .ok 2 ∧ records.IsWhole ∧ files.length = 2 ∧
      (files.map (·.text)).Perm (records.alone.contents.map (·.content)) ∧
      events.filterMap Event.drew? = [1, 2] := by
  intro start crew events files
  have htarget : pairSettings.target = some ["out"] := rfl
  have hinterval : pairSettings.interval ≠ 0 := by decide
  have hpos : 0 < 2 := by decide
  obtain ⟨-, -, -, -, -, -, -, hsettled⟩ :=
    splits_in_every_order htarget hinterval records {} hpos turns
  obtain ⟨-, hreturns, -⟩ := hsettled isDone_turns
  obtain ⟨hwhole, -, hlength, htexts, hdrew, -⟩ := hreturns 2 outcome_turns
  exact ⟨htarget, hinterval, hpos, isDone_turns, outcome_turns, hwhole, hlength, htexts, hdrew⟩

end Crew

/-- The batch runs its workers one after the other, which is one of the schedules. -/
theorem BatchJob.exists_run_split (job : BatchJob)
    (hengine : Engine.choose none job.backend = .ok .exact) (target : Option Location)
    (bytes : List UInt8) (storage : Storage) :
    ∃ schedule,
      let crew := (Crew.start (max job.workers.toNat 1) (.fresh (.ofBytes bytes) storage)).run
        { target, interval := job.interval } schedule
      crew.isDone = true ∧ (job.split target bytes storage).outcome = crew.outcome ∧
        (job.split target bytes storage).storage = crew.bench.storage := by
  obtain ⟨schedule, hrun, hdone⟩ := Crew.exists_run_finishAll
    { target, interval := job.interval } (max job.workers.toNat 1)
    (.fresh (.ofBytes bytes) storage)
  refine ⟨schedule, ?_⟩
  dsimp only
  rw [hrun]
  refine ⟨hdone, ?_⟩
  unfold BatchJob.split
  rw [Cursor.ofStream_exact hengine]
  dsimp only [Bench.fresh]
  split <;> simp_all

end JsonCleave
