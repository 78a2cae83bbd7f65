import JsonCleave.Proofs.Directory
import JsonCleave.Proofs.Upload
/-!
# Agreement of listing, lines and batch

The listing collects all documents, the lines hand them out one by one, and the batch writes or
counts them. The results of all three are determined by a split of the bytes by a single walk.
-/

namespace JsonCleave

/-! ## Batches that write and batches that count -/

theorem BatchSettings.refusal?_none (target : Option Location) (interval : Int)
    (request : WriteRequest Payload) :
    ({ target, interval } : BatchSettings).refusal? request = none := by
  unfold refusal?
  split <;> rfl

namespace Bench

theorem writeStep_written (target : Option Location) (interval : Int)
    (request : WriteRequest Payload) (b : Bench) :
    ∃ storage, b.writeStep { target, interval } request = (.written, { b with storage }) := by
  cases target with
  | none => exact ⟨b.storage, rfl⟩
  | some directory =>
    rw [writeStep_eq rfl, BatchSettings.refusal?_none]
    exact ⟨_, rfl⟩

theorem step_target (target target' : Option Location) (interval : Int) (w : Worker) (b : Bench)
    (storage : Storage) :
    ∃ storage', { b with storage := storage }.step { target := target', interval } w =
      ((b.step { target, interval } w).1,
        { (b.step { target, interval } w).2 with storage := storage' }) := by
  cases w with
  | ready =>
    refine ⟨storage, ?_⟩
    simp only [step, pullStep]
    split <;> rfl
  | holding request =>
    obtain ⟨storage', hother⟩ :=
      writeStep_written target' interval request { b with storage := storage }
    obtain ⟨_, hown⟩ := writeStep_written target interval request b
    exact ⟨storage', by rw [step, hother, step, hown]⟩
  | written =>
    refine ⟨storage, ?_⟩
    simp only [step, drawStep]
    split
    · rfl
    · split <;> rfl
  | ended => exact ⟨storage, rfl⟩
  | failed fault => exact ⟨storage, rfl⟩

theorem finish_target (target target' : Option Location) (interval : Int) (w : Worker) (b : Bench)
    (storage : Storage) :
    ∃ storage', { b with storage := storage }.finish { target := target', interval } w =
      ((b.finish { target, interval } w).1,
        { (b.finish { target, interval } w).2 with storage := storage' }) := by
  fun_induction finish { target, interval } w b generalizing storage with
  | case1 w b hdone => exact ⟨storage, by rw [finish, dif_pos hdone]⟩
  | case2 w b hdone ih =>
    obtain ⟨later, hstep⟩ := step_target target target' interval w b storage
    obtain ⟨storage', hfinish⟩ := ih later
    exact ⟨storage', by rw [finish, dif_neg hdone, hstep, hfinish]⟩

theorem finishAll_target (target target' : Option Location) (interval : Int) (n : Nat) (b : Bench)
    (storage : Storage) :
    ∃ storage', { b with storage := storage }.finishAll { target := target', interval } n =
      ((b.finishAll { target, interval } n).1,
        { (b.finishAll { target, interval } n).2 with storage := storage' }) := by
  induction n generalizing b storage with
  | zero => exact ⟨storage, rfl⟩
  | succ n ih =>
    obtain ⟨later, hfinish⟩ := finish_target target target' interval .ready b storage
    obtain ⟨storage', hrest⟩ := ih (b.finish { target, interval } .ready).2 later
    exact ⟨storage', by simp only [finishAll, hfinish, hrest]⟩

end Bench

namespace BatchJob

variable (job : BatchJob) {bytes : List UInt8} {fault : Fault}

/-- The result of a batch does not depend on whether documents are written. -/
theorem outcome_split_target (target target' : Option Location)
    (bytes : List UInt8) (storage storage' : Storage) :
    (job.split target' bytes storage').outcome = (job.split target bytes storage).outcome := by
  unfold split
  cases hstream : Cursor.ofStream none job.backend (some (.ofBytes bytes)) with
  | error fault => rfl
  | ok stream =>
    obtain ⟨cursor, entry⟩ := stream
    obtain ⟨later, hfinish⟩ := Bench.finishAll_target target target' job.interval
      (max job.workers.toNat 1)
      { walk := { writes := true }, scene := ⟨cursor, 0, 0⟩, storage } storage'
    simp only [Crew.finishAll, Crew.outcome, hfinish]
    split <;> simp_all

theorem exists_accounts (hengine : Engine.choose none job.backend = .ok .exact)
    (hinterval : job.interval ≠ 0) (place : Location)
    (bytes : List UInt8) (storage : Storage) :
    ∃ crew events,
      Crew.Accounts { target := some place, interval := job.interval } place storage
        (Reads.ofBytes bytes).alone crew events ∧
      crew.isDone = true ∧ crew.workers ≠ [] ∧ events.filterMap Event.unwritten? = [] ∧
      (job.split (some place) bytes storage).outcome = crew.outcome ∧
      (job.split (some place) bytes storage).storage = crew.bench.storage := by
  obtain ⟨schedule, hdone, houtcome, hstorage⟩ :=
    job.exists_run_split hengine (some place) bytes storage
  have haccounts : Crew.Accounts { target := some place, interval := job.interval } place storage
      (Reads.ofBytes bytes).alone _ _ :=
    Crew.Accounts.run rfl hinterval (.start (.ofBytes bytes) (max job.workers.toNat 1)) schedule
  refine ⟨_, _, haccounts, hdone, ?_, ?_, houtcome, hstorage⟩
  · refine List.ne_nil_of_length_pos ?_
    rw [Crew.length_workers_run]
    simp [Crew.start]
  · rw [List.eq_nil_iff_forall_not_mem]
    intro x hx
    have hrefused := haccounts.files.refused x hx
    rw [BatchSettings.refusal?_none] at hrefused
    cases hrefused

theorem split_whole (hengine : Engine.choose none job.backend = .ok .exact)
    (hinterval : job.interval ≠ 0)
    (hend : (Reads.ofBytes bytes).alone.faults = []) (place : Location) (storage : Storage) :
    let items := (Reads.ofBytes bytes).alone.contents
    let run := job.split (some place) bytes storage
    run.outcome = .ok items.length ∧
      ∃ files, run.storage.documents = files ++ storage.documents ∧
        (files.map (·.text)).Perm (items.map (·.content)) ∧
        (∀ file ∈ files, file.directory = place) ∧ (files.map (·.address)).Nodup := by
  intro items run
  obtain ⟨crew, events, haccounts, hdone, hworkers, hunwritten, houtcome, hstorage⟩ :=
    job.exists_accounts hengine hinterval place bytes storage
  obtain ⟨hlength, htexts, -⟩ := haccounts.files_of_isDone hdone hworkers hunwritten
  have hfaults := haccounts.faults_of_isDone hdone hworkers hunwritten
  rw [hend, List.perm_nil] at hfaults
  have hcount : crew.bench.scene.count = items.length := by
    rw [← hlength]
    simpa [items] using htexts.length_eq
  refine ⟨houtcome.trans (Crew.outcome_eq_ok_iff.mpr ⟨hfaults, hcount⟩), _,
    hstorage ▸ haccounts.files.documents, htexts, fun file hfile => ?_, ?_⟩
  · obtain ⟨request, -, rfl⟩ := List.mem_map.mp (List.mem_reverse.mp hfile)
    rfl
  · -- every document pulled is in a file, and those pulled have addresses of their own
    have hshares := haccounts.files.shares
    rw [hunwritten, Crew.held_of_isDone hdone, List.map_nil, List.append_nil, List.append_nil]
      at hshares
    have haddresses := (hshares.map (·.address)).nodup_iff.mp
      (haccounts.pulls.addresses ▸ List.nodup_range.map fun _ _ => Address.fresh.inj)
    simpa [Crew.fileOf, Function.comp_def] using haddresses

theorem split_broken (hengine : Engine.choose none job.backend = .ok .exact)
    (hinterval : job.interval ≠ 0)
    (hend : (Reads.ofBytes bytes).alone.faults = [fault]) (place : Location) (storage : Storage) :
    (job.split (some place) bytes storage).outcome = .error fault := by
  obtain ⟨crew, events, haccounts, hdone, hworkers, hunwritten, houtcome, -⟩ :=
    job.exists_accounts hengine hinterval place bytes storage
  have hfaults := haccounts.faults_of_isDone hdone hworkers hunwritten
  rw [hend, List.perm_singleton] at hfaults
  exact houtcome.trans (Crew.outcome_of_fault hfaults)

variable {storage storage' : Storage}

theorem outcome_run_nowhere (houtput : job.output = .nowhere)
    (hread : storage.read job.path = .ok bytes) :
    (job.run storage).outcome = (job.split none bytes storage).outcome := by
  simp only [run, Beginning.ofFile, hread, houtput, Destination.make, splitFile, Destination.path?]
  rfl

theorem run_directory {directory : Path} (houtput : job.output = .directory directory)
    (hread : storage.read job.path = .ok bytes)
    (hdirectory : storage.makeDirectory directory = (.ok (), storage')) :
    ∃ place, storage'.locate directory = .ok place ∧
      (job.run storage).outcome = (job.split (some place) bytes storage').outcome ∧
      (job.run storage).storage = (job.split (some place) bytes storage').storage := by
  obtain ⟨hkept, place, hplace⟩ := Storage.made_makeDirectory hdirectory
  have hsplit : job.splitFile storage' = job.split (some place) bytes storage' := by
    simp [splitFile, hkept.read hread, houtput, Destination.path?, hplace, Except.toOption]
  refine ⟨place, hplace, ?_⟩
  simp [run, Beginning.ofFile, hread, houtput, Destination.make, hdirectory, hsplit]

end BatchJob

/-! ## All of them -/

/-- A split of bytes ends well or with a fault, which is an interruption if all integers are within
the digit limit. -/
theorem Reads.alone_ends (reads : Reads) :
    reads.alone.faults = [] ∧ reads.alone.outcome = some (.ok ()) ∨
      ∃ fault, reads.alone.faults = [fault] ∧ reads.alone.outcome = some (.error fault) ∧
        (reads.IsPrintable → ∃ stage origin, fault = .interrupted stage origin) := by
  obtain hgood | ⟨fault, hfaults, houtcome⟩ :=
    Walk.pullAll_ends {} ⟨.ofFeed (.ofReads reads), 0, 0⟩
  · exact .inl hgood
  · refine .inr ⟨fault, hfaults, houtcome, fun hprint => ?_⟩
    rw [← alone] at hfaults
    by_cases hwhole : reads.IsWhole
    · rw [faults_alone_of_isWhole hwhole hprint] at hfaults
      cases hfaults
    · obtain ⟨fault', hbroken, hinterrupted⟩ := faults_alone_of_not_isWhole hwhole
      obtain rfl := List.singleton_inj.mp (hfaults.symm.trans hbroken)
      exact hinterrupted hprint

variable {settings : ServiceSettings} {upload : Upload} {bytes : List UInt8}

def cutOffArray : List UInt8 := utf8Bytes "[\x7b\"a\":1\x7d,[2],\x7b"

def inThrees : ServiceSettings := { chunkSize := some "3" }

def shelf : Storage := { nodes := [(["in"], .file cutOffArray)] }

theorem alone_cutOffArray :
    (Reads.ofBytes cutOffArray).alone.contents = [⟨"\x7b\"a\":1\x7d", .json⟩, ⟨"[2]", .json⟩] ∧
      (Reads.ofBytes cutOffArray).alone.outcome =
        some (.error (.interrupted .serialize (.malformed none))) := by
  have halone : (Reads.ofBytes cutOffArray).alone = Walk.pullMany .array {} _ 10 :=
    (Walk.pullMany_eq_pullAll (by cbv)).symm
  rw [halone]
  exact ⟨by cbv, by cbv⟩

theorem read_shelf : shelf.read ⟨.here, ["in"]⟩ = .ok cutOffArray := by
  have hlocate : shelf.locate ⟨.here, ["in"]⟩ = .ok ["in"] := by decide +kernel
  rw [Storage.read, hlocate]
  rfl

theorem makeDirectory_shelf :
    shelf.makeDirectory ⟨.here, ["out"]⟩ = (.ok (), shelf.put ["out"] .directory) := by
  have hnul : Path.hasNul ⟨.here, ["out"]⟩ = false := by decide +kernel
  have hone : shelf.makeOne ⟨.here, ["out"]⟩ = .ok (shelf.put ["out"] .directory) := by
    decide +kernel
  simp [Storage.makeDirectory, Storage.makeUpTo, hnul, hone]

def oneRecord : List UInt8 := utf8Bytes "[\x7b\"id\":1\x7d]"

def oversized : ServiceSettings := { chunkSize := some "9223372036854775808" }

end JsonCleave
