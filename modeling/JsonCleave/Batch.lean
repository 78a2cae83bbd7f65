import JsonCleave.Beginning
import JsonCleave.Stream
import JsonCleave.Walk
/-!
# Batches: a file split by several workers

The workers share one walk. Each repeats three steps until the walk stops or fails for it: pull
a write request, write its document, and draw a progress number. `Bench.step` is one such
step of one worker; any interleaving of workers is a sequence of these steps.
-/

namespace JsonCleave

/-- State of a worker: ready to pull, holding a request to write, about to draw a progress number,
or done. -/
inductive Worker where
  | ready
  | holding (request : WriteRequest Payload)
  | written
  | ended
  | failed (fault : Fault)

namespace Worker

def isDone : Worker → Bool
  | .ended | .failed _ => true
  | _ => false

def rank : Worker → Nat
  | .ready => 1
  | .written => 2
  | .holding _ => 3
  | .ended | .failed _ => 0

end Worker

structure BatchSettings where
  target : Option Location
  interval : Int
  refused : Nat → Option Fault := fun _ => none

/-- State shared by the workers of a batch. `reversedLog` has its newest entry first. -/
structure Bench where
  walk : Walk
  scene : Scene Nat
  storage : Storage
  drawn : Nat := 0
  reversedLog : List Entry := []

namespace Bench

def pullStep (b : Bench) : Worker × Bench :=
  let pulled := b.walk.pull Policy.array b.scene
  let b' : Bench :=
    { b with
      walk := pulled.walk
      scene := pulled.scene
      reversedLog := pulled.log.reverse ++ b.reversedLog }
  match pulled.outcome with
  | .item (.request request) => (.holding request, b')
  | .item (.handle _) => (.written, b')
  | .stopped => (.ended, b')
  | .failed fault => (.failed fault, b')

def writeStep (settings : BatchSettings) (request : WriteRequest Payload) (b : Bench) :
    Worker × Bench :=
  match settings.target with
  | none => (.written, b)
  | some directory =>
    let fault? :=
      match request.address with
      | .fresh serial => settings.refused serial
      | .named _ => none
    match fault? with
    | some fault => (.failed fault, b)
    | none =>
      let text := request.content.content
      (.written, { b with storage := b.storage.addDocument directory request.address text })

def drawStep (settings : BatchSettings) (b : Bench) : Worker × Bench :=
  let drawn := b.drawn + 1
  if settings.interval = 0 then (.failed .zeroInterval, { b with drawn })
  else if (drawn : Int) % settings.interval = 0 then
    (.ready, { b with drawn, reversedLog := .progress drawn :: b.reversedLog })
  else (.ready, { b with drawn })

def step (settings : BatchSettings) (w : Worker) (b : Bench) : Worker × Bench :=
  match w with
  | .ready => b.pullStep
  | .holding request => b.writeStep settings request
  | .written => b.drawStep settings
  | done => (done, b)

/-- Termination measure of a worker, decreased by each of its steps. -/
def work (w : Worker) (b : Bench) : Nat := 4 * b.scene.cursor.pending.length + w.rank

theorem work_pullStep_lt (b : Bench) : b.pullStep.2.work b.pullStep.1 < b.work .ready := by
  have hle := Walk.length_pending_pull_le Policy.array b.walk b.scene
  have hlt := @Walk.length_pending_pull_lt _ _ Policy.array b.walk b.scene
  unfold pullStep work
  simp only []
  split
  · have := hlt ‹_›
    simp only [Worker.rank]
    omega
  · have := hlt ‹_›
    simp only [Worker.rank]
    omega
  · simp only [Worker.rank]
    omega
  · simp only [Worker.rank]
    omega

theorem work_writeStep_lt (settings : BatchSettings) (request : WriteRequest Payload)
    (b : Bench) :
    (b.writeStep settings request).2.work (b.writeStep settings request).1 <
      b.work (.holding request) := by
  unfold writeStep work
  split
  · simp [Worker.rank]
  · simp only []
    split <;> simp [Worker.rank]

theorem work_drawStep_lt (settings : BatchSettings) (b : Bench) :
    (b.drawStep settings).2.work (b.drawStep settings).1 < b.work .written := by
  unfold drawStep work
  simp only []
  split
  · simp [Worker.rank]
  · split <;> simp [Worker.rank]

theorem work_step_lt (settings : BatchSettings) {w : Worker} (b : Bench)
    (h : w.isDone = false) :
    (b.step settings w).2.work (b.step settings w).1 < b.work w := by
  cases w with
  | ready => exact b.work_pullStep_lt
  | holding request => exact b.work_writeStep_lt settings request
  | written => exact b.work_drawStep_lt settings
  | ended => simp [Worker.isDone] at h
  | failed => simp [Worker.isDone] at h

def finish (settings : BatchSettings) (w : Worker) (b : Bench) : Worker × Bench :=
  if _h : w.isDone then (w, b)
  else finish settings (b.step settings w).1 (b.step settings w).2
termination_by b.work w
decreasing_by exact work_step_lt settings b (by simpa using ‹¬w.isDone = true›)

def finishAll (settings : BatchSettings) (b : Bench) : Nat → List Worker × Bench
  | 0 => ([], b)
  | n + 1 =>
    let (w, b') := finish settings .ready b
    let (ws, b'') := finishAll settings b' n
    (w :: ws, b'')

end Bench

structure Crew where
  workers : List Worker
  bench : Bench

namespace Crew

def start (n : Nat) (bench : Bench) : Crew := ⟨List.replicate n .ready, bench⟩

def step (settings : BatchSettings) (crew : Crew) (n : Nat) : Crew :=
  match crew.workers[n]? with
  | none => crew
  | some w =>
    let (w', bench) := crew.bench.step settings w
    ⟨crew.workers.set n w', bench⟩

def run (settings : BatchSettings) (crew : Crew) (schedule : List Nat) : Crew :=
  schedule.foldl (step settings) crew

def fault? (workers : List Worker) : Option Fault :=
  workers.findSome? fun
    | .failed fault => some fault
    | _ => none

def isDone (crew : Crew) : Bool := crew.workers.all Worker.isDone

/-- Result of a finished crew: the first fault in worker order, or the count. -/
def outcome (crew : Crew) : Except Fault Nat :=
  match fault? crew.workers with
  | some fault => .error fault
  | none => .ok crew.bench.scene.count

def finishAll (settings : BatchSettings) (n : Nat) (bench : Bench) : Crew :=
  let (workers, bench) := bench.finishAll settings n
  ⟨workers, bench⟩

end Crew

inductive Destination where
  | nowhere
  | directory (path : Path)
  | unnamed
deriving DecidableEq, Repr

namespace Destination

def path? : Destination → Option Path
  | .directory path => some path
  | .nowhere | .unnamed => none

def make (d : Destination) (storage : Storage) : Except Fault Unit × Storage :=
  match d with
  | .nowhere => (.ok (), storage)
  | .directory path => storage.makeDirectory path
  | .unnamed => (.error .directoryUnnamed, storage)

end Destination

/-- Arguments of a batch split. `backend` is the value of the environment variable that names the
engine. -/
structure BatchJob where
  path : Path
  output : Destination
  workers : Int := 1
  interval : Int := 100000
  backend : Option String := none

structure BatchRun where
  outcome : Except Fault Nat
  storage : Storage
  log : List Entry

namespace BatchJob

def split (job : BatchJob) (target : Option Location) (bytes : List UInt8)
    (storage : Storage) : BatchRun :=
  match Cursor.ofStream none job.backend (some (.ofBytes bytes)) with
  | .error fault => ⟨.error fault, storage, []⟩
  | .ok (cursor, entry) =>
    let bench : Bench := { walk := { writes := true }, scene := ⟨cursor, 0, 0⟩, storage }
    let crew := Crew.finishAll { target, interval := job.interval } (max job.workers.toNat 1) bench
    let log := entry :: crew.bench.reversedLog.reverse
    match crew.outcome with
    | .error fault => ⟨.error fault, crew.bench.storage, log⟩
    | .ok count => ⟨.ok count, crew.bench.storage, log ++ [.done count]⟩

def splitFile (job : BatchJob) (storage : Storage) : BatchRun :=
  match storage.read job.path with
  | .error fault => ⟨.error fault, storage, []⟩
  | .ok bytes =>
    let target := job.output.path?.bind fun p => (storage.locate p).toOption
    job.split target bytes storage

/-- Runs a batch: detects the structure of the file, warns unless it is an array, makes the output
directory and splits. -/
def run (job : BatchJob) (storage : Storage) : BatchRun :=
  match Beginning.ofFile storage job.path with
  | .error fault => ⟨.error fault, storage, []⟩
  | .ok (beginning, log) =>
    let log :=
      if beginning = .array then log
      else log ++ [.noLeadingArray job.path.text beginning.label]
    match job.output.make storage with
    | (.error fault, storage) => ⟨.error fault, storage, log⟩
    | (.ok _, storage) =>
      let run := job.splitFile storage
      { run with log := log ++ run.log }

end BatchJob

end JsonCleave
