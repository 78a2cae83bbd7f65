import JsonCleave.Walk
import JsonCleave.Stream
/-!
# Sessions: cursors, views, policies, splitters and walks that share

A session holds the objects of a program that splits streams, by number, and does what a call on
one of them does to all of them. Two views may read one cursor, two walks may share a
cursor, a policy or a splitter; the sharing is in the numbers.
-/

namespace JsonCleave

structure Actor (σ α : Type) where
  policy : Policy σ α
  state : σ

structure View where
  cursor : Nat
  inner : List Nat
  depth : Nat := 1
deriving DecidableEq, Repr

inductive Place where
  | cursor (n : Nat)
  | view (n : Nat)
deriving DecidableEq, Repr

structure Splitter where
  policy : Nat
  count : Nat := 0
deriving DecidableEq, Repr

/-- A walk with the numbers of its cursor, policy and splitter. It keeps the policy that the
splitter had when it was made. -/
structure Course where
  walk : Walk
  splitter : Nat
  policy : Nat
  cursor : Nat
deriving DecidableEq, Repr

structure Session (σ α : Type) where
  cursors : List Cursor := []
  views : List View := []
  actors : List (Actor σ α) := []
  splitters : List Splitter := []
  courses : List Course := []

namespace Session

variable {σ α : Type}

/-! ## Cursors and views -/

def addCursor (s : Session σ α) (c : Cursor) : Nat × Session σ α :=
  (s.cursors.length, { s with cursors := s.cursors ++ [c] })

def depths (s : Session σ α) (views : List Nat) : List Nat :=
  views.filterMap fun n => s.views[n]?.map View.depth

/-- The depths of the views a place reads through, its own first, and the cursor they read from. -/
def chain? (s : Session σ α) : Place → Option (List Nat × Nat)
  | .cursor n => some ([], n)
  | .view n => s.views[n]?.map fun v => (n :: v.inner, v.cursor)

def reader? (s : Session σ α) (place : Place) : Option Reader :=
  (s.chain? place).bind fun (views, cursor) =>
    s.cursors[cursor]?.map fun c => ⟨c, s.depths views⟩

def setDepths (views : List View) : List Nat → List Nat → List View
  | n :: numbers, depth :: depths =>
    setDepths
      (match views[n]? with
        | some v => views.set n { v with depth }
        | none => views)
      numbers depths
  | _, _ => views

def putBack (s : Session σ α) (place : Place) (r : Reader) : Session σ α :=
  match s.chain? place with
  | none => s
  | some (views, cursor) =>
    { s with
      cursors := s.cursors.set cursor r.cursor
      views := setDepths s.views views r.depths }

def openView (s : Session σ α) (place : Place) : Option (Nat × Session σ α) :=
  (s.chain? place).map fun (inner, cursor) =>
    (s.views.length, { s with views := s.views ++ [{ cursor, inner }] })

def call (s : Session σ α) (place : Place) (call : Call) :
    Option (Except Fault call.Answer × Session σ α) :=
  (s.reader? place).map fun r =>
    let (answer, r') := r.answer call
    (answer, s.putBack place r')

def execute {β : Type} (s : Session σ α) (place : Option Place) (program : Program β) :
    β × Session σ α :=
  match place.bind fun p => (s.reader? p).map fun r => (p, r) with
  | none => (program.runWithout.1, s)
  | some (p, r) =>
    let run := program.run r
    (run.result, s.putBack p run.reader)

def perform {β : Type} (s : Session σ α) (place : Option Place) (reading : Reading β) :
    β × Session σ α :=
  s.execute place (.ofReading reading)

/-! ## Policies -/

def addPolicy (s : Session σ α) (actor : Actor σ α) : Nat × Session σ α :=
  (s.actors.length, { s with actors := s.actors ++ [actor] })

def setState (s : Session σ α) (policy : Nat) (state : σ) : Session σ α :=
  { s with actors := s.actors.modify policy fun actor => { actor with state } }

def enter (s : Session σ α) (policy : Nat) (shape : Shape) (key : Option String) :
    Option (Except Fault Decision × Session σ α) :=
  s.actors[policy]?.map fun actor =>
    let (decision, state) := actor.policy.enter shape key actor.state
    (decision, s.setState policy state)

def leave (s : Session σ α) (policy : Nat) (shape : Shape) (key : Option String) :
    Option (Except Fault Unit × Session σ α) :=
  s.actors[policy]?.map fun actor =>
    let (outcome, state) := actor.policy.leave shape key actor.state
    (outcome, s.setState policy state)

def build (s : Session σ α) (policy : Nat) (place : Option Place) :
    Option (Except Fault (Option α) × Session σ α) :=
  s.actors[policy]?.map fun actor =>
    let ((handle, state), s') := s.execute place (actor.policy.build actor.state)
    (handle, s'.setState policy state)

def request (s : Session σ α) (policy : Nat) (serial : Nat) (handle : α) :
    Option (Except Fault (WriteRequest α) × Session σ α) :=
  s.actors[policy]?.map fun actor =>
    let (request, state) := actor.policy.request serial handle actor.state
    (request, s.setState policy state)

/-! ## Splitters and walks -/

def addSplitter (s : Session σ α) (policy : Option Nat) : Except Fault (Nat × Session σ α) :=
  match policy with
  | none => .error (.missing .policy)
  | some policy => .ok (s.splitters.length, { s with splitters := s.splitters ++ [{ policy }] })

/-- Changes the policy of a splitter; walks made before keep theirs. -/
def setPolicy (s : Session σ α) (splitter : Nat) (policy : Option Nat) :
    Except Fault (Session σ α) :=
  match policy with
  | none => .error (.missing .policy)
  | some policy =>
    .ok { s with splitters := s.splitters.modify splitter fun sp => { sp with policy } }

/-- Makes a walk over a cursor and returns its number. Nothing is read. -/
def addWalk (s : Session σ α) (splitter : Option Nat) (cursor : Nat) (writes : Bool) :
    Except Fault (Nat × Session σ α) :=
  match splitter.bind fun n => s.splitters[n]?.map fun sp => (n, sp) with
  | none => .error (.missing .splitter)
  | some (n, sp) =>
    let course : Course := { walk := { writes }, splitter := n, policy := sp.policy, cursor }
    .ok (s.courses.length, { s with courses := s.courses ++ [course] })

def scene? (s : Session σ α) (course : Course) : Option (Policy σ α × Scene σ) := do
  let cursor ← s.cursors[course.cursor]?
  let actor ← s.actors[course.policy]?
  let splitter ← s.splitters[course.splitter]?
  pure (actor.policy, ⟨cursor, actor.state, splitter.count⟩)

def putCourse (s : Session σ α) (n : Nat) (course : Course) (walk : Walk) (scene : Scene σ) :
    Session σ α :=
  let s := s.setState course.policy scene.state
  { s with
    cursors := s.cursors.set course.cursor scene.cursor
    splitters := s.splitters.modify course.splitter fun sp => { sp with count := scene.count }
    courses := s.courses.set n { course with walk } }

def pull (s : Session σ α) (n : Nat) : Option (Outcome (Item α) × Session σ α) := do
  let course ← s.courses[n]?
  let (policy, scene) ← s.scene? course
  let pulled := course.walk.pull policy scene
  pure (pulled.outcome, s.putCourse n course pulled.walk pulled.scene)

def pullAll (s : Session σ α) (n : Nat) :
    Option (List (Item α) × Except Fault Unit × Session σ α) := do
  let course ← s.courses[n]?
  let (policy, scene) ← s.scene? course
  let harvest := course.walk.pullAll policy scene
  pure (harvest.items, harvest.outcome.getD (.ok ()),
    s.putCourse n course harvest.walk harvest.scene)

end Session

end JsonCleave
