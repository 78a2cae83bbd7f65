import JsonCleave.Program
/-!
# Policies: which containers become payloads

At the start of every object and array that a split meets, a policy decides whether to go into the
container, to take it as a payload, or to skip it; it is told the end of every
container gone into. A policy has a state of its own, and builds payloads with a program that reads
the container.

Two policies are given. Both take what lies directly inside the first array met, and
count the arrays gone into; they differ in what they hand out.
-/

namespace JsonCleave

inductive Decision where
  | descend
  | process
  | skip
  | unknown (answer : Value)
deriving Repr

namespace Decision

def label? : Decision → Option String
  | .descend => some "descend"
  | .process => some "process"
  | .skip => some "skip"
  | .unknown _ => none

end Decision

/-- Hooks of a split with states in `σ` and handles in `α`. A hook that fails may still change the
state. The key is the name of the member that holds the container. -/
structure Policy (σ α : Type) where
  enter : Shape → Option String → σ → Except Fault Decision × σ
  leave : Shape → Option String → σ → Except Fault Unit × σ
  /-- Builds the payload of a container to be processed; none drops it. -/
  build : σ → Program (Except Fault (Option α) × σ)
  /-- Wraps a payload into a write request; a fresh address takes the given serial number. -/
  request : Nat → α → σ → Except Fault (WriteRequest α) × σ

namespace Policy

/-- Objects are processed inside an open array and descended into elsewhere. -/
def enterObject (openArrays : Nat) : Decision :=
  if 0 < openArrays then .process else .descend

/-- The generic rule for arrays: processed inside an open array, otherwise counted and descended
into. -/
def enterArrayGeneric (openArrays : Nat) : Decision × Nat :=
  if 0 < openArrays then (.process, openArrays) else (.descend, openArrays + 1)

/-- The counting rule for arrays: counted first, and processed and counted back unless it is the
only open one. -/
def enterArrayCounting (openArrays : Nat) : Decision × Nat :=
  let counted := openArrays + 1
  if 1 < counted then (.process, counted - 1) else (.descend, counted)

/-- The end of an array lowers the counter, not below zero; the end of an object leaves it. -/
def leaveContainer (shape : Shape) (openArrays : Nat) : Nat :=
  match shape with
  | .object => openArrays
  | .array => openArrays - 1

def requestDocument {σ α : Type} (serial : Nat) (handle : α) (state : σ) :
    Except Fault (WriteRequest α) × σ :=
  (.ok (.document serial handle), state)

def generic : Policy Nat String where
  enter shape _ openArrays :=
    match shape with
    | .object => (.ok (enterObject openArrays), openArrays)
    | .array => let (decision, n) := enterArrayGeneric openArrays; (.ok decision, n)
  leave shape _ openArrays := (.ok (), leaveContainer shape openArrays)
  build openArrays :=
    .ofReading (Reading.serialize.map fun text => (text.map some, openArrays))
  request := requestDocument

def array : Policy Nat Payload where
  enter shape _ openArrays :=
    match shape with
    | .object => (.ok (enterObject openArrays), openArrays)
    | .array => let (decision, n) := enterArrayCounting openArrays; (.ok decision, n)
  leave shape _ openArrays := (.ok (), leaveContainer shape openArrays)
  build openArrays :=
    .ofReading (Reading.serialize.map fun text =>
      (text.map fun t => some ((Payload.mk t .unknown).withFormat .json), openArrays))
  request := requestDocument

end Policy

end JsonCleave
