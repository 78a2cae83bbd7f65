import JsonCleave.Policy
/-!
# Policies written as tables

A rule table changes one of the two given policies without programming: rules decide
on containers by their key, a recipe of calls builds the payload, a text
marks payloads to be dropped, and write requests are fixed or refused. It keeps a record of
everything that its policy was asked.
-/

namespace JsonCleave

def occursIn (part : List Char) : List Char → Bool
  | [] => part.isEmpty
  | c :: rest => part.isPrefixOf (c :: rest) || occursIn part rest

inductive StepResult where
  | value (v : Value)
  | brokenCopy (written : String) (fault : Fault)
deriving Repr

inductive Handle where
  | single (result : StepResult)
  | series (results : List StepResult)
deriving Repr

namespace Handle

def value (v : Value) : Handle := .single (.value v)

def isNull : Handle → Bool
  | .single (.value .null) => true
  | _ => false

def text? : Handle → Option String
  | .single (.value v) => v.text?
  | _ => none

def mentions (part : String) (handle : Handle) : Bool :=
  handle.text?.any fun text => occursIn part.toList text.toList

end Handle

def Call.valueOf (fallback : Value) : (call : Call) → call.Answer → StepResult
  | .attend, _ => .value .null
  | .current, token => .value ((token.map fun t => Value.text t.label).getD .null)
  | .next, token => .value ((token.map fun t => Value.text t.label).getD .null)
  | .name, s => .value ((s.map Value.text).getD .null)
  | .text, s => .value ((s.map Value.text).getD .null)
  | .boolean, b => .value ((b.map Value.boolean).getD .null)
  | .integer, .found n => .value (.number (.integer n))
  | .integer, .other => .value fallback
  | .integer, .nothing => .value .null
  | .skip, _ => .value .null
  | .drain, _ => .value .null
  | .close, _ => .value .null
  | .copy, c =>
    match c.outcome with
    | .ok _ => .value (.text c.text)
    | .error fault => .brokenCopy c.text fault
  | .untilEnd, tokens => .value (.list (tokens.map fun t => .text t.label))
  | .depth, n => .value (.number (.integer n))

inductive Step where
  /-- A call, with the default of a pull for an integer. A copy that fails does not end the
  recipe. -/
  | call (call : Call) (fallback : Value)
  | copy
  | serialize
  | fail (fault : Fault)
deriving Repr

def Step.reading : Step → Reading (Except Fault StepResult)
  | .call c fallback =>
    .ask c fun answer => .give (answer.map (c.valueOf fallback))
  | .copy =>
    .ask .copy fun answer =>
      .give (answer.bind fun c => c.result.map fun text => .value (.text text))
  | .serialize => Reading.serialize.map fun text => text.map fun t => .value (.text t)
  | .fail fault => .give (.error fault)

inductive Serving where
  | allResults
  | lastResult
  | fixed (v : Value)
deriving Repr

/-- Calls of a handle builder on its view, and what it returns. -/
structure Recipe where
  steps : List Step
  serving : Serving
deriving Repr

namespace Recipe

def results : List Step → Reading (Except Fault (List StepResult))
  | [] => .give (.ok [])
  | step :: rest =>
    step.reading.bind fun result =>
      match result with
      | .error fault => .give (.error fault)
      | .ok r => (results rest).map fun later => later.map (r :: ·)

def serve (recipe : Recipe) (results : List StepResult) : Handle :=
  match recipe.serving with
  | .allResults => .series results
  | .lastResult => .single (results.getLast?.getD (.value .null))
  | .fixed v => .value v

def reading (recipe : Recipe) : Reading (Except Fault Handle) :=
  (results recipe.steps).map fun rs => rs.map recipe.serve

end Recipe

inductive Side where
  | entering
  | leaving
deriving DecidableEq, Repr

inductive KeyPattern where
  | any
  | exactly (key : Option String)
deriving DecidableEq, Repr

namespace KeyPattern

def accepts (key : Option String) : KeyPattern → Bool
  | .any => true
  | .exactly k => k == key

end KeyPattern

inductive Action where
  | decide (decision : Decision)
  | fail (fault : Fault)
deriving Repr

structure Rule where
  side : Side
  shape : Shape
  key : KeyPattern
  action : Action
deriving Repr

inductive RequestRule where
  | refuse (part : String) (fault : Fault)
  | fixed (kind : RequestKind) (address : String) (metadata : Value)
deriving Repr

inductive BasePolicy where
  | generic
  | array
deriving DecidableEq, Repr

/-- How handles are built: by the base policy, by a recipe in its place, or by a recipe given to it
as factory. -/
inductive Builder where
  | ofBase
  | replaced (recipe : Recipe)
  | factory (recipe : Recipe)
deriving Repr

structure RuleTable where
  base : BasePolicy
  rules : List Rule := []
  builder : Builder := .ofBase
  drop : Option String := none
  request : Option RequestRule := none
deriving Repr

namespace RuleTable

/-- A recorded hook call, with the array counter before it. -/
inductive Visit where
  | boundary (side : Side) (shape : Shape) (key : Option String) (openArrays : Nat)
  | build
deriving DecidableEq, Repr

structure State where
  openArrays : Nat := 0
  reversed : List Visit := []
deriving DecidableEq, Repr

def State.visits (s : State) : List Visit := s.reversed.reverse

def State.record (s : State) (visit : Visit) : State :=
  { s with reversed := visit :: s.reversed }

def rule? (table : RuleTable) (side : Side) (shape : Shape) (key : Option String) :
    Option Rule :=
  table.rules.find? fun rule =>
    rule.side == side && rule.shape == shape && rule.key.accepts key

def enterBase (table : RuleTable) (shape : Shape) (openArrays : Nat) : Decision × Nat :=
  match shape, table.base with
  | .object, _ => (Policy.enterObject openArrays, openArrays)
  | .array, .generic => Policy.enterArrayGeneric openArrays
  | .array, .array => Policy.enterArrayCounting openArrays

/-- A matching rule at the start of a container replaces the hook of the base policy. -/
def enter (table : RuleTable) (shape : Shape) (key : Option String) (s : State) :
    Except Fault Decision × State :=
  let s' := s.record (.boundary .entering shape key s.openArrays)
  match (table.rule? .entering shape key).map Rule.action with
  | some (.decide decision) => (.ok decision, s')
  | some (.fail fault) => (.error fault, s')
  | none =>
    let (decision, n) := table.enterBase shape s.openArrays
    (.ok decision, { s' with openArrays := n })

/-- A matching rule at the end of a container acts after the hook of the base policy. -/
def leave (table : RuleTable) (shape : Shape) (key : Option String) (s : State) :
    Except Fault Unit × State :=
  let s' := s.record (.boundary .leaving shape key s.openArrays)
  let s'' := { s' with openArrays := Policy.leaveContainer shape s.openArrays }
  match (table.rule? .leaving shape key).map Rule.action with
  | some (.fail fault) => (.error fault, s'')
  | _ => (.ok (), s'')

def buildBase (base : BasePolicy) : Reading (Except Fault Handle) :=
  Reading.serialize.map fun text => text.map fun t =>
    match base with
    | .generic => .value (.text t)
    | .array => .value (.payload ((Payload.mk t .unknown).withFormat .json))

def buildHandle (table : RuleTable) : Reading (Except Fault Handle) :=
  match table.builder with
  | .ofBase => buildBase table.base
  | .replaced recipe => recipe.reading
  | .factory recipe =>
    .ask .attend fun answer =>
      match answer with
      | .error fault => .give (.error fault)
      | .ok _ => recipe.reading

/-- Drops handles that are null or contain the marker text. -/
def keep? (table : RuleTable) (handle : Handle) : Option Handle :=
  if handle.isNull || table.drop.any (handle.mentions ·) then none else some handle

def requestBase (serial : Nat) (handle : Handle) : Except Fault (WriteRequest Handle) :=
  if handle.isNull then .error (.missing .payload) else .ok (.document serial handle)

def requestFor (table : RuleTable) (serial : Nat) (handle : Handle) :
    Except Fault (WriteRequest Handle) :=
  match table.request with
  | some (.refuse part fault) =>
    if handle.mentions part then .error fault else requestBase serial handle
  | some (.fixed kind address metadata) => .ok ⟨kind, .named address, metadata, handle⟩
  | none => requestBase serial handle

def policy (table : RuleTable) : Policy State Handle where
  enter := table.enter
  leave := table.leave
  build s :=
    .ofReading (table.buildHandle.map fun handle => (handle.map table.keep?, s.record .build))
  request serial handle s := (table.requestFor serial handle, s)

end RuleTable

end JsonCleave
