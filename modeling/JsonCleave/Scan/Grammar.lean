import JsonCleave.Token
/-!
# The grammar of a document

A document is a sequence of signs: brackets, commas, colons and scalars. The grammar says which
sign may come next, and which token it delivers if it may. It does not know how signs are
spelled; that is the scanners' part.
-/

namespace JsonCleave

inductive Sign where
  | opening (shape : Shape)
  | closing (shape : Shape)
  | comma
  | colon
  | scalar (value : Scalar)
deriving DecidableEq, Repr

inductive Expectation where
  | value
  | firstElement
  | firstKey
  | key
  | colon
  /-- Behind a value: a comma or the closing bracket, and behind the root nothing at all. -/
  | separator
deriving DecidableEq, Repr

/-- Parser state: the open containers, innermost first, and what may come next. -/
structure Grammar where
  enclosing : List Shape
  expects : Expectation
deriving DecidableEq, Repr

namespace Grammar

def start : Grammar := ⟨[], .value⟩

def isComplete (g : Grammar) : Bool := g.enclosing.isEmpty && g.expects == .separator

def wantsValue (g : Grammar) : Bool := g.expects == .value || g.expects == .firstElement

def wantsKey (g : Grammar) : Bool := g.expects == .key || g.expects == .firstKey

def mayClose (g : Grammar) : Bool :=
  g.expects == .separator || g.expects == .firstElement || g.expects == .firstKey

def atStart : Shape → Expectation
  | .object => .firstKey
  | .array => .firstElement

def behindComma : Shape → Expectation
  | .object => .key
  | .array => .value

/-- Accepts a sign: the token it delivers, if any, and the next state; none if it is out of
place. -/
def accept? (g : Grammar) : Sign → Option (Option Token × Grammar)
  | .opening shape =>
    if g.wantsValue then some (some (.opening shape), ⟨shape :: g.enclosing, atStart shape⟩)
    else none
  | .closing shape =>
    if g.mayClose ∧ g.enclosing.head? = some shape then
      some (some (.closing shape), ⟨g.enclosing.tail, .separator⟩)
    else none
  | .comma =>
    match g.expects, g.enclosing with
    | .separator, shape :: _ => some (none, { g with expects := behindComma shape })
    | _, _ => none
  | .colon =>
    if g.expects = .colon then some (none, { g with expects := .value }) else none
  | .scalar value =>
    if g.wantsValue then some (some (.scalar value), { g with expects := .separator })
    else
      match value with
      | .string name =>
        if g.wantsKey then some (some (.key name), { g with expects := .colon }) else none
      | _ => none

end Grammar

end JsonCleave
