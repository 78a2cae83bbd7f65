import JsonCleave.Written.Literal
/-!
# Writing tokens as compact JSON text

A writer turns a sequence of tokens into text. It keeps one entry per open
container: the container's shape, and how many entries were written into it. A comma goes in
front of an element of an array and in front of a member name, unless it is the
container's first; a member's value follows its name without one.
-/

namespace JsonCleave

namespace Shape

def opener : Shape → String
  | .object => "\x7b"
  | .array => "["

def closer : Shape → String
  | .object => "\x7d"
  | .array => "]"

end Shape

/-- The text so far and the open containers, innermost first, with the number of entries written
into each. -/
structure Writer where
  levels : List (Shape × Nat)
  text : String
deriving DecidableEq, Repr

namespace Writer

def countsIn (isKey : Bool) (shape : Shape) : Bool := shape == .array || isKey

/-- Counts a new entry in the innermost container, with a comma unless it is the first. -/
def separate (w : Writer) (isKey : Bool) : Writer :=
  match w.levels with
  | [] => w
  | (shape, written) :: outer =>
    if countsIn isKey shape then
      { levels := (shape, written + 1) :: outer
        text := if written = 0 then w.text else w.text ++ "," }
    else w

def put (w : Writer) (s : String) : Writer := { w with text := w.text ++ s }

/-- Writes one token. A closing bracket closes the innermost container, whatever its shape. -/
def write (w : Writer) : Token → Writer
  | .closing shape => { levels := w.levels.tail, text := w.text ++ shape.closer }
  | .opening shape =>
    let w := (w.separate false).put shape.opener
    { w with levels := (shape, 0) :: w.levels }
  | .key name => ((w.separate true).put (literal name)).put ":"
  | .scalar v => (w.separate false).put v.written

def start (shape : Shape) : Writer := ⟨[(shape, 0)], shape.opener⟩

def isDone (w : Writer) : Bool := w.levels.isEmpty

end Writer

end JsonCleave
