import JsonCleave.Cursor
import JsonCleave.Written.Writer
/-!
# Readers: a cursor seen through views

A view restricts a cursor to one container: it counts the containers open inside it and
refuses to read on when that count is zero. Views may be opened on views. A
reader is a cursor together with the depths of the views it is seen through, the
outermost last opened first; the bare cursor is the reader without views. All calls are
defined for every reader, by recursion on its views.
-/

namespace JsonCleave

/-- A cursor behind a stack of views; `depths` lists their depths, the innermost view first. -/
structure Reader where
  cursor : Cursor
  depths : List Nat := []
deriving DecidableEq, Repr

inductive IntegerPull where
  | found (n : Int)
  /-- Another token was read: the caller's default stands in. -/
  | other
  | nothing
deriving DecidableEq, Repr

namespace Reader

def current (r : Reader) : Option Token := r.cursor.current

/-- A view is open until its depth is zero; a bare cursor always is. -/
def isOpen (r : Reader) : Bool := r.depths.head? != some 0

/-- A pull through views. A view of depth zero answers `closed` and reads nothing; an open one
passes the pull on and adjusts its depth by the token that is then current. -/
def pullThrough {β : Type} (closed : Except Fault β) (project : Option Token → β) :
    List Nat → Cursor → Except Fault β × List Nat × Cursor
  | [], c =>
    match c.next with
    | (.error fault, c') => (.error fault, [], c')
    | (.ok t, c') => (.ok (project t), [], c')
  | depth :: inner, c =>
    if depth = 0 then (closed, depth :: inner, c)
    else
      match pullThrough closed project inner c with
      | (.error fault, inner', c') => (.error fault, depth :: inner', c')
      | (.ok answer, inner', c') =>
        match c'.current with
        | none => (.error .unfinishedView, depth :: inner', c')
        | some t => (.ok answer, t.shift depth :: inner', c')

def pull {β : Type} (closed : Except Fault β) (project : Option Token → β) (r : Reader) :
    Except Fault β × Reader :=
  match pullThrough closed project r.depths r.cursor with
  | (answer, depths, cursor) => (answer, ⟨cursor, depths⟩)

/-- The next token. At the end of the tokens a cursor answers none and a view fails; a closed view
fails too. -/
def next (r : Reader) : Except Fault (Option Token) × Reader :=
  r.pull (.error .closedView) id

def name (r : Reader) : Except Fault (Option String) × Reader :=
  r.pull (.ok none) (·.bind Token.name?)

def text (r : Reader) : Except Fault (Option String) × Reader :=
  r.pull (.ok none) (·.bind Token.text?)

def boolean (r : Reader) : Except Fault (Option Bool) × Reader :=
  r.pull (.ok none) (·.bind Token.boolean?)

def integer (r : Reader) : Except Fault IntegerPull × Reader :=
  r.pull (.ok .nothing) fun t =>
    match t.bind Token.integer? with
    | some n => .found n
    | none => .other

/-- Skips a container through views. Each open view is lowered by one, whether or not the closing
bracket was found. -/
def skipThrough : List Nat → Cursor → Except Fault Unit × List Nat × Cursor
  | [], c =>
    match c.skipChildren with
    | (answer, c') => (answer, [], c')
  | depth :: inner, c =>
    if depth = 0 ∨ !c.current.any Token.isOpening then (.ok (), depth :: inner, c)
    else
      match skipThrough inner c with
      | (.error fault, inner', c') => (.error fault, depth :: inner', c')
      | (.ok _, inner', c') => (.ok (), (depth - 1) :: inner', c')

def skipChildren (r : Reader) : Except Fault Unit × Reader :=
  match skipThrough r.depths r.cursor with
  | (answer, depths, cursor) => (answer, ⟨cursor, depths⟩)

def close (r : Reader) : Except Fault Unit × Reader :=
  match r.depths with
  | [] => (.ok (), { r with cursor := r.cursor.close })
  | _ :: _ => (.error .viewNotClosable, r)

def view (r : Reader) : Reader := { r with depths := 1 :: r.depths }

theorem length_pending_pullThrough_le {β : Type} (closed : Except Fault β)
    (project : Option Token → β) (depths : List Nat) (c : Cursor) :
    (pullThrough closed project depths c).2.2.pending.length ≤ c.pending.length := by
  induction depths with
  | nil =>
    have := c.length_pending_next_le
    unfold pullThrough
    split <;> simp_all
  | cons depth inner ih =>
    unfold pullThrough
    split
    · exact Nat.le_refl _
    · split
      · simp_all
      · split <;> simp_all

theorem length_pending_next_le (r : Reader) :
    r.next.2.cursor.pending.length ≤ r.cursor.pending.length :=
  length_pending_pullThrough_le _ _ _ _

theorem pullThrough_id_eq_some {depths depths' : List Nat} {c c' : Cursor} {t : Token}
    (h : pullThrough (.error .closedView) id depths c = (.ok (some t), depths', c')) :
    c.next = (.ok (some t), c') := by
  induction depths generalizing depths' with
  | nil =>
    unfold pullThrough at h
    split at h <;> simp_all
  | cons depth inner ih =>
    unfold pullThrough at h
    split at h
    · simp at h
    · split at h
      · simp at h
      · split at h
        · simp at h
        · rename_i heq _ _ _
          obtain ⟨hanswer, -, rfl⟩ := by simpa using h
          exact ih (by rw [heq, hanswer])

theorem length_pending_next {r r' : Reader} {t : Token} (h : r.next = (.ok (some t), r')) :
    r'.cursor.pending.length < r.cursor.pending.length := by
  unfold next pull at h
  split at h
  rename_i answer depths cursor heq
  obtain ⟨rfl, rfl⟩ := by simpa using h
  exact Cursor.length_pending_next (pullThrough_id_eq_some heq)

def drain (r : Reader) : Except Fault Unit × Reader :=
  if r.isOpen then
    match _h : r.next with
    | (.error fault, r') => (.error fault, r')
    | (.ok none, r') => (.ok (), r')
    | (.ok (some _), r') => drain r'
  else (.ok (), r)
termination_by r.cursor.pending.length
decreasing_by exact length_pending_next ‹_›

def untilEnd (r : Reader) : Except Fault (List Token) × Reader :=
  if r.isOpen then
    match _h : r.next with
    | (.error fault, r') => (.error fault, r')
    | (.ok none, r') => (.ok [], r')
    | (.ok (some t), r') =>
      match untilEnd r' with
      | (.ok rest, r'') => (.ok (t :: rest), r'')
      | (.error fault, r'') => (.error fault, r'')
  else (.ok [], r)
termination_by r.cursor.pending.length
decreasing_by exact length_pending_next ‹_›

structure Copy where
  outcome : Except Fault Unit
  text : String

namespace Copy

def result (c : Copy) : Except Fault String := c.outcome.map fun _ => c.text

end Copy

/-- Copies until the container that `w` began with is closed. An integer over the limit fails the
copy after its comma is written. -/
def copyOpen (w : Writer) (r : Reader) : Copy × Reader :=
  if w.isDone then (⟨.ok (), w.text⟩, r)
  else
    match _h : r.next with
    | (.error fault, r') => (⟨.error fault, w.text⟩, r')
    | (.ok none, r') => (⟨.error .unfinishedCopy, w.text⟩, r')
    | (.ok (some t), r') =>
      match t.excess? r.cursor.limit with
      | some excess => (⟨.error (.tooManyDigits excess), (w.separate false).text⟩, r')
      | none => copyOpen (w.write t) r'
termination_by r.cursor.pending.length
decreasing_by exact length_pending_next ‹_›

/-- Copies the value at the current token as compact JSON text. -/
def copy (r : Reader) : Copy × Reader :=
  match r.current with
  | some (.scalar v) =>
    match v.excess? r.cursor.limit with
    | some excess => (⟨.error (.tooManyDigits excess), ""⟩, r)
    | none => (⟨.ok (), v.written⟩, r)
  | some (.opening shape) => copyOpen (.start shape) r
  | token => (⟨.error (.notCopyable token), ""⟩, r)

end Reader

end JsonCleave
