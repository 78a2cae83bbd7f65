import JsonCleave.Fault
import JsonCleave.Scan.Feed
/-!
# Cursors

A cursor reads a feed forward and holds one token, the one read last. A pull is
`next`; behind a feed's deliveries it comes to the feed's ending, again and again. The typed
pulls of `Reader` are views of it. `length_pending_next` is the measure by which every loop over
tokens ends.
-/

namespace JsonCleave

/-- Reading position in a feed. `current` is the token read last. -/
structure Cursor where
  pending : List Delivery
  ending : Ending
  limit : DigitLimit := .standard
  current : Option Token := none
  closed : Bool := false
deriving DecidableEq, Repr

namespace Cursor

def ofFeed (feed : Feed) : Cursor :=
  { pending := feed.deliveries, ending := feed.ending, limit := feed.limit }

def halt (c : Cursor) : Ending → Except Fault (Option Token) × Cursor
  | .complete => (.ok none, { c with current := none })
  | .broken origin => (.error (.input origin), c)
  | .undecodable flaw place => (.error (.undecodable flaw place), c)

def next (c : Cursor) : Except Fault (Option Token) × Cursor :=
  if c.closed then (.ok none, c)
  else
    match c.pending with
    | .token t :: rest => (.ok (some t), { c with pending := rest, current := some t })
    | .halt ending :: rest => { c with pending := rest }.halt ending
    | [] => c.halt c.ending

def close (c : Cursor) : Cursor := { c with closed := true, current := none }

@[simp] theorem pending_halt (c : Cursor) (ending : Ending) :
    (c.halt ending).2.pending = c.pending := by
  cases ending <;> rfl

theorem halt_ne_some (c c' : Cursor) (ending : Ending) (t : Token) :
    c.halt ending ≠ (.ok (some t), c') := by
  cases ending <;> simp [halt]

theorem length_pending_next {c c' : Cursor} {t : Token} (h : c.next = (.ok (some t), c')) :
    c'.pending.length < c.pending.length := by
  unfold next at h
  split at h
  · simp at h
  · split at h
    · rename_i heq
      obtain ⟨-, rfl⟩ := Prod.mk.inj h
      simp [heq]
    · exact absurd h (halt_ne_some _ _ _ _)
    · exact absurd h (halt_ne_some _ _ _ _)

theorem length_pending_next_le (c : Cursor) : c.next.2.pending.length ≤ c.pending.length := by
  unfold next
  split
  · exact Nat.le_refl _
  · split <;> rename_i heq <;> simp [heq]

/-- Reads until `depth` open containers are closed. A good end of the tokens ends it without a
fault. -/
def skipOpen (depth : Nat) (c : Cursor) : Except Fault Unit × Cursor :=
  if depth = 0 then (.ok (), c)
  else
    match _h : c.next with
    | (.error fault, c') => (.error fault, c')
    | (.ok none, c') => (.ok (), c')
    | (.ok (some t), c') => skipOpen (t.shift depth) c'
termination_by c.pending.length
decreasing_by exact length_pending_next ‹_›

/-- Skips the container whose opening bracket is current; no effect at any other token. -/
def skipChildren (c : Cursor) : Except Fault Unit × Cursor :=
  if c.current.any Token.isOpening then c.skipOpen 1 else (.ok (), c)

/-- All tokens that are left, and the fault behind them, if there is one. -/
def readAll (c : Cursor) : List Token × Except Fault Unit × Cursor :=
  match _h : c.next with
  | (.error fault, c') => ([], .error fault, c')
  | (.ok none, c') => ([], .ok (), c')
  | (.ok (some t), c') =>
    let rest := readAll c'
    (t :: rest.1, rest.2)
termination_by c.pending.length
decreasing_by exact length_pending_next ‹_›

end Cursor

end JsonCleave
