import JsonCleave.Log
import JsonCleave.Reader
/-!
# Readings: programs over a reader

A payload builder sees of the stream only the answers to the calls it makes. A reading
is such a program: it gives a result, reports, or makes a call and goes on with the answer, which
may be a fault that it handles as it likes. Running one on a reader is the only way it
touches the stream, so whatever holds of all calls holds of all builders.
-/

namespace JsonCleave

inductive Call where
  | attend
  | current
  | next
  | name
  | text
  | boolean
  | integer
  | skip
  | drain
  | close
  | copy
  | untilEnd
  | depth
deriving DecidableEq, Repr

namespace Call

abbrev Answer : Call → Type
  | .attend => Unit
  | .current => Option Token
  | .next => Option Token
  | .name => Option String
  | .text => Option String
  | .boolean => Option Bool
  | .integer => IntegerPull
  | .skip => Unit
  | .drain => Unit
  | .close => Unit
  | .copy => Reader.Copy
  | .untilEnd => List Token
  | .depth => Nat

end Call

/-- Executes a call. A failed copy answers with the text written so far instead of failing. -/
def Reader.answer (r : Reader) : (call : Call) → Except Fault call.Answer × Reader
  | .attend => (.ok (), r)
  | .current => (.ok r.current, r)
  | .next => r.next
  | .name => r.name
  | .text => r.text
  | .boolean => r.boolean
  | .integer => r.integer
  | .skip => r.skipChildren
  | .drain => r.drain
  | .close => r.close
  | .copy => let (copy, r') := r.copy; (.ok copy, r')
  | .untilEnd => r.untilEnd
  | .depth => (.ok (r.depths.headD 0), r)

/-- A tree of calls on a reader, with log entries and a result at the leaves. -/
inductive Reading (β : Type) where
  | give (result : β)
  | report (entry : Entry) (rest : Reading β)
  | ask (call : Call) (rest : Except Fault call.Answer → Reading β)

namespace Reading

variable {β γ : Type}

def bind (first : Reading β) (second : β → Reading γ) : Reading γ :=
  match first with
  | .give result => second result
  | .report entry rest => .report entry (rest.bind second)
  | .ask call rest => .ask call fun answer => (rest answer).bind second

def map (f : β → γ) (reading : Reading β) : Reading γ := reading.bind fun b => .give (f b)

structure Run (β : Type) where
  result : β
  reader : Reader
  log : List Entry

def run : Reading β → Reader → Run β
  | .give result, r => ⟨result, r, []⟩
  | .report entry rest, r =>
    let run := rest.run r
    { run with log := entry :: run.log }
  | .ask call rest, r => (rest (r.answer call).1).run (r.answer call).2

def runWithout : Reading β → β × List Entry
  | .give result => (result, [])
  | .report entry rest => let (result, log) := rest.runWithout; (result, entry :: log)
  | .ask _ rest => (rest (.error (.missing .view))).runWithout

/-- Copies the container as compact JSON text. Bad input is reported as an interruption of this
stage. -/
def serialize : Reading (Except Fault String) :=
  .ask .copy fun answer =>
    match answer with
    | .error fault => .give (.error fault)
    | .ok copy =>
      match copy.result with
      | .ok text => .give (.ok text)
      | .error fault =>
        match fault.origin? with
        | some origin =>
          .report (.interrupted .serialize origin)
            (.give (.error (.interrupted .serialize origin)))
        | none => .give (.error fault)

end Reading

namespace Cursor

theorem length_pending_skipOpen_le (depth : Nat) (c : Cursor) :
    (c.skipOpen depth).2.pending.length ≤ c.pending.length := by
  fun_induction skipOpen depth c with
  | case1 => exact Nat.le_refl _
  | case2 depth c _ fault c' h => have := c.length_pending_next_le; simp_all
  | case3 depth c _ c' h => have := c.length_pending_next_le; simp_all
  | case4 depth c _ t c' h ih => exact Nat.le_trans ih (Nat.le_of_lt (length_pending_next h))

theorem length_pending_skipChildren_le (c : Cursor) :
    c.skipChildren.2.pending.length ≤ c.pending.length := by
  unfold skipChildren
  split
  · exact length_pending_skipOpen_le 1 c
  · exact Nat.le_refl _

end Cursor

namespace Reader

theorem length_pending_pull_le {β : Type} (closed : Except Fault β)
    (project : Option Token → β) (r : Reader) :
    (r.pull closed project).2.cursor.pending.length ≤ r.cursor.pending.length :=
  length_pending_pullThrough_le _ _ _ _

theorem length_pending_skipThrough_le (depths : List Nat) (c : Cursor) :
    (skipThrough depths c).2.2.pending.length ≤ c.pending.length := by
  induction depths with
  | nil => exact c.length_pending_skipChildren_le
  | cons depth inner ih =>
    unfold skipThrough
    split
    · exact Nat.le_refl _
    · split <;> simp_all

theorem length_pending_skipChildren_le (r : Reader) :
    r.skipChildren.2.cursor.pending.length ≤ r.cursor.pending.length :=
  length_pending_skipThrough_le _ _

theorem length_pending_drain_le (r : Reader) :
    r.drain.2.cursor.pending.length ≤ r.cursor.pending.length := by
  fun_induction drain r with
  | case1 r _ fault r' h => have := r.length_pending_next_le; simp_all
  | case2 r _ r' h => have := r.length_pending_next_le; simp_all
  | case3 r _ t r' h ih => exact Nat.le_trans ih (Nat.le_of_lt (length_pending_next h))
  | case4 => exact Nat.le_refl _

theorem length_pending_untilEnd_le (r : Reader) :
    r.untilEnd.2.cursor.pending.length ≤ r.cursor.pending.length := by
  fun_induction untilEnd r with
  | case1 r _ fault r' h => have := r.length_pending_next_le; simp_all
  | case2 r _ r' h => have := r.length_pending_next_le; simp_all
  | case3 r _ t r' h rest r'' heq ih =>
    have := length_pending_next h
    simp_all
    omega
  | case4 r _ t r' h fault r'' heq ih =>
    have := length_pending_next h
    simp_all
    omega
  | case5 => exact Nat.le_refl _

theorem length_pending_copyOpen_le (w : Writer) (r : Reader) :
    (r.copyOpen w).2.cursor.pending.length ≤ r.cursor.pending.length := by
  fun_induction copyOpen w r with
  | case1 => exact Nat.le_refl _
  | case2 w r _ fault r' h => have := r.length_pending_next_le; simp_all
  | case3 w r _ r' h => have := r.length_pending_next_le; simp_all
  | case4 w r _ t r' h => have := r.length_pending_next_le; simp_all
  | case5 w r _ t r' h _ ih => exact Nat.le_trans ih (Nat.le_of_lt (length_pending_next h))

theorem length_pending_copy_le (r : Reader) :
    r.copy.2.cursor.pending.length ≤ r.cursor.pending.length := by
  unfold copy
  split
  · split <;> exact Nat.le_refl _
  · exact length_pending_copyOpen_le _ _
  · exact Nat.le_refl _

theorem length_pending_answer_le (r : Reader) (call : Call) :
    (r.answer call).2.cursor.pending.length ≤ r.cursor.pending.length := by
  cases call with
  | attend => exact Nat.le_refl _
  | current => exact Nat.le_refl _
  | next => exact length_pending_pull_le _ _ _
  | name => exact length_pending_pull_le _ _ _
  | text => exact length_pending_pull_le _ _ _
  | boolean => exact length_pending_pull_le _ _ _
  | integer => exact length_pending_pull_le _ _ _
  | skip => exact r.length_pending_skipChildren_le
  | drain => exact r.length_pending_drain_le
  | close =>
    show r.close.2.cursor.pending.length ≤ _
    unfold close
    split <;> exact Nat.le_refl _
  | copy => exact r.length_pending_copy_le
  | untilEnd => exact r.length_pending_untilEnd_le
  | depth => exact Nat.le_refl _

end Reader

theorem Reading.length_pending_run_le {β : Type} (reading : Reading β) (r : Reader) :
    (reading.run r).reader.cursor.pending.length ≤ r.cursor.pending.length := by
  induction reading generalizing r with
  | give result => exact Nat.le_refl _
  | report entry rest ih => exact ih r
  | ask call rest ih => exact Nat.le_trans (ih _ _) (r.length_pending_answer_le call)

end JsonCleave
