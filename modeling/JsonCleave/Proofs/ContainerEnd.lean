import JsonCleave.Proofs.Boundary
import JsonCleave.Proofs.Unclosed
/-!
# Where skips, drains and copies end

Skips count brackets, views keep a depth, and copies keep the levels of a writer. All three end
behind the shortest prefix in which the brackets are level, and read all tokens if there is none. A
copy also ends at an integer over the digit limit.
-/

namespace JsonCleave

/-! ## Where brackets are first level -/

/-- One more closing than opening bracket, `ts` being the tokens behind an opening bracket. -/
def isLevel (ts : List Token) : Bool :=
  ts.countP Token.isClosing == ts.countP Token.isOpening + 1

/-- Length of the shortest prefix in which the brackets are level. -/
def levelAt? (ts : List Token) : Option Nat :=
  (List.range (ts.length + 1)).find? fun n => isLevel (ts.take n)

theorem StaysOpen.countP_lt {depth : Nat} {ts : List Token} (h : StaysOpen depth ts) :
    ts.countP Token.isClosing < depth + ts.countP Token.isOpening := by
  induction ts generalizing depth with
  | nil => simpa using h.depth_pos
  | cons t ts ih =>
    have hpos := h.depth_pos
    have hrest := ih ((staysOpen_cons hpos).mp h)
    have hshift := t.shift_add_countP hpos
    rw [← List.singleton_append, List.countP_append, List.countP_append]
    omega

theorem StaysOpen.not_isLevel {ts : List Token} (h : StaysOpen 1 ts) : isLevel ts = false := by
  have hlt := h.countP_lt
  simp only [isLevel, beq_eq_false_iff_ne, ne_eq]
  omega

theorem Closes.isLevel {ts : List Token} (h : Closes 1 ts) : isLevel ts = true := by
  have hcount := h.add_countP
  simp only [JsonCleave.isLevel, beq_iff_eq]
  omega

theorem Closes.levelAt? {us : List Token} (hus : Closes 1 us) (vs : List Token) :
    levelAt? (us ++ vs) = some us.length := by
  rw [JsonCleave.levelAt?, List.find?_range_eq_some]
  refine ⟨?_, List.mem_range.mpr (by rw [List.length_append]; omega), fun n hn => ?_⟩
  · rw [List.take_left]
    exact hus.isLevel
  · have hdrop : us.drop n ≠ [] := by simpa using hn
    have hsplit : Closes 1 (us.take n ++ us.drop n) := by rwa [List.take_append_drop]
    rw [List.take_append_of_le_length (Nat.le_of_lt hn), (hsplit.staysOpen hdrop).not_isLevel]
    rfl

theorem StaysOpen.levelAt? {ts : List Token} (h : StaysOpen 1 ts) : levelAt? ts = none := by
  rw [JsonCleave.levelAt?, List.find?_range_eq_none]
  intro n hn
  have hsplit : StaysOpen 1 (ts.take n ++ ts.drop n) := by rwa [List.take_append_drop]
  rw [hsplit.of_append.not_isLevel]
  rfl

theorem staysOpen_of_lt_levelAt? {us vs : List Token}
    (h : us.length < (levelAt? (us ++ vs)).getD (us ++ vs).length) : StaysOpen 1 us := by
  rcases exists_closes_or_staysOpen Nat.one_pos us with ⟨as, bs, rfl, has⟩ | hopen
  · rw [List.append_assoc, has.levelAt? (bs ++ vs), Option.getD_some, List.length_append] at h
    omega
  · exact hopen

example : levelAt? [.opening .array, .closing .object, .closing .object, .closing .array] =
    some 3 := by
  decide

theorem Closes.exists_lastToken {depth : Nat} (hdepth : 0 < depth) {ts : List Token}
    (h : Closes depth ts) (current : Option Token) :
    ∃ shape, lastToken current ts = some (.closing shape) := by
  induction ts generalizing depth current with
  | nil =>
    cases depth with
    | zero => omega
    | succ depth => exact h.elim
  | cons t ts ih =>
    rw [closes_cons hdepth] at h
    rcases Nat.eq_zero_or_pos (t.shift depth) with hzero | hpos
    · rw [hzero, closes_zero] at h
      subst h
      cases t with
      | closing shape => exact ⟨shape, rfl⟩
      | opening shape => simp at hzero
      | key name => simp at hzero; omega
      | scalar value => simp at hzero; omega
    · exact ih hpos h (some t)

theorem lastToken_eq (current : Option Token) (ts : List Token) :
    lastToken current ts = ts.getLast?.or current := by
  induction ts generalizing current with
  | nil => rfl
  | cons t ts ih =>
    rw [lastToken, ih, List.getLast?_cons]
    cases ts.getLast? <;> rfl

/-! ## Sources that run out in good order -/

variable {limit : DigitLimit}

theorem Cursor.skipOpen_runs_out_finished {depth : Nat} {ts : List Token} (h : StaysOpen depth ts)
    (current : Option Token) :
    skipOpen depth (before ts (.finished limit) current) =
      (.ok (), before [] (.finished limit) none) := by
  induction ts generalizing depth current with
  | nil => exact skipOpen_end h.depth_pos (next_before_finished limit current)
  | cons t ts ih =>
    rw [skipOpen_before_cons h.depth_pos]
    exact ih ((staysOpen_cons h.depth_pos).mp h) (some t)

namespace Reader

open Cursor (before)

theorem drain_before_finished {depth : Nat} {ts : List Token} (h : StaysOpen depth ts)
    (current : Option Token) :
    drain ⟨before ts (.finished limit) current, [depth]⟩ =
      (.error .unfinishedView, ⟨before [] (.finished limit) none, [depthAfter depth ts]⟩) := by
  induction ts generalizing depth current with
  | nil =>
    have hopen : isOpen ⟨before [] (.finished limit) current, [depth]⟩ = true := by
      simpa [isOpen] using Nat.pos_iff_ne_zero.mp h.depth_pos
    exact drain_fault hopen
      (pull_of_next_none _ _ h.depth_pos (Cursor.next_before_finished limit current))
  | cons t ts ih =>
    have hopen : isOpen ⟨before (t :: ts) (.finished limit) current, [depth]⟩ = true := by
      simpa [isOpen] using Nat.pos_iff_ne_zero.mp h.depth_pos
    rw [drain_token hopen (next_before_cons (by simpa using h.depth_pos) t ts _ current)]
    exact ih ((staysOpen_cons h.depth_pos).mp h) (some t)

end Reader

end JsonCleave
