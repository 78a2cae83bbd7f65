import JsonCleave.Proofs.ContainerEnd
import JsonCleave.Proofs.Lookahead
import JsonCleave.Proofs.OneCursor
/-!
# Array splits of arbitrary tokens

The array split of any token sequence hands out its elements one after the other. It fails only at
an integer over the digit limit inside an element, and if the tokens end inside an element.
-/

namespace JsonCleave

/-! ## Pull by pull -/

namespace Walk

variable {σ α : Type} {p : Policy σ α} {w : Walk} {s : Scene σ}

theorem writes_pull (p : Policy σ α) (w : Walk) (s : Scene σ) :
    (w.pull p s).walk.writes = w.writes := by
  have hfound : (w.nextHandle p s).walk.writes = w.writes := by
    unfold nextHandle
    split
    · rfl
    · dsimp only
      split <;> rfl
  unfold pull
  dsimp only
  split
  · exact hfound
  · exact hfound
  · split
    · split <;> exact hfound
    · exact hfound

theorem finished_of_failed (hwrites : w.writes = false) {fault : Fault}
    (h : (w.pull p s).outcome = .failed fault) : (w.pull p s).walk.finished = true := by
  rcases pull_failed_iff.mp h with ⟨-, cause, hmeets, -⟩ | ⟨hrequests, -⟩
  · exact finished_pull (.inr ⟨cause, hmeets⟩)
  · rw [hwrites] at hrequests
    cases hrequests

theorem outcomes_finished (hw : w.finished = true) (n : Nat) :
    outcomes p w s n = List.replicate n .stopped := by
  induction n with
  | zero => rfl
  | succ n ih => rw [outcomes, pull_finished p s hw, ih, List.replicate_succ]

def Harvest.lastOutcome (h : Harvest σ α) : Outcome (Item α) :=
  match h.outcome with
  | some (.error fault) => .failed fault
  | _ => .stopped

/-- The outcomes of `n` pulls are the items, then the last outcome, then stops. -/
theorem outcomes_eq_pullAll (hwrites : w.writes = false) {n m : Nat} (hn : n ≤ m) :
    outcomes p w s n = ((w.pullAll p s).items.map Outcome.item ++
      (w.pullAll p s).lastOutcome :: List.replicate m .stopped).take n := by
  induction n generalizing w s with
  | zero => rfl
  | succ n ih =>
    have hlast : List.replicate n (Outcome.stopped : Outcome (Item α)) =
        (List.replicate m .stopped).take n := by
      rw [List.take_replicate, Nat.min_eq_left (by omega)]
    rw [outcomes]
    cases hpull : (w.pull p s).outcome with
    | item i =>
      rw [pullAll_item hpull, ih ((writes_pull p w s).trans hwrites) (by omega)]
      rfl
    | stopped =>
      rw [pullAll_stopped hpull, outcomes_finished (finished_pull (.inl hpull)), hlast]
      rfl
    | failed fault =>
      rw [pullAll_failed hpull, outcomes_finished (finished_of_failed hwrites hpull), hlast]
      rfl

end Walk

/-! ## The number of open arrays -/

inductive Turn.ComesBy {σ α : Type} (p : Policy σ α) :
    List (Option String) → Cursor → σ → σ → Prop
  | here {keys : List (Option String)} {c : Cursor} {state : σ} : ComesBy p keys c state state
  | onward {keys : List (Option String)} {c c' : Cursor} {state state' : σ} {t : Token}
      (hnext : c.next = (.ok (some t), c'))
      (hlater : ComesBy p (visit p t keys c' state).keys (visit p t keys c' state).cursor
        (visit p t keys c' state).state state') : ComesBy p keys c state state'

namespace Policy

theorem openArrays_of_comesBy {keys : List (Option String)} {c : Cursor}
    {openArrays openArrays' : Nat} (h : Turn.ComesBy array keys c openArrays openArrays')
    (hle : openArrays ≤ 1) : openArrays' ≤ 1 := by
  induction h with
  | here => exact hle
  | onward hnext hlater ih => exact ih (state_visit_array _ _ _ hle).1

theorem state_afterPulls_array (w : Walk) (s : Scene Nat) (h : s.state ≤ 1) (n : Nat) :
    (Walk.afterPulls array w s n).2.state ≤ 1 := by
  induction n generalizing w s with
  | zero => exact h
  | succ n ih =>
    apply ih
    rcases pull_array_cases w s.cursor h s.count with hone | ⟨-, hle⟩
    · exact Nat.le_of_eq hone
    · exact hle

end Policy

/-! ## Copies never close what is not open -/

def Writer.write? (w : Writer) : Token → Option Writer
  | .closing shape =>
    match w.levels with
    | [] => none
    | _ :: outer => some ⟨outer, w.text ++ shape.closer⟩
  | t => some (w.write t)

namespace Reader

/-- Copying with an explicit check that every closing bracket has a container to close; none if it
has not. -/
def copyFrom? (w : Writer) (t : Token) (r : Reader) : Option (Copy × Reader) :=
  match w.write? t with
  | none => none
  | some w' =>
    if t.isClosing && w'.isDone then some (⟨.ok (), w'.text⟩, r)
    else
      match _h : r.next with
      | (.error fault, r') => some (⟨.error fault, w'.text⟩, r')
      | (.ok none, r') => some (⟨.error .unfinishedCopy, w'.text⟩, r')
      | (.ok (some t'), r') =>
        match t'.excess? r.cursor.limit with
        | some excess => some (⟨.error (.tooManyDigits excess), (w'.separate false).text⟩, r')
        | none => copyFrom? w' t' r'
termination_by r.cursor.pending.length
decreasing_by exact length_pending_next ‹_›

end Reader

theorem Writer.write?_eq {w : Writer} {t : Token} (h : 0 < w.levels.length ∨ t.isOpening = true) :
    w.write? t = some (w.write t) := by
  cases t with
  | closing shape =>
    cases hlevels : w.levels with
    | nil => simp [hlevels, Token.isOpening] at h
    | cons level outer => simp [write?, write, hlevels]
  | opening shape => rfl
  | key name => rfl
  | scalar value => rfl

theorem Writer.isDone_write {w : Writer} {t : Token}
    (h : 0 < w.levels.length ∨ t.isOpening = true)
    (ht : ¬ (t.isClosing && (w.write t).isDone) = true) : (w.write t).isDone = false := by
  cases t with
  | closing shape => simpa [Token.isClosing] using ht
  | opening shape => rfl
  | key name =>
    rw [isDone_eq_false, length_levels_write]
    exact h.resolve_right (by simp [Token.isOpening])
  | scalar value =>
    rw [isDone_eq_false, length_levels_write]
    exact h.resolve_right (by simp [Token.isOpening])

theorem Reader.copyFrom?_eq {w : Writer} {t : Token} {r : Reader}
    (h : 0 < w.levels.length ∨ t.isOpening = true) :
    copyFrom? w t r = some (copyOpen (w.write t) r) := by
  fun_induction copyFrom? w t r with
  | case1 w t r hnone =>
    rw [Writer.write?_eq h] at hnone
    cases hnone
  | case2 w t r w' hwrite hdone =>
    rw [Writer.write?_eq h, Option.some.injEq] at hwrite
    subst hwrite
    rw [copyOpen_done (by simp_all)]
  | case3 w t r w' hwrite hdone fault r' hnext =>
    rw [Writer.write?_eq h, Option.some.injEq] at hwrite
    subst hwrite
    rw [copyOpen_fault (Writer.isDone_write h hdone) hnext]
  | case4 w t r w' hwrite hdone r' hnext =>
    rw [Writer.write?_eq h, Option.some.injEq] at hwrite
    subst hwrite
    rw [copyOpen_none (Writer.isDone_write h hdone) hnext]
  | case5 w t r w' hwrite hdone t' r' hnext excess hexcess =>
    rw [Writer.write?_eq h, Option.some.injEq] at hwrite
    subst hwrite
    rw [copyOpen_excess (Writer.isDone_write h hdone) hnext hexcess]
  | case6 w t r w' hwrite hdone t' r' hnext hexcess ih =>
    rw [Writer.write?_eq h, Option.some.injEq] at hwrite
    subst hwrite
    have hopen := Writer.isDone_write h hdone
    rw [copyOpen_token hopen hnext hexcess, ih (.inl (Writer.isDone_eq_false.mp hopen))]

/-- The check never fails in a copy that begins at an opening bracket. -/
theorem Reader.copyFrom?_opening (shape : Shape) (r : Reader) :
    copyFrom? ⟨[], ""⟩ (.opening shape) r = some (copyOpen (.start shape) r) := by
  rw [copyFrom?_eq (.inr rfl)]
  simp [Writer.start, Writer.write, Writer.put, Writer.separate]

namespace Policy

theorem outcomes_array_stance (limit : DigitLimit) (ts : List Token) (count n : Nat) :
    let found : List (Outcome (Item Payload)) :=
      (Stance.outside.texts limit ts).map fun text => .item (.handle ⟨text, .json⟩)
    let broken : List (Outcome (Item Payload)) :=
      (Stance.outside.after limit ts).reach.endFault?.toList.map .failed
    Walk.outcomes array {} ⟨.ofFeed (.on limit (.ofTokens ts)), 0, count⟩ n =
      (found ++ broken ++ List.replicate n Outcome.stopped).take n := by
  intro found broken
  have hfinished : (Feed.finished limit).Halts .complete := .inr ⟨rfl, rfl⟩
  have houtside : Stance.outside.reach = .between := rfl
  have hreaches : Reaches (Feed.finished limit).limit ts [] 0 _ _ := reaches_stance houtside ts []
  have hlimit : (Feed.finished limit).limit = limit := rfl
  obtain ⟨keys, cursor, state, hall⟩ := array_quiet_pullAll_ends hreaches hfinished count
  rw [← Cursor.ofFeed_ofTokens, Walk.Harvest.quiet, Walk.Harvest.mk.injEq] at hall
  obtain ⟨hitems, houtcome, -⟩ := hall
  rw [hlimit] at hitems houtcome
  rw [Walk.outcomes_eq_pullAll (w := {}) rfl (Nat.le_refl n), hitems, Walk.Harvest.lastOutcome,
    houtcome, List.map_map, List.map_map]
  cases hfault : (Stance.outside.after limit ts).reach.endFault? with
  | some fault => simp [found, broken, hfault, Function.comp_def]
  | none =>
    -- the stop behind the items is like those that follow
    have hstops : Outcome.stopped :: List.replicate n (Outcome.stopped : Outcome (Item Payload)) =
        List.replicate (n + 1) .stopped := rfl
    simp only [found, broken, hfault, Option.elim_none, hstops, Option.toList_none, List.map_nil,
      List.append_nil, List.take_append, List.take_replicate, Function.comp_def]
    congr 2
    omega

end Policy

end JsonCleave
