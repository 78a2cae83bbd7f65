import Mathlib
import JsonCleave.Policy.RuleTable
import JsonCleave.Proofs.Harvest
/-!
# Refused write requests

Write requests are made for a payload that was found already. A refused request fails the pull but
does not finish the walk: later pulls go on with the rest of the source.
-/

namespace JsonCleave

def Cursor.IsSpent (c : Cursor) : Prop :=
  ∃ c', c.next = (.ok none, c') ∧ c'.pending = c.pending

namespace Walk

variable {σ α : Type} {p : Policy σ α} {w : Walk} {s : Scene σ}

/-- The pull finds a payload, and the policy refuses its write request. -/
def Refuses (p : Policy σ α) (w : Walk) (s : Scene σ) (fault : Fault) : Prop :=
  w.writes = true ∧ ∃ a, (w.nextHandle p s).outcome = .item a ∧
    (p.request (w.nextHandle p s).scene.count a (w.nextHandle p s).scene.state).1 = .error fault

def afterPulls (p : Policy σ α) (w : Walk) (s : Scene σ) : Nat → Walk × Scene σ
  | 0 => (w, s)
  | n + 1 => afterPulls p (w.pull p s).walk (w.pull p s).scene n

theorem afterPulls_finished (hw : w.finished = true) (n : Nat) : afterPulls p w s n = (w, s) := by
  induction n with
  | zero => rfl
  | succ n ih => rw [afterPulls, pull_finished p s hw, ih]

/-! ## A pull and what it has found -/

theorem scene_nextHandle (hw : w.finished = false) :
    (w.nextHandle p s).scene =
      { s with
        cursor := (Turn.traverse p [] w.keys s.cursor s.state).cursor
        state := (Turn.traverse p [] w.keys s.cursor s.state).state } := by
  simp only [nextHandle, hw, Bool.false_eq_true, ↓reduceIte]
  split <;> rfl

theorem nextHandle_item {a : α} (h : (w.nextHandle p s).outcome = .item a) :
    w.finished = false ∧ (w.nextHandle p s).walk.finished = false := by
  cases hw : w.finished with
  | true => simp [nextHandle, hw] at h
  | false =>
    refine ⟨rfl, ?_⟩
    simp only [nextHandle, hw, Bool.false_eq_true, ↓reduceIte] at h ⊢
    split at h <;> simp_all

/-- A refused write request fails the pull and leaves the walk unfinished. -/
theorem pull_refused {fault : Fault} (h : w.Refuses p s fault) :
    ∃ state, w.pull p s =
      ⟨.failed fault, (w.nextHandle p s).walk, { (w.nextHandle p s).scene with state },
        (w.nextHandle p s).log⟩ := by
  obtain ⟨hwrites, a, hfound, hrequest⟩ := h
  refine ⟨(p.request (w.nextHandle p s).scene.count a (w.nextHandle p s).scene.state).2, ?_⟩
  unfold pull
  simp only [hfound, hwrites, ↓reduceIte]
  split <;> rename_i heq <;> rw [heq] at hrequest
  · simp at hrequest
  · cases hrequest
    rw [heq]

theorem count_nextHandle (p : Policy σ α) (w : Walk) (s : Scene σ) :
    (w.nextHandle p s).scene.count = s.count := by
  cases hw : w.finished with
  | true => simp [nextHandle, hw]
  | false => rw [scene_nextHandle hw]

theorem pull_requested {a : α} {request : WriteRequest α} {state : σ} (hwrites : w.writes = true)
    (hfound : (w.nextHandle p s).outcome = .item a)
    (hrequest : p.request (w.nextHandle p s).scene.count a (w.nextHandle p s).scene.state =
      (.ok request, state)) :
    w.pull p s = emit (.request request)
      { w.nextHandle p s with scene := { (w.nextHandle p s).scene with state } } := by
  simp only [pull, hfound, hwrites, ↓reduceIte, hrequest]

theorem cursor_pull (p : Policy σ α) (w : Walk) (s : Scene σ) :
    (w.pull p s).scene.cursor = (w.nextHandle p s).scene.cursor := by
  unfold pull
  simp only []
  split
  · rfl
  · rfl
  · split
    · split <;> rfl
    · rfl

theorem length_pending_pull_lt_of_token {c' : Cursor} {t : Token} (hw : w.finished = false)
    (hnext : s.cursor.next = (.ok (some t), c')) :
    (w.pull p s).scene.cursor.pending.length < s.cursor.pending.length := by
  have hlt := Cursor.length_pending_next hnext
  have hvisit := Turn.length_pending_visit_le p t w.keys c' s.state
  have hturn : (Turn.traverse p [] w.keys s.cursor s.state).cursor.pending.length ≤
      (Turn.visit p t w.keys c' s.state).cursor.pending.length := by
    rw [Turn.traverse_token [] hnext]
    split
    · exact Turn.length_pending_traverse_le ..
    · exact Nat.le_refl _
  rw [cursor_pull, scene_nextHandle hw]
  dsimp only
  omega

/-! ## The pulls behind a refusal -/

/-- All later pulls stop, and read and count nothing. -/
def StopsHere (p : Policy σ α) (w : Walk) (s : Scene σ) : Prop :=
  ∀ n, let (w', s') := afterPulls p w s n
    (w'.pull p s').outcome = .stopped ∧
      (w'.pull p s').scene.cursor.pending = s.cursor.pending ∧
      (w'.pull p s').scene.count = s.count

theorem stopsHere_iff (hw : w.finished = false) : StopsHere p w s ↔ s.cursor.IsSpent := by
  constructor
  · intro hstops
    obtain ⟨hstopped, hpending, -⟩ := hstops 0
    match hnext : s.cursor.next with
    | (.error fault, c') =>
      obtain ⟨log, hfails⟩ := pull_source_fault (p := p) hw hnext
      rw [hfails] at hstopped
      cases hstopped
    | (.ok none, c') =>
      rw [pull_end hw hnext] at hpending
      exact ⟨c', hnext, hpending⟩
    | (.ok (some t), c') =>
      have hlt := length_pending_pull_lt_of_token (p := p) hw hnext
      rw [hpending] at hlt
      omega
  · rintro ⟨c', hnext, hpending⟩ n
    have hend := pull_end (p := p) hw hnext
    cases n with
    | zero =>
      rw [afterPulls]
      dsimp only
      rw [hend]
      exact ⟨rfl, hpending, rfl⟩
    | succ n =>
      -- the first of these pulls ends the walk, and the others find it ended
      rw [afterPulls, hend, afterPulls_finished rfl]
      dsimp only
      rw [pull_finished p _ rfl]
      exact ⟨rfl, hpending, rfl⟩

/-- Behind a refused write request all later pulls stop iff the source has nothing left. -/
theorem stopsHere_behind_refusal_iff {fault : Fault} (h : w.Refuses p s fault) :
    let refused := w.pull p s
    refused.outcome = .failed fault ∧ refused.scene.count = s.count ∧
      refused.walk.finished = false ∧
      (StopsHere p refused.walk refused.scene ↔ refused.scene.cursor.IsSpent) := by
  obtain ⟨state, hpull⟩ := pull_refused h
  obtain ⟨-, a, hfound, -⟩ := h
  obtain ⟨hw, hfinished⟩ := nextHandle_item hfound
  rw [hpull, scene_nextHandle hw]
  exact ⟨rfl, rfl, hfinished, stopsHere_iff hfinished⟩

end Walk

namespace RuleTable

def refusing (part : String) : RuleTable :=
  { base := .array, request := some (.refuse part (.raised "ValueError" "refused")) }

def pair (first second : String) : Tree :=
  .array [.object [(first, .scalar .null)], .object [(second, .scalar .null)]]

def pairScene (first second : String) : Scene State :=
  ⟨.ofFeed (.ofTokens (pair first second).tokens), {}, 0⟩

def behindFirst (first second : String) (count : Nat) : Scene State :=
  ⟨.before ((pair first second).tokens.drop 5) (.finished .standard) (some (.closing .object)),
    ⟨1, [.build, .boundary .entering .object none 1, .boundary .entering .array none 0]⟩, count⟩

theorem walk_pull_refused :
    (Walk.pull (refusing "a").policy { writes := true } (pairScene "a" "b")).walk =
      { writes := true } := by
  cbv

theorem scene_pull_refused :
    (Walk.pull (refusing "a").policy { writes := true } (pairScene "a" "b")).scene =
      behindFirst "a" "b" 0 := by
  cbv

theorem handed_out_behind_refusal :
    let p := (refusing "a").policy
    let refused := Walk.pull p { writes := true } (pairScene "a" "b")
    let next := refused.walk.pull p refused.scene
    refused.outcome = .failed (.raised "ValueError" "refused") ∧
      next.outcome = .item (.request (.document 0
        (.value (.payload ⟨"\x7b\"b\":null\x7d", .json⟩)))) ∧
      next.scene.count = refused.scene.count + 1 := by
  have hfound : (Walk.nextHandle (refusing "a").policy { writes := true }
      (behindFirst "a" "b" 0)).outcome =
        .item (.value (.payload ⟨"\x7b\"b\":null\x7d", .json⟩)) := by cbv
  have hcount :=
    Walk.count_nextHandle (refusing "a").policy { writes := true } (behindFirst "a" "b" 0)
  dsimp only
  rw [walk_pull_refused, scene_pull_refused, Walk.pull_requested rfl hfound rfl, hcount]
  exact ⟨by cbv, rfl, congrArg (· + 1) hcount⟩

theorem not_stopsHere_behind_refusal :
    let p := (refusing "a").policy
    let refused := Walk.pull p { writes := true } (pairScene "a" "b")
    Walk.Refuses p { writes := true } (pairScene "a" "b") (.raised "ValueError" "refused") ∧
      ¬ refused.scene.cursor.IsSpent ∧ ¬ Walk.StopsHere p refused.walk refused.scene := by
  have hrefuses : Walk.Refuses (refusing "a").policy { writes := true } (pairScene "a" "b")
      (.raised "ValueError" "refused") :=
    ⟨rfl, .value (.payload ⟨"\x7b\"a\":null\x7d", .json⟩), by cbv, by cbv⟩
  have hspent : ¬ (behindFirst "a" "b" 0).cursor.IsSpent := by
    rintro ⟨c', hnext, -⟩
    cases hnext
  obtain ⟨-, -, -, hiff⟩ := Walk.stopsHere_behind_refusal_iff hrefuses
  dsimp only
  rw [scene_pull_refused] at hiff ⊢
  exact ⟨hrefuses, hspent, fun hstops => hspent (hiff.mp hstops)⟩

end RuleTable

end JsonCleave
