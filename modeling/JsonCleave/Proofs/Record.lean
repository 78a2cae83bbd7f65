import JsonCleave.Session
import JsonCleave.Proofs.Likeness
/-!
# Questions asked before an item

A policy with a record of its questions behaves as without. When an item is handed out, the record
and the position of the cursor are determined by the tokens up to the closing bracket of its
container.
-/

namespace JsonCleave

variable {σ α : Type}

/-- `p` with a record of its questions. -/
def Policy.recorded (p : Policy σ α) : Policy (σ × List Question) α where
  enter shape key s :=
    let (decision, s') := p.enter shape key s.1
    (decision, s', s.2 ++ [.entering shape key])
  leave shape key s :=
    let (outcome, s') := p.leave shape key s.1
    (outcome, s', s.2 ++ [.leaving shape key])
  build s := (p.build s.1).map fun built => (built.1, built.2, s.2 ++ [.building])
  request serial handle s :=
    let (request, s') := p.request serial handle s.1
    (request, s', s.2)

theorem Policy.request_recorded (p : Policy σ α) (serial : Nat) (handle : α)
    (s : σ × List Question) : p.recorded.request serial handle s =
      ((p.request serial handle s.1).1, (p.request serial handle s.1).2, s.2) := rfl

/-! ## The record changes nothing -/

def Turn.forget (turn : Turn (σ × List Question) α) : Turn σ α :=
  ⟨turn.outcome, turn.keys, turn.cursor, turn.state.1, turn.log⟩

def Scene.forget (s : Scene (σ × List Question)) : Scene σ := ⟨s.cursor, s.state.1, s.count⟩

def Pull.forget {β : Type} (pulled : Pull (σ × List Question) β) : Pull σ β :=
  ⟨pulled.outcome, pulled.walk, pulled.scene.forget, pulled.log⟩

theorem Policy.mirrors_recorded (p : Policy σ α) :
    p.Mirrors (fun s t => t.1 = s) id p.recorded where
  enter shape key s t hst := by
    subst hst
    exact ⟨rfl, rfl⟩
  leave shape key s t hst := by
    subst hst
    exact ⟨rfl, rfl⟩
  build r s t hst := by
    subst hst
    refine ⟨⟨?_, rfl⟩, rfl, rfl⟩
    simp only [recorded, Program.map]
    rcases ((p.build t.1).run r).result.1 with fault | _ | a <;> rfl
  request serial a s t hst := by
    subst hst
    refine ⟨?_, rfl⟩
    simp only [recorded, id]
    rcases (p.request serial a t.1).1 with fault | request <;> rfl

theorem Turn.traverse_recorded (p : Policy σ α) (keys : List (Option String)) (c : Cursor)
    (s : σ × List Question) (log : List Entry) :
    (traverse p.recorded log keys c s).forget = traverse p log keys c s.1 := by
  obtain ⟨houtcome, hkeys, hcursor, hstate, hlog⟩ := mirrors_traverse keys c p.mirrors_recorded
    (rfl : s.1 = s.1) log
  have hsame :
      (traverse p.recorded log keys c s).outcome = (traverse p log keys c s.1).outcome := by
    rw [houtcome]
    rcases (traverse p log keys c s.1).outcome with fault | _ | a <;> rfl
  rw [forget, hsame, hkeys, hcursor, hstate, hlog]

namespace Walk

open Cursor (before)

variable (p : Policy σ α) (w : Walk) (s : Scene (σ × List Question))

theorem pull_recorded : (w.pull p.recorded s).forget = w.pull p s.forget := by
  cases hw : w.finished with
  | true =>
    rw [pull_finished _ _ hw, pull_finished _ _ hw]
    rfl
  | false =>
    have hturn := Turn.traverse_recorded p w.keys s.cursor s.state []
    simp only [pull, nextHandle, hw, Scene.forget, Bool.false_eq_true, ↓reduceIte, ← hturn,
      Turn.forget]
    cases (Turn.traverse p.recorded [] w.keys s.cursor s.state).outcome with
    | error fault => cases fault <;> rfl
    | ok found =>
      cases found with
      | none => rfl
      | some a =>
        cases hwrites : w.writes with
        | false => rfl
        | true =>
          rcases hrequest : p.request s.count a
            (Turn.traverse p.recorded [] w.keys s.cursor s.state).state.1 with ⟨answer, s'⟩
          cases answer with
          | error fault => simp [Policy.request_recorded, hrequest, Pull.forget, Scene.forget]
          | ok request =>
            simp [Policy.request_recorded, hrequest, emit, Pull.forget, Scene.forget]

theorem outcomes_recorded (n : Nat) :
    outcomes p.recorded w s n = outcomes p w s.forget n := by
  induction n generalizing w s with
  | zero => rfl
  | succ n ih =>
    rw [outcomes, outcomes, ← pull_recorded, ih]
    rfl

theorem outcomes_succ {p : Policy σ α} {w : Walk} {s : Scene σ} (n : Nat) :
    outcomes p w s (n + 1) = outcomes p w s n ++
      [((afterPulls p w s n).1.pull p (afterPulls p w s n).2).outcome] := by
  induction n generalizing w s with
  | zero => rfl
  | succ n ih =>
    rw [outcomes, ih, outcomes, afterPulls]
    rfl

/-- Pulls that read exactly `us` have the same results in front of every source. -/
theorem ReadsJust.run_eq {p : Policy σ α} {w : Walk} {us : List Token} {current : Option Token}
    {state : σ} {count n : Nat} (later : Feed)
    (h : ReadsJust p later.limit w us current state count n) (later' : Feed) :
    let other : Feed := later'.on later.limit
    outcomes p w ⟨before us other current, state, count⟩ n =
        outcomes p w ⟨before us later current, state, count⟩ n ∧
      afterPulls p w ⟨before us other current, state, count⟩ n =
        ((afterPulls p w ⟨before us later current, state, count⟩ n).1,
          { (afterPulls p w ⟨before us later current, state, count⟩ n).2 with
            cursor := before [] other (lastToken current us) }) := by
  obtain ⟨brought, w', state', count', hrun⟩ := h
  have hown := hrun later
  rw [Feed.on_limit] at hown
  intro other
  rw [hown.1, hown.2, (hrun later').1, (hrun later').2]
  exact ⟨rfl, rfl⟩

end Walk

theorem Session.addWalk_eq {s s' : Session σ α} {splitter : Option Nat} {cursor n : Nat}
    {writes : Bool} (h : s.addWalk splitter cursor writes = .ok (n, s')) :
    s'.cursors = s.cursors ∧ s'.actors = s.actors ∧ s'.splitters = s.splitters := by
  unfold addWalk at h
  split at h
  · cases h
  · cases h
    exact ⟨rfl, rfl, rfl⟩

/-- Making a walk reads nothing. For an item of a pull, the container it was made from is read up to
its closing bracket, and in front of any other source with the same tokens the pulls have the same
outcomes, walk, policy state and record. Otherwise the container is unclosed, no tokens are left,
and the source has ended well. -/
theorem Walk.item_settled_by_its_tokens (p : Policy σ α) (w : Walk) {later : Feed}
    (hlater : later.IsSilent) (ts : List Token) (current : Option Token) (state : σ)
    (count n : Nat) {item : Item α}
    (hitem : (outcomes p w ⟨.before ts later current, state, count⟩ (n + 1)).getLast? =
      some (.item item)) :
    (∀ (made made' : Session σ α) (splitter : Option Nat) (cursor number : Nat) (writes : Bool),
      made.addWalk splitter cursor writes = .ok (number, made') →
        made'.cursors = made.cursors ∧ made'.actors = made.actors ∧
          made'.splitters = made.splitters) ∧
    let s : Scene (σ × List Question) := ⟨.before ts later current, (state, []), count⟩
    outcomes p.recorded w s (n + 1) =
        outcomes p w ⟨.before ts later current, state, count⟩ (n + 1) ∧
      ∃ front shape back a, ts = front ++ .opening shape :: back ∧
        Turn.Takes p.recorded (afterPulls p.recorded w s n).1.keys
          (afterPulls p.recorded w s n).2.cursor (afterPulls p.recorded w s n).2.state shape
          (.before back later (some (.opening shape))) a ∧
        IsMadeOf p.recorded item a ∧
        ((∃ inside rest, back = inside ++ rest ∧ Closes 1 inside ∧
            (afterPulls p.recorded w s (n + 1)).2.cursor =
              .before rest later (lastToken (some (.opening shape)) inside) ∧
            ∀ later' : Feed,
              let other : Feed := later'.on later.limit
              let s' : Scene (σ × List Question) :=
                ⟨.before (front ++ .opening shape :: inside) other current, (state, []), count⟩
              outcomes p.recorded w s' (n + 1) = outcomes p.recorded w s (n + 1) ∧
                afterPulls p.recorded w s' (n + 1) = ((afterPulls p.recorded w s (n + 1)).1,
                  { (afterPulls p.recorded w s (n + 1)).2 with
                    cursor := .before [] other (lastToken (some (.opening shape)) inside) })) ∨
          StaysOpen 1 back ∧ later.Completes ∧ ∃ rest current', rest.IsRestOf later ∧
            (afterPulls p.recorded w s (n + 1)).2.cursor = .before [] rest current') := by
  refine ⟨fun _ _ _ _ _ _ => Session.addWalk_eq, ?_⟩
  intro s
  have hsame : outcomes p.recorded w s (n + 1) =
      outcomes p w ⟨.before ts later current, state, count⟩ (n + 1) := outcomes_recorded p w s _
  rw [← hsame, outcomes_succ, List.getLast?_concat, Option.some.injEq] at hitem
  obtain ⟨front, shape, back, a, hts, htakes, hmade, hreads⟩ := item_of_pulls hlater rfl hitem
  refine ⟨hsame, front, shape, back, a, hts, htakes, hmade, hreads.imp_left ?_⟩
  rintro ⟨inside, rest, rfl, hinside, hjust⟩
  have hlast : lastToken current (front ++ .opening shape :: inside) =
      lastToken (some (.opening shape)) inside := by
    rw [lastToken_append]
    rfl
  have hahead : s = ⟨.before (front ++ .opening shape :: inside) (later.behind rest) current,
      (state, []), count⟩ := by
    rw [← Cursor.before_append, List.append_assoc, List.cons_append, ← hts]
  refine ⟨inside, rest, rfl, hinside, ?_, fun later' => ?_⟩
  · have hcursor := hjust.cursor_eq rest
    rw [hlast, List.append_assoc, List.cons_append, ← hts] at hcursor
    exact hcursor
  · have hrun := ReadsJust.run_eq (later.behind rest) hjust later'
    rw [hlast, ← hahead] at hrun
    exact hrun

namespace RuleTable

def skipping : RuleTable :=
  { base := .array, builder := .replaced ⟨[.call .skip .null], .fixed (.text "taken")⟩ }

def endingInside : List Token := [.opening .array, .opening .object]

theorem item_of_unclosed_container :
    let s : Scene State := ⟨.before endingInside (.finished .standard) none, {}, 0⟩
    (Walk.pull skipping.policy {} s).outcome = .item (.handle (.value (.text "taken"))) ∧
      ¬ ∃ front shape inside rest,
        endingInside = front ++ .opening shape :: (inside ++ rest) ∧ Closes 1 inside := by
  refine ⟨by cbv, ?_⟩
  rintro ⟨front, shape, inside, rest, hts, hinside⟩
  have hopen : StaysOpen 1 (inside ++ rest) := by
    rcases front with _ | ⟨_, _ | ⟨_, front⟩⟩
    · rw [List.nil_append, endingInside] at hts
      rw [← (List.cons.inj hts).2]
      trivial
    · have hnil := (List.cons.inj (List.cons.inj hts).2).2
      rw [← hnil]
      trivial
    · simp [endingInside] at hts
  exact hinside.not_staysOpen rest hopen

def brokenOff : List Token :=
  [.opening .array, .opening .object, .closing .object, .opening .array, .closing .array]

theorem second_item_settled :
    let later : Feed := ⟨[], .broken (.unreadable "lost"), .standard⟩
    let outcomes := fun (c : Cursor) => Walk.outcomes skipping.policy.recorded {} ⟨c, ({}, []), 0⟩ 2
    later.IsSilent ∧
      (Walk.outcomes skipping.policy {} ⟨.before brokenOff later none, {}, 0⟩ 2).getLast? =
        some (.item (.handle (.value (.text "taken")))) ∧
      ∃ front shape inside rest, brokenOff = front ++ .opening shape :: (inside ++ rest) ∧
        Closes 1 inside ∧ ∀ later' : Feed,
          outcomes (.before (front ++ .opening shape :: inside) (later'.on later.limit) none) =
            outcomes (.before brokenOff later none) := by
  intro later outcomes
  have hsilent : later.IsSilent := fun t => List.not_mem_nil
  have hitem : (Walk.outcomes skipping.policy {} ⟨.before brokenOff later none, {}, 0⟩ 2).getLast? =
      some (.item (.handle (.value (.text "taken")))) := by cbv
  obtain ⟨-, -, front, shape, back, a, hts, -, -, ⟨inside, rest, rfl, hinside, -, hrun⟩ |
    ⟨-, hcompletes, -⟩⟩ :=
      Walk.item_settled_by_its_tokens skipping.policy {} hsilent brokenOff none {} 0 1 hitem
  · exact ⟨hsilent, hitem, front, shape, inside, rest, hts, hinside, fun later' => (hrun later').1⟩
  · rcases hcompletes with hmem | hending
    · cases hmem
    · cases hending

end RuleTable

end JsonCleave
