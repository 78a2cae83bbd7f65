import JsonCleave.Proofs.Lookahead
/-!
# Mirrored policies

A policy mirrors another one if it answers alike in related states, with handles related by a
function. Mirrored policies split every source alike, pull by pull. Recording the answers of a
policy gives a mirror of it, so questions and answers can be compared as part of the state. The
generic and the counting rule mirror each other.
-/

namespace JsonCleave

variable {σ τ α β γ δ : Type}

def WriteRequest.map (f : α → β) (r : WriteRequest α) : WriteRequest β :=
  ⟨r.kind, r.address, r.metadata, f r.content⟩

def Item.map (f : α → β) : Item α → Item β
  | .handle a => .handle (f a)
  | .request r => .request (r.map f)

structure Alike (R : σ → τ → Prop) (f : γ → δ) (x : γ × σ) (y : δ × τ) : Prop where
  answer : y.1 = f x.1
  state : R x.2 y.2

/-- `q` answers as `p` in related states, and its handles are those of `p` under `f`. -/
structure Policy.Mirrors (R : σ → τ → Prop) (f : α → β) (p : Policy σ α) (q : Policy τ β) :
    Prop where
  enter (shape : Shape) (key : Option String) {s : σ} {t : τ} (hst : R s t) :
    Alike R id (p.enter shape key s) (q.enter shape key t)
  leave (shape : Shape) (key : Option String) {s : σ} {t : τ} (hst : R s t) :
    Alike R id (p.leave shape key s) (q.leave shape key t)
  build (r : Reader) {s : σ} {t : τ} (hst : R s t) :
    Alike R (Except.map (Option.map f)) ((p.build s).run r).result ((q.build t).run r).result ∧
      ((q.build t).run r).reader = ((p.build s).run r).reader ∧
      ((q.build t).run r).log = ((p.build s).run r).log
  request (serial : Nat) (a : α) {s : σ} {t : τ} (hst : R s t) :
    Alike R (Except.map (WriteRequest.map f)) (p.request serial a s) (q.request serial (f a) t)

structure Turn.Mirrors (R : σ → τ → Prop) (f : α → β) (x : Turn σ α) (y : Turn τ β) : Prop where
  outcome : y.outcome = x.outcome.map (Option.map f)
  keys : y.keys = x.keys
  cursor : y.cursor = x.cursor
  state : R x.state y.state
  log : y.log = x.log

structure Scene.Mirrors (R : σ → τ → Prop) (x : Scene σ) (y : Scene τ) : Prop where
  cursor : y.cursor = x.cursor
  state : R x.state y.state
  count : y.count = x.count

structure Pull.Mirrors (R : σ → τ → Prop) (f : α → β) (x : Pull σ α) (y : Pull τ β) : Prop where
  outcome : y.outcome = x.outcome.map f
  walk : y.walk = x.walk
  scene : x.scene.Mirrors R y.scene
  log : y.log = x.log

/-! ## From the answers to the pulls -/

section

variable {R : σ → τ → Prop} {f : α → β} {p : Policy σ α} {q : Policy τ β}

namespace Turn

variable (keys : List (Option String)) (c : Cursor) {s : σ} {t : τ}

theorem mirrors_process (h : p.Mirrors R f q) (hst : R s t) :
    (process p keys c s).Mirrors R f (process q keys c t) := by
  obtain ⟨⟨hanswer, hstate⟩, hreader, hlog⟩ := h.build (Reader.view ⟨c, []⟩) hst
  rcases hp : ((p.build s).run (Reader.view ⟨c, []⟩)).result with ⟨answer, s'⟩
  rcases hq : ((q.build t).run (Reader.view ⟨c, []⟩)).result with ⟨answer', t'⟩
  rw [hp, hq] at hanswer hstate
  dsimp only at hanswer hstate
  subst hanswer
  simp only [process, hp, hq, hreader, hlog]
  cases answer with
  | error fault => exact ⟨rfl, rfl, rfl, hstate, rfl⟩
  | ok handle =>
    rcases ((p.build s).run (Reader.view ⟨c, []⟩)).reader.drain with ⟨fault | _, r⟩
    · exact ⟨rfl, rfl, rfl, hstate, rfl⟩
    · exact ⟨rfl, rfl, rfl, hstate, rfl⟩

theorem mirrors_follow (h : p.Mirrors R f q) (hst : R s t) (shape : Shape) (decision : Decision) :
    (follow p shape decision keys c s).Mirrors R f (follow q shape decision keys c t) := by
  cases decision with
  | descend => cases shape <;> exact ⟨rfl, rfl, rfl, hst, rfl⟩
  | process => exact mirrors_process keys c h hst
  | unknown answer => exact ⟨rfl, rfl, rfl, hst, rfl⟩
  | skip =>
    simp only [follow]
    rcases c.skipChildren with ⟨fault | _, c'⟩
    · exact ⟨rfl, rfl, rfl, hst, rfl⟩
    · exact ⟨rfl, rfl, rfl, hst, rfl⟩

theorem mirrors_visit (h : p.Mirrors R f q) (hst : R s t) (token : Token) :
    (visit p token keys c s).Mirrors R f (visit q token keys c t) := by
  cases token with
  | key name => exact ⟨rfl, rfl, rfl, hst, rfl⟩
  | scalar value => exact ⟨rfl, rfl, rfl, hst, rfl⟩
  | opening shape =>
    obtain ⟨hanswer, hstate⟩ := h.enter shape (keyOf keys) hst
    rcases hp : p.enter shape (keyOf keys) s with ⟨answer, s'⟩
    rcases hq : q.enter shape (keyOf keys) t with ⟨answer', t'⟩
    rw [hp, hq] at hanswer hstate
    obtain rfl : answer' = answer := hanswer
    simp only [visit, hp, hq]
    cases answer' with
    | error fault => exact ⟨rfl, rfl, rfl, hstate, rfl⟩
    | ok decision => exact mirrors_follow keys c h hstate shape decision
  | closing shape =>
    obtain ⟨hanswer, hstate⟩ := h.leave shape (keyOf keys) hst
    rcases hp : p.leave shape (keyOf keys) s with ⟨answer, s'⟩
    rcases hq : q.leave shape (keyOf keys) t with ⟨answer', t'⟩
    rw [hp, hq] at hanswer hstate
    obtain rfl : answer' = answer := hanswer
    simp only [visit, hp, hq]
    cases answer' with
    | error fault => exact ⟨rfl, rfl, rfl, hstate, rfl⟩
    | ok => cases shape <;> exact ⟨rfl, rfl, rfl, hstate, rfl⟩

theorem mirrors_traverse (h : p.Mirrors R f q) (hst : R s t) (log : List Entry) :
    (traverse p log keys c s).Mirrors R f (traverse q log keys c t) := by
  fun_induction traverse p log keys c s generalizing t with
  | case1 log keys c s fault c' hnext =>
    rw [traverse_fault log hnext]
    exact ⟨rfl, rfl, rfl, hst, rfl⟩
  | case2 log keys c s c' hnext =>
    rw [traverse_end log hnext]
    exact ⟨rfl, rfl, rfl, hst, rfl⟩
  | case3 log keys c s token c' hnext turn hnone =>
    rename_i ih
    obtain ⟨houtcome, hkeys, hcursor, hstate, hlog⟩ := mirrors_visit keys c' h hst token
    have hnone' : (visit q token keys c' t).outcome = .ok none := by
      rw [houtcome, hnone]
      rfl
    rw [traverse_onward log hnext hnone', hkeys, hcursor, hlog]
    exact ih hstate
  | case4 log keys c s token c' hnext turn =>
    rename_i hne
    obtain ⟨houtcome, hkeys, hcursor, hstate, hlog⟩ := mirrors_visit keys c' h hst token
    have hne' : (visit q token keys c' t).outcome ≠ .ok none := by
      rw [houtcome]
      intro hmap
      rcases hturn : (visit p token keys c' s).outcome with fault | _ | a
      · rw [hturn] at hmap
        cases hmap
      · exact hne hturn
      · rw [hturn] at hmap
        cases hmap
    rw [traverse_stop log hnext hne']
    exact ⟨houtcome, hkeys, hcursor, hstate, by rw [hlog]⟩

end Turn

namespace Walk

variable (w : Walk) {s : Scene σ} {t : Scene τ}

theorem mirrors_nextHandle (h : p.Mirrors R f q) (hst : s.Mirrors R t) :
    (w.nextHandle p s).Mirrors R f (w.nextHandle q t) := by
  obtain ⟨hcursor, hstate, hcount⟩ := hst
  cases hw : w.finished with
  | true =>
    simp only [nextHandle, hw, ↓reduceIte]
    exact ⟨rfl, rfl, ⟨hcursor, hstate, hcount⟩, rfl⟩
  | false =>
    obtain ⟨houtcome, hkeys, hcursor', hstate', hlog⟩ :=
      Turn.mirrors_traverse w.keys s.cursor h hstate []
    simp only [nextHandle, hw, Bool.false_eq_true, ↓reduceIte, hcursor, hcount, houtcome, hkeys,
      hcursor', hlog]
    rcases (Turn.traverse p [] w.keys s.cursor s.state).outcome with fault | _ | a
    · cases fault <;> exact ⟨rfl, rfl, ⟨rfl, hstate', rfl⟩, rfl⟩
    · exact ⟨rfl, rfl, ⟨rfl, hstate', rfl⟩, rfl⟩
    · exact ⟨rfl, rfl, ⟨rfl, hstate', rfl⟩, rfl⟩

/-- Policies that mirror each other agree on every pull. -/
theorem mirrors_pull (h : p.Mirrors R f q) (hst : s.Mirrors R t) :
    (w.pull p s).Mirrors R (Item.map f) (w.pull q t) := by
  have hfound := mirrors_nextHandle w h hst
  simp only [pull]
  generalize w.nextHandle p s = found at hfound ⊢
  generalize w.nextHandle q t = found' at hfound ⊢
  obtain ⟨outcome, walk, ⟨c, state, count⟩, log⟩ := found
  obtain ⟨outcome', walk', ⟨c', state', count'⟩, log'⟩ := found'
  obtain ⟨houtcome, hwalk, ⟨hcursor, hstate, hcount⟩, hlog⟩ := hfound
  dsimp only at houtcome hwalk hcursor hstate hcount hlog ⊢
  subst houtcome hwalk hcursor hcount hlog
  cases outcome with
  | stopped => exact ⟨rfl, rfl, ⟨rfl, hstate, rfl⟩, rfl⟩
  | failed fault => exact ⟨rfl, rfl, ⟨rfl, hstate, rfl⟩, rfl⟩
  | item a =>
    cases w.writes with
    | false => exact ⟨rfl, rfl, ⟨rfl, hstate, rfl⟩, rfl⟩
    | true =>
      obtain ⟨hanswer, hstate'⟩ := h.request count' a hstate
      rcases hp : p.request count' a state with ⟨answer, s'⟩
      rcases hq : q.request count' (f a) state' with ⟨answer', t'⟩
      rw [hp, hq] at hanswer hstate'
      dsimp only at hanswer hstate'
      subst hanswer
      simp only [Outcome.map, ↓reduceIte, hp, hq]
      cases answer with
      | error fault => exact ⟨rfl, rfl, ⟨rfl, hstate', rfl⟩, rfl⟩
      | ok request => exact ⟨rfl, rfl, ⟨rfl, hstate', rfl⟩, rfl⟩

theorem mirrors_afterPulls (h : p.Mirrors R f q) (hst : s.Mirrors R t) (n : Nat) :
    ∃ state, R (afterPulls p w s n).2.state state ∧
      afterPulls q w t n =
        ((afterPulls p w s n).1, { (afterPulls p w s n).2 with state := state }) := by
  induction n generalizing w s t with
  | zero =>
    obtain ⟨c, state, count⟩ := t
    obtain ⟨hcursor, hstate, hcount⟩ := hst
    dsimp only at hcursor hstate hcount
    subst hcursor hcount
    exact ⟨state, hstate, rfl⟩
  | succ n ih =>
    obtain ⟨-, hwalk, hscene, -⟩ := mirrors_pull w h hst
    rw [afterPulls, afterPulls, hwalk]
    exact ih _ hscene

theorem mirrors_outcomes (h : p.Mirrors R f q) (hst : s.Mirrors R t) (n : Nat) :
    outcomes q w t n = (outcomes p w s n).map (Outcome.map (Item.map f)) := by
  induction n generalizing w s t with
  | zero => rfl
  | succ n ih =>
    obtain ⟨houtcome, hwalk, hscene, -⟩ := mirrors_pull w h hst
    rw [outcomes, outcomes, houtcome, hwalk, ih _ hscene, List.map_cons]

end Walk

end

/-! ## Policies that note down their answers -/

inductive Note (α : Type) where
  | entering (shape : Shape) (key : Option String) (answer : Except Fault Decision)
  | leaving (shape : Shape) (key : Option String) (answer : Except Fault Unit)
  | building (answer : Except Fault (Option α))
  | requesting (serial : Nat) (handle : α) (answer : Except Fault (WriteRequest α))

def Note.map (f : α → β) : Note α → Note β
  | .entering shape key answer => .entering shape key answer
  | .leaving shape key answer => .leaving shape key answer
  | .building answer => .building (answer.map (Option.map f))
  | .requesting serial handle answer =>
    .requesting serial (f handle) (answer.map (WriteRequest.map f))

namespace Policy

/-- `p` with a record of its questions and answers. -/
def noted (p : Policy σ α) : Policy (σ × List (Note α)) α where
  enter shape key s :=
    let (answer, s') := p.enter shape key s.1
    (answer, s', s.2 ++ [.entering shape key answer])
  leave shape key s :=
    let (answer, s') := p.leave shape key s.1
    (answer, s', s.2 ++ [.leaving shape key answer])
  build s := (p.build s.1).map fun built => (built.1, built.2, s.2 ++ [.building built.1])
  request serial handle s :=
    let (answer, s') := p.request serial handle s.1
    (answer, s', s.2 ++ [.requesting serial handle answer])

theorem mirrors_noted (p : Policy σ α) : p.Mirrors (fun s t => t.1 = s) id p.noted where
  enter shape key s t hst := by
    subst hst
    exact ⟨rfl, rfl⟩
  leave shape key s t hst := by
    subst hst
    exact ⟨rfl, rfl⟩
  build r s t hst := by
    subst hst
    refine ⟨⟨?_, rfl⟩, rfl, rfl⟩
    simp only [noted, Program.map]
    rcases ((p.build t.1).run r).result.1 with fault | _ | a <;> rfl
  request serial a s t hst := by
    subst hst
    refine ⟨?_, rfl⟩
    simp only [noted, id]
    rcases (p.request serial a t.1).1 with fault | request <;> rfl

theorem Mirrors.noted {R : σ → τ → Prop} {f : α → β} {p : Policy σ α} {q : Policy τ β}
    (h : p.Mirrors R f q) :
    p.noted.Mirrors (fun s t => R s.1 t.1 ∧ t.2 = s.2.map (Note.map f)) f q.noted where
  enter shape key s t hst := by
    obtain ⟨hanswer, hstate⟩ := h.enter shape key hst.1
    exact ⟨hanswer, hstate, by simp [Policy.noted, hanswer, hst.2, Note.map]⟩
  leave shape key s t hst := by
    obtain ⟨hanswer, hstate⟩ := h.leave shape key hst.1
    exact ⟨hanswer, hstate, by simp [Policy.noted, hanswer, hst.2, Note.map]⟩
  build r s t hst := by
    obtain ⟨⟨hanswer, hstate⟩, hreader, hlog⟩ := h.build r hst.1
    exact ⟨⟨hanswer, hstate, by simp [Policy.noted, Program.map, hanswer, hst.2, Note.map]⟩,
      hreader, hlog⟩
  request serial a s t hst := by
    obtain ⟨hanswer, hstate⟩ := h.request serial a hst.1
    exact ⟨hanswer, hstate, by simp [Policy.noted, hanswer, hst.2, Note.map]⟩

/-! ## The generic rule and the array rule -/

/-- The two rules for arrays decide alike and leave the same count. -/
theorem enterArrayCounting_eq_generic (openArrays : Nat) :
    enterArrayCounting openArrays = enterArrayGeneric openArrays := by
  unfold enterArrayCounting enterArrayGeneric
  by_cases h : 0 < openArrays
  · simp [h]
  · simp [h]

def marked (text : String) : Payload := ⟨text, .json⟩

theorem generic_mirrors_array : generic.Mirrors (fun s t => t = s) marked array where
  enter shape key s t hst := by
    subst hst
    cases shape with
    | object => exact ⟨rfl, rfl⟩
    | array =>
      simp only [generic, array, enterArrayCounting_eq_generic]
      exact ⟨rfl, rfl⟩
  leave shape key s t hst := by
    subst hst
    constructor <;> rfl
  build r s t hst := by
    subst hst
    simp only [generic, array, Program.run_ofReading, Reading.run_map]
    refine ⟨⟨?_, rfl⟩, trivial, trivial⟩
    cases (Reading.serialize.run r).result <;> rfl
  request serial a s t hst := by
    subst hst
    constructor <;> rfl

end Policy

namespace Walk

open Policy (generic array marked)

/-- The generic and the array rule agree on every source after any number of pulls: same position,
open arrays, count, texts, stops and faults, log, and the same questions with the same answers. -/
theorem generic_and_array_pull_alike (w : Walk) (c : Cursor) (openArrays count n : Nat) :
    let s : Scene Nat := ⟨c, openArrays, count⟩
    let (w', s') := afterPulls generic w s n
    afterPulls array w s n = (w', s') ∧
    outcomes array w s n = (outcomes generic w s n).map (Outcome.map (Item.map marked)) ∧
    (w'.pull array s').log = (w'.pull generic s').log ∧
    ∃ notes : List (Note String),
      afterPulls generic.noted w ⟨c, (openArrays, []), count⟩ n =
        (w', { s' with state := (s'.state, notes) }) ∧
      afterPulls array.noted w ⟨c, (openArrays, []), count⟩ n =
        (w', { s' with state := (s'.state, notes.map (Note.map marked)) }) := by
  intro s
  have hsame : s.Mirrors (fun s t => t = s) s := ⟨rfl, rfl, rfl⟩
  have hfresh :
      s.Mirrors (fun s t => t.1 = s) ⟨c, (openArrays, ([] : List (Note String))), count⟩ :=
    ⟨rfl, rfl, rfl⟩
  have hnoted : Scene.Mirrors (fun s t => t.1 = s.1 ∧ t.2 = s.2.map (Note.map marked))
      ⟨c, (openArrays, ([] : List (Note String))), count⟩
      ⟨c, (openArrays, ([] : List (Note Payload))), count⟩ := ⟨rfl, ⟨rfl, rfl⟩, rfl⟩
  obtain ⟨_, rfl, harray⟩ := mirrors_afterPulls w Policy.generic_mirrors_array hsame n
  obtain ⟨⟨_, notes⟩, hstate, hgeneric⟩ := mirrors_afterPulls w generic.mirrors_noted hfresh n
  obtain ⟨⟨_, notes'⟩, hnotes, harray'⟩ :=
    mirrors_afterPulls w Policy.generic_mirrors_array.noted hnoted n
  rw [hgeneric] at hnotes harray'
  dsimp only at hstate hnotes
  obtain ⟨rfl, rfl⟩ := hnotes
  subst hstate
  have hnext := mirrors_pull (afterPulls generic w s n).1 Policy.generic_mirrors_array
    (⟨rfl, rfl, rfl⟩ : (afterPulls generic w s n).2.Mirrors (fun s t => t = s) _)
  exact ⟨harray, mirrors_outcomes w Policy.generic_mirrors_array hsame n, hnext.log, notes,
    hgeneric, harray'⟩

end Walk

end JsonCleave
