import Mathlib
import JsonCleave.Proofs.Refusal
import JsonCleave.Proofs.Sharing
/-!
# Moves of a splitter

Any number of sources and walks of one splitter, used in any order. The count of the splitter is the
number of items handed out, and finished walks change nothing.
-/

namespace JsonCleave

variable {σ α : Type}

/-- A move on one splitter: a new source, a new walk on a source, or a pull. -/
inductive Move where
  | supply (source : Feed)
  | start (source : Nat) (writes : Bool)
  | pull (n : Nat)

def Outcome.item? : Outcome α → Option α
  | .item a => some a
  | _ => none

namespace Walk

variable (p : Policy σ α) (w : Walk) (s : Scene σ)

theorem count_pull :
    (w.pull p s).scene.count = s.count + (w.pull p s).outcome.item?.toList.length := by
  have hfound := count_nextHandle p w s
  unfold pull
  simp only []
  split
  · simpa [Outcome.item?] using hfound
  · simpa [Outcome.item?] using hfound
  · split
    · split
      · simpa [emit, Outcome.item?] using hfound
      · simpa [Outcome.item?] using hfound
    · simpa [emit, Outcome.item?] using hfound

end Walk

namespace Session

def move (s : Session σ α) : Move → Option (Outcome (Item α)) × Session σ α
  | .supply source => (none, (s.addCursor (.ofFeed source)).2)
  | .start source writes =>
    match s.addWalk (some 0) source writes with
    | .ok (_, s') => (none, s')
    | .error _ => (none, s)
  | .pull n =>
    match s.pull n with
    | some (outcome, s') => (some outcome, s')
    | none => (none, s)

def afterMoves (s : Session σ α) (moves : List Move) : Session σ α :=
  moves.foldl (fun s m => (s.move m).2) s

def outcomes (s : Session σ α) : List Move → List (Outcome (Item α))
  | [] => []
  | m :: moves => (s.move m).1.toList ++ outcomes (s.move m).2 moves

variable {s s' : Session σ α} {n : Nat} {course : Course} {p : Policy σ α} {scene : Scene σ}

@[simp] theorem afterMoves_nil (s : Session σ α) : s.afterMoves [] = s := rfl

@[simp] theorem afterMoves_cons (s : Session σ α) (m : Move) (moves : List Move) :
    s.afterMoves (m :: moves) = (s.move m).2.afterMoves moves := rfl

/-! ## One pull -/

theorem scene?_eq_some (h : s.scene? course = some (p, scene)) :
    ∃ actor splitter, s.cursors[course.cursor]? = some scene.cursor ∧
      s.actors[course.policy]? = some actor ∧ s.splitters[course.splitter]? = some splitter ∧
      p = actor.policy ∧ scene = ⟨scene.cursor, actor.state, splitter.count⟩ := by
  unfold scene? at h
  cases hcursor : s.cursors[course.cursor]? with
  | none => simp [hcursor] at h
  | some cursor =>
    cases hactor : s.actors[course.policy]? with
    | none => simp [hcursor, hactor] at h
    | some actor =>
      cases hsplitter : s.splitters[course.splitter]? with
      | none => simp [hcursor, hactor, hsplitter] at h
      | some splitter =>
        obtain ⟨rfl, rfl⟩ : actor.policy = p ∧
            Scene.mk cursor actor.state splitter.count = scene := by
          simpa [hcursor, hactor, hsplitter] using h
        exact ⟨actor, splitter, rfl, rfl, rfl, rfl, rfl⟩

theorem isSome_scene?_iff : (s.scene? course).isSome ↔
    course.cursor < s.cursors.length ∧ course.policy < s.actors.length ∧
      course.splitter < s.splitters.length := by
  have hsome {β : Type} (as : List β) (m : Nat) : m < as.length ↔ as[m]?.isSome := by simp
  rw [hsome, hsome, hsome]
  unfold scene?
  cases s.cursors[course.cursor]? <;> cases s.actors[course.policy]? <;>
    cases s.splitters[course.splitter]? <;> simp

theorem pull_eq (hcourse : s.courses[n]? = some course)
    (hscene : s.scene? course = some (p, scene)) :
    s.pull n = some ((course.walk.pull p scene).outcome,
      s.putCourse n course (course.walk.pull p scene).walk (course.walk.pull p scene).scene) := by
  simp [pull, hcourse, hscene]

theorem exists_of_pull {outcome : Outcome (Item α)} (h : s.pull n = some (outcome, s')) :
    ∃ course p scene, s.courses[n]? = some course ∧ s.scene? course = some (p, scene) ∧
      outcome = (course.walk.pull p scene).outcome ∧
      s' = s.putCourse n course (course.walk.pull p scene).walk
        (course.walk.pull p scene).scene := by
  cases hcourse : s.courses[n]? with
  | none => simp [pull, hcourse] at h
  | some course =>
    cases hscene : s.scene? course with
    | none => simp [pull, hcourse, hscene] at h
    | some x =>
      obtain ⟨p, scene⟩ := x
      rw [pull_eq hcourse hscene, Option.some.injEq, Prod.mk.injEq] at h
      exact ⟨course, p, scene, rfl, hscene, h.1.symm, h.2.symm⟩

theorem putCourse_self (hcourse : s.courses[n]? = some course)
    (hscene : s.scene? course = some (p, scene)) :
    s.putCourse n course course.walk scene = s := by
  obtain ⟨actor, splitter, hcursor, hactor, hsplitter, -, hparts⟩ := scene?_eq_some hscene
  rw [hparts]
  obtain ⟨cursors, views, actors, splitters, courses⟩ := s
  dsimp only at hcourse hcursor hactor hsplitter
  have hset {β : Type} {as : List β} {m : Nat} {a : β} (h : as[m]? = some a) : as.set m a = as := by
    obtain ⟨hm, rfl⟩ := List.getElem?_eq_some_iff.mp h
    exact List.set_getElem_self hm
  have hmodify {β : Type} {as : List β} {m : Nat} {a : β} {f : β → β} (h : as[m]? = some a)
      (hf : f a = a) : as.modify m f = as := by
    rw [List.modify_eq_set_getElem?, h]
    simp [hf, hset h]
  simp [putCourse, setState, hset hcourse, hset hcursor, hmodify hactor, hmodify hsplitter]

/-! ## One move -/

theorem move_supply (s : Session σ α) (source : Feed) :
    s.move (.supply source) = (none, { s with cursors := s.cursors ++ [.ofFeed source] }) := rfl

theorem move_start {splitter : Splitter} (hsplitter : s.splitters[0]? = some splitter)
    (source : Nat) (writes : Bool) :
    s.move (.start source writes) =
      (none, { s with courses := s.courses ++ [⟨{ writes }, 0, splitter.policy, source⟩] }) := by
  simp [move, addWalk, hsplitter]

theorem move_start_absent (hsplitter : s.splitters[0]? = none) (source : Nat) (writes : Bool) :
    s.move (.start source writes) = (none, s) := by
  simp [move, addWalk, hsplitter]

theorem move_pull_none (hpull : s.pull n = none) : s.move (.pull n) = (none, s) := by
  simp only [move, hpull]

theorem move_pull_some {outcome : Outcome (Item α)} (hpull : s.pull n = some (outcome, s')) :
    s.move (.pull n) = (some outcome, s') := by
  simp only [move, hpull]

/-! ## What every move preserves -/

/-- There is one splitter, and `count` is its count. -/
structure Counts (s : Session σ α) (count : Nat) : Prop where
  splitters : s.splitters = [{ policy := 0, count }]
  courses : ∀ course ∈ s.courses, course.splitter = 0

theorem counts_ofPolicy (p : Policy σ α) (state : σ) : (ofPolicy p state).Counts 0 :=
  ⟨rfl, by simp [ofPolicy]⟩

theorem Counts.pull {count : Nat} {outcome : Outcome (Item α)} (h : s.Counts count)
    (hpull : s.pull n = some (outcome, s')) :
    s'.Counts (count + outcome.item?.toList.length) := by
  obtain ⟨course, p, scene, hcourse, hscene, rfl, rfl⟩ := exists_of_pull hpull
  have hzero := h.courses course (List.mem_of_getElem? hcourse)
  obtain ⟨actor, splitter, -, -, hsplitter, -, hparts⟩ := scene?_eq_some hscene
  rw [hzero, h.splitters] at hsplitter
  obtain rfl : ⟨0, count⟩ = splitter := by simpa using hsplitter
  have hcount : (course.walk.pull p scene).scene.count =
      count + (course.walk.pull p scene).outcome.item?.toList.length := by
    rw [Walk.count_pull, hparts]
  constructor
  · simp [putCourse, setState, h.splitters, hzero, hcount]
  · intro other hother
    rcases List.mem_or_eq_of_mem_set hother with hold | rfl
    · exact h.courses other hold
    · exact hzero

theorem Counts.move {count : Nat} (h : s.Counts count) (m : Move) :
    (s.move m).2.Counts (count + ((s.move m).1.bind Outcome.item?).toList.length) := by
  cases m with
  | supply source => exact ⟨h.splitters, h.courses⟩
  | start source writes =>
    rw [move_start (by rw [h.splitters]; rfl) source writes]
    refine ⟨h.splitters, fun course hcourse => ?_⟩
    rcases List.mem_append.mp hcourse with hold | hlast
    · exact h.courses course hold
    · rw [List.mem_singleton.mp hlast]
  | pull n =>
    cases hpull : s.pull n with
    | none =>
      rw [move_pull_none hpull]
      exact h
    | some x =>
      rw [move_pull_some hpull]
      exact h.pull hpull

/-- The count is the number of items handed out. -/
theorem Counts.afterMoves {count : Nat} (h : s.Counts count) (moves : List Move) :
    (s.afterMoves moves).Counts (count + ((s.outcomes moves).filterMap Outcome.item?).length) := by
  induction moves generalizing s count with
  | nil => exact h
  | cons m moves ih =>
    have hrest := ih (h.move m)
    rw [outcomes, List.filterMap_append, List.length_append, ← Nat.add_assoc, afterMoves_cons]
    convert hrest using 3
    cases (s.move m).1 with
    | none => rfl
    | some outcome => cases outcome <;> rfl

/-- The walk with number `n` has finished. -/
def HasEnded (s : Session σ α) (n : Nat) : Prop :=
  ∃ course, s.courses[n]? = some course ∧ course.walk.finished = true ∧
    (s.scene? course).isSome

/-- A pull of a finished walk stops, and changes nothing. -/
theorem HasEnded.pull (h : s.HasEnded n) : s.pull n = some (.stopped, s) := by
  obtain ⟨course, hcourse, hfinished, hscene⟩ := h
  obtain ⟨⟨p, scene⟩, hscene⟩ := Option.isSome_iff_exists.mp hscene
  rw [pull_eq hcourse hscene, Walk.pull_finished p scene hfinished, putCourse_self hcourse hscene]

theorem HasEnded.mono (h : s.HasEnded n) (hcourses : s'.courses[n]? = s.courses[n]?)
    (hcursors : s.cursors.length ≤ s'.cursors.length)
    (hactors : s.actors.length ≤ s'.actors.length)
    (hsplitters : s.splitters.length ≤ s'.splitters.length) : s'.HasEnded n := by
  obtain ⟨course, hcourse, hfinished, hscene⟩ := h
  rw [isSome_scene?_iff] at hscene
  refine ⟨course, hcourses.trans hcourse, hfinished, isSome_scene?_iff.mpr ?_⟩
  omega

theorem HasEnded.lt (h : s.HasEnded n) : n < s.courses.length := by
  obtain ⟨course, hcourse, -, -⟩ := h
  exact (List.getElem?_eq_some_iff.mp hcourse).1

theorem HasEnded.move (h : s.HasEnded n) (m : Move) : (s.move m).2.HasEnded n := by
  cases m with
  | supply source =>
    rw [move_supply]
    exact h.mono rfl (by simp) (Nat.le_refl _) (Nat.le_refl _)
  | start source writes =>
    cases hsplitter : s.splitters[0]? with
    | none =>
      rw [move_start_absent hsplitter]
      exact h
    | some splitter =>
      rw [move_start hsplitter]
      exact h.mono (List.getElem?_append_left h.lt) (Nat.le_refl _) (Nat.le_refl _) (Nat.le_refl _)
  | pull k =>
    by_cases hk : k = n
    · subst hk
      rw [move_pull_some h.pull]
      exact h
    · cases hpull : s.pull k with
      | none =>
        rw [move_pull_none hpull]
        exact h
      | some x =>
        obtain ⟨other, p, scene, -, -, -, hput⟩ := exists_of_pull hpull
        rw [move_pull_some hpull, hput]
        apply h.mono
        · exact List.getElem?_set_ne hk
        · simp [putCourse, setState]
        · simp [putCourse, setState]
        · simp [putCourse, setState]

theorem HasEnded.afterMoves (h : s.HasEnded n) (moves : List Move) :
    (s.afterMoves moves).HasEnded n := by
  induction moves generalizing s with
  | nil => exact h
  | cons m moves ih => exact ih (h.move m)

theorem hasEnded_putCourse {walk : Walk} {scene' : Scene σ} (hcourse : s.courses[n]? = some course)
    (hscene : s.scene? course = some (p, scene)) (hfinished : walk.finished = true) :
    (s.putCourse n course walk scene').HasEnded n := by
  have hlt := (List.getElem?_eq_some_iff.mp hcourse).1
  have hthere : (s.scene? course).isSome := by simp [hscene]
  refine ⟨{ course with walk }, ?_, hfinished, ?_⟩
  · simp only [putCourse, setState]
    exact List.getElem?_set_self hlt
  · rw [isSome_scene?_iff] at hthere ⊢
    simpa [putCourse, setState] using hthere

end Session

end JsonCleave
