import JsonCleave.Proofs.Moves
/-!
# Final failures

A traversal fails exactly if the source, a hook, a decision, a builder or the reading of a container
does. The pull reports bad input as an interruption and any other fault unchanged, and the walk is
finished: later pulls read nothing and call no hook, whatever happens to other walks.
-/

namespace JsonCleave

variable {σ α : Type}

/-- How a fault of a stage is reported to the caller: bad input as an interruption, any other fault
unchanged. -/
inductive Fault.Surfaces (stage : Stage) : Fault → Fault → Prop
  | interrupted {fault : Fault} {origin : Origin} (hfault : fault.origin? = some origin) :
      Surfaces stage fault (.interrupted stage origin)
  | unchanged {fault : Fault} (hfault : fault.origin? = none) : Surfaces stage fault fault

theorem Fault.surfaces_iff {stage : Stage} {fault surfaced : Fault} :
    fault.Surfaces stage surfaced ↔ surfaced = fault.leaving stage := by
  constructor
  · intro h
    cases h with
    | interrupted hfault => simp [leaving, hfault]
    | unchanged hfault => simp [leaving, hfault]
  · rintro rfl
    cases hfault : fault.origin? with
    | some origin =>
      rw [leaving, hfault]
      exact .interrupted hfault
    | none =>
      rw [leaving, hfault]
      exact .unchanged hfault

namespace Turn

/-! ## Where a traversal fails -/

/-- Visiting a token fails with `fault`. -/
inductive Breaks (p : Policy σ α) :
    Token → List (Option String) → Cursor → σ → Fault → Prop
  | entering {shape : Shape} {keys : List (Option String)} {c : Cursor} {state state' : σ}
      {fault : Fault} (henter : p.enter shape (keyOf keys) state = (.error fault, state')) :
      Breaks p (.opening shape) keys c state fault
  | deciding {shape : Shape} {keys : List (Option String)} {c : Cursor} {state state' : σ}
      {answer : Value}
      (henter : p.enter shape (keyOf keys) state = (.ok (.unknown answer), state')) :
      Breaks p (.opening shape) keys c state (.unknownDecision answer)
  | skipping {shape : Shape} {keys : List (Option String)} {c : Cursor} {state state' : σ}
      {fault : Fault} (henter : p.enter shape (keyOf keys) state = (.ok .skip, state'))
      (hskip : c.skipChildren.1 = .error fault) : Breaks p (.opening shape) keys c state fault
  | building {shape : Shape} {keys : List (Option String)} {c : Cursor} {state state' state'' : σ}
      {fault : Fault} (henter : p.enter shape (keyOf keys) state = (.ok .process, state'))
      (hbuild : ((p.build state').run (Reader.view ⟨c, []⟩)).result = (.error fault, state'')) :
      Breaks p (.opening shape) keys c state fault
  | draining {shape : Shape} {keys : List (Option String)} {c : Cursor} {state state' state'' : σ}
      {handle : Option α} {fault : Fault}
      (henter : p.enter shape (keyOf keys) state = (.ok .process, state'))
      (hbuild : ((p.build state').run (Reader.view ⟨c, []⟩)).result = (.ok handle, state''))
      (hdrain : ((p.build state').run (Reader.view ⟨c, []⟩)).reader.drain.1 = .error fault) :
      Breaks p (.opening shape) keys c state fault
  | leaving {shape : Shape} {keys : List (Option String)} {c : Cursor} {state state' : σ}
      {fault : Fault} (hleave : p.leave shape (keyOf keys) state = (.error fault, state')) :
      Breaks p (.closing shape) keys c state fault

/-- The traversal meets `fault`, from the source or from a visit. -/
inductive Meets (p : Policy σ α) : List (Option String) → Cursor → σ → Fault → Prop
  | source {keys : List (Option String)} {c c' : Cursor} {state : σ} {fault : Fault}
      (hnext : c.next = (.error fault, c')) : Meets p keys c state fault
  | token {keys : List (Option String)} {c c' : Cursor} {state : σ} {fault : Fault} {t : Token}
      (hnext : c.next = (.ok (some t), c')) (hbreaks : Breaks p t keys c' state fault) :
      Meets p keys c state fault
  | onward {keys : List (Option String)} {c c' : Cursor} {state : σ} {fault : Fault} {t : Token}
      (hnext : c.next = (.ok (some t), c'))
      (hvisit : (visit p t keys c' state).outcome = .ok none)
      (hlater : Meets p (visit p t keys c' state).keys (visit p t keys c' state).cursor
        (visit p t keys c' state).state fault) : Meets p keys c state fault

variable {p : Policy σ α} {keys : List (Option String)} {c : Cursor} {state : σ} {fault : Fault}

theorem process_error_iff : (process p keys c state).outcome = .error fault ↔
    (∃ state', ((p.build state).run (Reader.view ⟨c, []⟩)).result = (.error fault, state')) ∨
      (∃ handle state',
        ((p.build state).run (Reader.view ⟨c, []⟩)).result = (.ok handle, state')) ∧
        ((p.build state).run (Reader.view ⟨c, []⟩)).reader.drain.1 = .error fault := by
  unfold process
  dsimp only
  rcases ((p.build state).run (Reader.view ⟨c, []⟩)).result with ⟨answer, state'⟩
  rcases ((p.build state).run (Reader.view ⟨c, []⟩)).reader.drain with ⟨drained, r⟩
  cases answer with
  | error fault' => simp
  | ok handle => cases drained <;> simp

theorem visit_error_iff {t : Token} :
    (visit p t keys c state).outcome = .error fault ↔ Breaks p t keys c state fault := by
  constructor
  · intro h
    cases t with
    | key name => cases h
    | scalar value => cases h
    | closing shape =>
      rcases hleave : p.leave shape (keyOf keys) state with ⟨answer, state'⟩
      cases answer with
      | error fault' =>
        obtain rfl : fault' = fault := by simpa [visit, hleave] using h
        exact .leaving hleave
      | ok => cases shape <;> simp [visit, hleave] at h
    | opening shape =>
      rcases henter : p.enter shape (keyOf keys) state with ⟨fault' | decision, state'⟩
      · obtain rfl : fault' = fault := by simpa [visit, henter] using h
        exact .entering henter
      · cases decision with
        | descend => cases shape <;> simp [visit, henter, follow] at h
        | unknown answer =>
          obtain rfl : .unknownDecision answer = fault := by simpa [visit, henter, follow] using h
          exact .deciding henter
        | skip =>
          rcases hskip : c.skipChildren with ⟨fault' | _, c'⟩
          · obtain rfl : fault' = fault := by simpa [visit, henter, follow, hskip] using h
            exact .skipping henter (by rw [hskip])
          · simp [visit, henter, follow, hskip] at h
        | process =>
          have hprocess : (process p keys c state').outcome = .error fault := by
            simpa [visit, henter, follow] using h
          obtain ⟨state'', hbuild⟩ | ⟨⟨a, state'', hbuild⟩, hdrain⟩ :=
            process_error_iff.mp hprocess
          · exact .building henter hbuild
          · exact .draining henter hbuild hdrain
  · intro h
    cases h with
    | entering henter => simp [visit, henter]
    | deciding henter => simp [visit, henter, follow]
    | skipping henter hskip =>
      simp only [visit, henter, follow]
      split <;> rename_i heq <;> rw [heq] at hskip
      · simpa using hskip
      · cases hskip
    | building henter hbuild =>
      simp only [visit, henter, follow]
      exact process_error_iff.mpr (.inl ⟨_, hbuild⟩)
    | draining henter hbuild hdrain =>
      simp only [visit, henter, follow]
      exact process_error_iff.mpr (.inr ⟨⟨_, _, hbuild⟩, hdrain⟩)
    | leaving hleave => simp [visit, hleave]

/-- The traversal fails exactly with the fault it meets. -/
theorem traverse_error_iff (log : List Entry) :
    (traverse p log keys c state).outcome = .error fault ↔ Meets p keys c state fault := by
  constructor
  · intro h
    fun_induction traverse p log keys c state with
    | case1 log keys c state fault' c' hnext =>
      obtain rfl : fault' = fault := by simpa using h
      exact .source hnext
    | case2 => cases h
    | case3 log keys c state t c' hnext turn hnone ih => exact .onward hnext hnone (ih h)
    | case4 log keys c state t c' hnext turn hne => exact .token hnext (visit_error_iff.mp h)
  · intro h
    induction h generalizing log with
    | source hnext => rw [traverse_fault log hnext]
    | token hnext hbreaks =>
      have hvisit := visit_error_iff.mpr hbreaks
      rw [traverse_token log hnext, hvisit]
      exact hvisit
    | onward hnext hvisit hlater ih =>
      rw [traverse_token log hnext, hvisit]
      exact ih _

end Turn

namespace Walk

/-! ## What a pull makes of it -/

variable {p : Policy σ α} {w : Walk} {s : Scene σ}

theorem nextHandle_failed_iff {surfaced : Fault} :
    (w.nextHandle p s).outcome = .failed surfaced ↔ w.finished = false ∧
      ∃ fault, Turn.Meets p w.keys s.cursor s.state fault ∧ fault.Surfaces .traverse surfaced := by
  cases hw : w.finished with
  | true => simp [nextHandle, hw]
  | false =>
    simp only [true_and, Fault.surfaces_iff, ← Turn.traverse_error_iff []]
    simp only [nextHandle, hw, Bool.false_eq_true, ↓reduceIte]
    cases hturn : (Turn.traverse p [] w.keys s.cursor s.state).outcome with
    | error fault => simp [eq_comm]
    | ok found => cases found <;> simp

/-- A pull fails exactly with the fault that its traversal meets, as reported, or with the fault of
a refused write request. -/
theorem pull_failed_iff {surfaced : Fault} :
    (w.pull p s).outcome = .failed surfaced ↔
      (w.finished = false ∧ ∃ fault, Turn.Meets p w.keys s.cursor s.state fault ∧
        fault.Surfaces .traverse surfaced) ∨ w.Refuses p s surfaced := by
  rw [← nextHandle_failed_iff]
  unfold Refuses pull
  dsimp only
  cases hfound : (w.nextHandle p s).outcome with
  | stopped => simp
  | failed fault => simp
  | item a =>
    cases hwrites : w.writes with
    | false => simp [emit]
    | true =>
      rcases hrequest : p.request (w.nextHandle p s).scene.count a (w.nextHandle p s).scene.state
        with ⟨answer, state⟩
      cases answer with
      | error fault => simp [hrequest]
      | ok request => simp [emit, hrequest]

theorem finished_pull
    (h : (w.pull p s).outcome = .stopped ∨
      ∃ fault, Turn.Meets p w.keys s.cursor s.state fault) :
    (w.pull p s).walk.finished = true := by
  cases hw : w.finished with
  | true => rw [pull_finished p s hw, hw]
  | false =>
    cases hturn : (Turn.traverse p [] w.keys s.cursor s.state).outcome with
    | error fault => simp [pull, nextHandle, hw, hturn]
    | ok found =>
      cases found with
      | none => simp [pull, nextHandle, hw, hturn]
      | some a =>
        rcases h with hstopped | ⟨fault, hmeets⟩
        · have hfound : (w.nextHandle p s).outcome = .item a := by simp [nextHandle, hw, hturn]
          unfold pull at hstopped
          simp only [hfound] at hstopped
          split at hstopped
          · split at hstopped <;> cases hstopped
          · cases hstopped
        · rw [(Turn.traverse_error_iff []).mpr hmeets] at hturn
          cases hturn

end Walk

theorem Reading.serialize_error {r : Reader} {fault : Fault}
    (hcopy : r.copy.1.outcome = .error fault) :
    ∃ surfaced, (serialize.run r).result = .error surfaced ∧
      fault.Surfaces .serialize surfaced := by
  refine ⟨fault.leaving .serialize, ?_, Fault.surfaces_iff.mpr rfl⟩
  cases horigin : fault.origin? <;>
    simp [serialize, run, Reader.answer, Reader.Copy.result, hcopy, Except.map, Fault.leaving,
      horigin]

namespace Session

/-! ## Any number of walks -/

def Meets (s : Session σ α) (n : Nat) (fault : Fault) : Prop :=
  ∃ course p scene, s.courses[n]? = some course ∧ s.scene? course = some (p, scene) ∧
    course.walk.finished = false ∧
    Turn.Meets p course.walk.keys scene.cursor scene.state fault

def Refuses (s : Session σ α) (n : Nat) (fault : Fault) : Prop :=
  ∃ course p scene, s.courses[n]? = some course ∧ s.scene? course = some (p, scene) ∧
    course.walk.Refuses p scene fault

variable {s s' : Session σ α} {n : Nat} {outcome : Outcome (Item α)}

theorem pull_failed_iff (hpull : s.pull n = some (outcome, s')) {surfaced : Fault} :
    outcome = .failed surfaced ↔
      (∃ fault, s.Meets n fault ∧ fault.Surfaces .traverse surfaced) ∨ s.Refuses n surfaced := by
  obtain ⟨course, p, scene, hcourse, hscene, rfl, -⟩ := exists_of_pull hpull
  rw [Walk.pull_failed_iff]
  constructor
  · rintro (⟨hw, fault, hmeets, hsurfaces⟩ | hrefuses)
    · exact .inl ⟨fault, ⟨course, p, scene, hcourse, hscene, hw, hmeets⟩, hsurfaces⟩
    · exact .inr ⟨course, p, scene, hcourse, hscene, hrefuses⟩
  · rintro (⟨fault, ⟨course', p', scene', hcourse', hscene', hw, hmeets⟩, hsurfaces⟩ |
      ⟨course', p', scene', hcourse', hscene', hrefuses⟩)
    · obtain rfl := Option.some.inj (hcourse.symm.trans hcourse')
      obtain ⟨rfl, rfl⟩ := Prod.mk.inj (Option.some.inj (hscene.symm.trans hscene'))
      exact .inl ⟨hw, fault, hmeets, hsurfaces⟩
    · obtain rfl := Option.some.inj (hcourse.symm.trans hcourse')
      obtain ⟨rfl, rfl⟩ := Prod.mk.inj (Option.some.inj (hscene.symm.trans hscene'))
      exact .inr hrefuses

theorem hasEnded_of_pull (hpull : s.pull n = some (outcome, s'))
    (h : outcome = .stopped ∨ ∃ fault, s.Meets n fault) : s'.HasEnded n := by
  obtain ⟨course, p, scene, hcourse, hscene, rfl, rfl⟩ := exists_of_pull hpull
  apply hasEnded_putCourse hcourse hscene
  apply Walk.finished_pull
  apply h.imp_right
  rintro ⟨fault, course', p', scene', hcourse', hscene', -, hmeets⟩
  obtain rfl := Option.some.inj (hcourse.symm.trans hcourse')
  obtain ⟨rfl, rfl⟩ := Prod.mk.inj (Option.some.inj (hscene.symm.trans hscene'))
  exact ⟨fault, hmeets⟩

end Session

namespace RuleTable

def deniedEnd : RuleTable :=
  { base := .array,
    rules := [⟨.leaving, .array, .any, .fail (.raised "PermissionError" "denied")⟩] }

def oneElement : List Move :=
  [.supply (.ofTokens (Tree.array [.object []]).tokens), .start 0 false, .pull 0]

end RuleTable

end JsonCleave
