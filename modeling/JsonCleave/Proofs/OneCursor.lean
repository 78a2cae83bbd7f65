import JsonCleave.Proofs.Crew
import JsonCleave.Proofs.Finality
import JsonCleave.Proofs.Stance
import JsonCleave.Proofs.Unclosed
/-!
# Walks that share one cursor

Several walks of one splitter over the same cursor. The array policy does not use the keys, so a
pull depends only on the cursor and the number of open arrays, which the walks share. Together they
hand out what a single walk would hand out.
-/

namespace JsonCleave

/-! ## Cursors without late tokens -/

namespace Cursor

/-- An open cursor whose source delivers no token after an ending, and only tokens within the digit
limit. -/
def IsTidy (c : Cursor) : Prop :=
  ∃ ts later current, later.IsSilent ∧ (∀ t ∈ ts, t.IsPrintable later.limit) ∧
    c = before ts later current

/-- A tidy cursor without tokens. -/
def IsDry (c : Cursor) : Prop := ∃ later current, later.IsSilent ∧ c = before [] later current

variable {c c' : Cursor}

theorem IsDry.isTidy (h : c.IsDry) : c.IsTidy := by
  obtain ⟨later, current, hlater, rfl⟩ := h
  exact ⟨[], later, current, hlater, by simp, rfl⟩

theorem IsDry.isOver (h : c.IsDry) : c.IsOver := by
  obtain ⟨later, current, hlater, rfl⟩ := h
  exact isOver_before hlater current

theorem IsTidy.next_token (h : c.IsTidy) {t : Token} (hnext : c.next = (.ok (some t), c')) :
    ∃ ts later, later.IsSilent ∧ (∀ u ∈ ts, u.IsPrintable later.limit) ∧
      c' = before ts later (some t) := by
  obtain ⟨ts, later, current, hlater, hprint, rfl⟩ := h
  cases ts with
  | nil => exact absurd hnext (IsDry.isOver ⟨later, current, hlater, rfl⟩ t c')
  | cons t' ts =>
    rw [next_before_cons] at hnext
    cases hnext
    exact ⟨ts, later, hlater, (List.forall_mem_cons.mp hprint).2, rfl⟩

theorem IsTidy.next_ending (h : c.IsTidy) {b : Except Fault (Option Token)}
    (hnext : c.next = (b, c')) (hb : ∀ t, b ≠ .ok (some t)) : c'.IsDry := by
  obtain ⟨ts, later, current, hlater, -, rfl⟩ := h
  cases ts with
  | nil =>
    obtain ⟨rest, current', hrest, ⟨fault, hend⟩ | ⟨-, -, hend⟩⟩ :=
      next_before_silent hlater current
    · rw [hend] at hnext
      cases hnext
      exact ⟨rest, current', hlater.of_rest hrest, rfl⟩
    · rw [hend] at hnext
      cases hnext
      exact ⟨rest, current', hlater.of_rest hrest, rfl⟩
  | cons t ts =>
    rw [next_before_cons] at hnext
    cases hnext
    exact absurd rfl (hb t)

end Cursor

theorem Reading.reader_serialize (r : Reader) : (serialize.run r).reader = r.copy.2 := by
  simp only [serialize, run, Reader.answer]
  split
  · rfl
  · split <;> rfl

namespace Policy

open Turn (process visit traverse)

/-! ## What the array policy finds -/

theorem visit_array_inside (shape : Shape) (keys : List (Option String)) (c : Cursor)
    {openArrays : Nat} (h : 0 < openArrays) :
    visit array (.opening shape) keys c openArrays = process array keys c openArrays := by
  cases shape with
  | object => simp [visit, array, enterObject, h, Turn.follow]
  | array => simp [visit, array, enterArrayCounting, h, Turn.follow]

theorem process_keys {σ α : Type} (p : Policy σ α) (keys keys' : List (Option String))
    (c : Cursor) (state : σ) :
    process p keys' c state = { process p keys c state with keys := keys' } := by
  unfold Turn.process
  dsimp only
  split
  · rfl
  · split <;> rfl

theorem visit_array_keys (t : Token) (keys keys' : List (Option String)) (c : Cursor)
    (openArrays : Nat) :
    (visit array t keys' c openArrays).outcome = (visit array t keys c openArrays).outcome ∧
      (visit array t keys' c openArrays).cursor = (visit array t keys c openArrays).cursor ∧
      (visit array t keys' c openArrays).state = (visit array t keys c openArrays).state := by
  cases t with
  | key name => exact ⟨rfl, rfl, rfl⟩
  | scalar value => exact ⟨rfl, rfl, rfl⟩
  | closing shape => cases shape <;> exact ⟨rfl, rfl, rfl⟩
  | opening shape =>
    rcases Nat.eq_zero_or_pos openArrays with rfl | hpos
    · cases shape <;> exact ⟨rfl, rfl, rfl⟩
    · rw [visit_array_inside shape keys c hpos, visit_array_inside shape keys' c hpos,
        process_keys array keys keys']
      exact ⟨rfl, rfl, rfl⟩

theorem traverse_array_keys (log log' : List Entry) (keys keys' : List (Option String))
    (c : Cursor) (openArrays : Nat) :
    (traverse array log' keys' c openArrays).outcome =
        (traverse array log keys c openArrays).outcome ∧
      (traverse array log' keys' c openArrays).cursor =
        (traverse array log keys c openArrays).cursor ∧
      (traverse array log' keys' c openArrays).state =
        (traverse array log keys c openArrays).state := by
  fun_induction traverse array log keys c openArrays generalizing log' keys' with
  | case1 log keys c openArrays fault c' hnext =>
    rw [Turn.traverse_fault log' hnext]
    exact ⟨rfl, rfl, rfl⟩
  | case2 log keys c openArrays c' hnext =>
    rw [Turn.traverse_end log' hnext]
    exact ⟨rfl, rfl, rfl⟩
  | case3 log keys c openArrays t c' hnext turn hnone ih =>
    obtain ⟨houtcome, hcursor, hstate⟩ := visit_array_keys t keys keys' c' openArrays
    rw [Turn.traverse_token log' hnext, houtcome.trans hnone, hcursor, hstate]
    exact ih _ _
  | case4 log keys c openArrays t c' hnext turn hne =>
    obtain ⟨houtcome, hcursor, hstate⟩ := visit_array_keys t keys keys' c' openArrays
    rw [Turn.traverse_token log' hnext]
    split
    · rename_i hnone
      exact absurd (houtcome.symm.trans hnone) hne
    · exact ⟨houtcome, hcursor, hstate⟩

theorem process_array_tidy {later : Feed} (hlater : later.IsSilent) {ts : List Token}
    (hprint : ∀ t ∈ ts, t.IsPrintable later.limit) (shape : Shape) (keys : List (Option String))
    (openArrays : Nat) :
    let turn := process array keys (.before ts later (some (.opening shape))) openArrays
    turn.cursor.IsTidy ∧ ((∃ a, turn.outcome = .ok (some a)) ∨ turn.cursor.IsDry) := by
  rcases exists_closes_or_staysOpen Nat.one_pos ts with ⟨us, vs, rfl, hus⟩ | hopen
  · obtain ⟨husPrint, hvsPrint⟩ := List.forall_mem_append.mp hprint
    obtain ⟨log, hprocess⟩ := process_array_closes hus vs husPrint shape keys openArrays
    rw [hprocess]
    exact ⟨⟨vs, later, _, hlater, hvsPrint, rfl⟩, .inl ⟨_, rfl⟩⟩
  · obtain ⟨fault, text, rest, current, depth, hrest, hcopy⟩ :=
      Reader.copyOpen_runs_out hlater (Writer.start shape) hopen hprint (Nat.le_refl 1)
        (some (.opening shape))
    rw [← Reader.copy_opening rfl] at hcopy
    obtain ⟨surfaced, hserialize, -⟩ := Reading.serialize_error (congrArg (·.1.outcome) hcopy)
    have hreader := (Reading.reader_serialize _).trans (congrArg Prod.snd hcopy)
    have hcursor : (process array keys (.before ts later (some (.opening shape)))
        openArrays).cursor = .before [] rest current := by
      simp only [process, array, Program.run_ofReading, Reading.run_map, Reader.view, hserialize,
        hreader, Except.map]
    intro turn
    have hdry : turn.cursor.IsDry := ⟨rest, current, hlater.of_rest hrest, hcursor⟩
    exact ⟨hdry.isTidy, .inr hdry⟩

theorem visit_array_tidy (t : Token) (keys : List (Option String)) {later : Feed}
    (hlater : later.IsSilent) {ts : List Token} (hprint : ∀ t ∈ ts, t.IsPrintable later.limit)
    (openArrays : Nat) :
    let turn := visit array t keys (.before ts later (some t)) openArrays
    turn.cursor.IsTidy ∧ ((∃ handle, turn.outcome = .ok handle) ∨ turn.cursor.IsDry) := by
  have htidy : (Cursor.before ts later (some t)).IsTidy := ⟨ts, later, some t, hlater, hprint, rfl⟩
  cases t with
  | key name => exact ⟨htidy, .inl ⟨none, rfl⟩⟩
  | scalar value => exact ⟨htidy, .inl ⟨none, rfl⟩⟩
  | closing shape => cases shape <;> exact ⟨htidy, .inl ⟨none, rfl⟩⟩
  | opening shape =>
    rcases Nat.eq_zero_or_pos openArrays with rfl | hpos
    · cases shape <;> exact ⟨htidy, .inl ⟨none, rfl⟩⟩
    · rw [visit_array_inside shape keys _ hpos]
      obtain ⟨hcursor, ⟨a, ha⟩ | hdry⟩ := process_array_tidy hlater hprint shape keys openArrays
      · exact ⟨hcursor, .inl ⟨some a, ha⟩⟩
      · exact ⟨hcursor, .inr hdry⟩

theorem traverse_array_tidy (log : List Entry) (keys : List (Option String)) {c : Cursor}
    (hc : c.IsTidy) (openArrays : Nat) :
    let turn := traverse array log keys c openArrays
    turn.cursor.IsTidy ∧ ((∃ a, turn.outcome = .ok (some a)) ∨ turn.cursor.IsDry) := by
  fun_induction traverse array log keys c openArrays with
  | case1 log keys c openArrays fault c' hnext =>
    have hdry := hc.next_ending hnext (by simp)
    exact ⟨hdry.isTidy, .inr hdry⟩
  | case2 log keys c openArrays c' hnext =>
    have hdry := hc.next_ending hnext (by simp)
    exact ⟨hdry.isTidy, .inr hdry⟩
  | case3 log keys c openArrays t c' hnext turn hnone ih =>
    obtain ⟨ts, later, hlater, hprint, rfl⟩ := hc.next_token hnext
    exact ih (visit_array_tidy t keys hlater hprint openArrays).1
  | case4 log keys c openArrays t c' hnext turn hne =>
    obtain ⟨ts, later, hlater, hprint, rfl⟩ := hc.next_token hnext
    obtain ⟨hcursor, ⟨handle, hhandle⟩ | hdry⟩ := visit_array_tidy t keys hlater hprint openArrays
    · cases handle with
      | none => exact absurd hhandle hne
      | some a => exact ⟨hcursor, .inl ⟨a, hhandle⟩⟩
    · exact ⟨hcursor, .inr hdry⟩

/-! ## What is left to be handed out -/

section

variable {w : Walk} {c : Cursor} {openArrays : Nat}

theorem pull_array_found (hw : w.finished = false) {a : Payload}
    (hturn : (traverse array [] w.keys c openArrays).outcome = .ok (some a)) (count : Nat) :
    ∃ log, w.pull array ⟨c, openArrays, count⟩ =
      let turn := traverse array [] w.keys c openArrays
      ⟨.item (.wrap w.writes count a), { w with keys := turn.keys },
        ⟨turn.cursor, turn.state, count + 1⟩, log⟩ := by
  rw [pull_array_eq hw]
  dsimp only
  rw [hturn]
  exact ⟨_, rfl⟩

theorem pull_array_nothing (hw : w.finished = false)
    (hturn : ∀ a, (traverse array [] w.keys c openArrays).outcome ≠ .ok (some a)) (count : Nat) :
    let turn := traverse array [] w.keys c openArrays
    let pulled := w.pull array ⟨c, openArrays, count⟩
    pulled.outcome.item? = none ∧ pulled.scene = ⟨turn.cursor, turn.state, count⟩ ∧
      (w.pullAll array ⟨c, openArrays, count⟩).contents = [] := by
  have hpull := pull_array_eq hw ⟨c, openArrays, count⟩
  dsimp only at hpull ⊢
  rcases hfound : (traverse array [] w.keys c openArrays).outcome with fault | _ | a
  · rw [hfound] at hpull
    refine ⟨?_, ?_, (Walk.reads_failed (congrArg Pull.outcome hpull)).1⟩
    · rw [hpull]
      rfl
    · rw [hpull]
  · rw [hfound] at hpull
    refine ⟨?_, ?_, (Walk.reads_stopped (congrArg Pull.outcome hpull)).1⟩
    · rw [hpull]
      rfl
    · rw [hpull]
  · exact absurd hfound (hturn a)

theorem contents_pullAll_found (hw : w.finished = false) {a : Payload}
    (hturn : (traverse array [] w.keys c openArrays).outcome = .ok (some a)) (count : Nat) :
    let turn := traverse array [] w.keys c openArrays
    (w.pullAll array ⟨c, openArrays, count⟩).contents =
      a :: (Walk.pullAll array { w with keys := turn.keys }
        ⟨turn.cursor, turn.state, count + 1⟩).contents := by
  obtain ⟨log, hpull⟩ := pull_array_found hw hturn count
  rw [(Walk.reads_item (congrArg Pull.outcome hpull)).1, hpull, Item.content_wrap]

theorem contents_pullAll_congr {w' : Walk} (hw : w.finished = false) (hw' : w'.finished = false)
    (c : Cursor) (openArrays count count' : Nat) :
    (w'.pullAll array ⟨c, openArrays, count'⟩).contents =
      (w.pullAll array ⟨c, openArrays, count⟩).contents := by
  induction hn : c.pending.length using Nat.strongRecOn generalizing w w' c openArrays count count'
    with
  | ind n ih =>
    obtain ⟨houtcome, hcursor, hstate⟩ := traverse_array_keys [] [] w.keys w'.keys c openArrays
    by_cases hfound : ∃ a, (traverse array [] w.keys c openArrays).outcome = .ok (some a)
    · obtain ⟨a, ha⟩ := hfound
      have hlt := Turn.length_pending_traverse_lt ha
      rw [hn] at hlt
      rw [contents_pullAll_found hw ha, contents_pullAll_found hw' (houtcome.trans ha), hcursor,
        hstate]
      exact congrArg _ (ih _ hlt (by exact hw) (by exact hw') _ _ (count + 1) (count' + 1) rfl)
    · have hnone : ∀ a, (traverse array [] w.keys c openArrays).outcome ≠ .ok (some a) :=
        fun a ha => hfound ⟨a, ha⟩
      have hnone' : ∀ a, (traverse array [] w'.keys c openArrays).outcome ≠ .ok (some a) := by
        rwa [houtcome]
      rw [(pull_array_nothing hw hnone count).2.2, (pull_array_nothing hw' hnone' count').2.2]

/-- The payloads of a fresh walk from here on. -/
def payloadsFrom (c : Cursor) (openArrays : Nat) : List Payload :=
  (Walk.pullAll array {} ⟨c, openArrays, 0⟩).contents

theorem payloadsFrom_eq (hw : w.finished = false) (c : Cursor) (openArrays count : Nat) :
    payloadsFrom c openArrays = (w.pullAll array ⟨c, openArrays, count⟩).contents :=
  contents_pullAll_congr hw rfl c openArrays count 0

theorem payloadsFrom_dry (hc : c.IsDry) (openArrays : Nat) : payloadsFrom c openArrays = [] :=
  (pull_array_nothing (w := {}) rfl
    (Turn.traverse_over array [] [] hc.isOver openArrays) 0).2.2

/-- A pull of any walk hands out the first of these payloads; if it hands out none, there are none
and the cursor is dry. -/
theorem pull_array_tidy (hw : w.finished = false) (hc : c.IsTidy) (openArrays count : Nat) :
    let pulled := w.pull array ⟨c, openArrays, count⟩
    pulled.scene.cursor.IsTidy ∧
      ((∃ i, pulled.outcome = .item i ∧ pulled.walk.finished = false ∧
          payloadsFrom c openArrays =
            i.content :: payloadsFrom pulled.scene.cursor pulled.scene.state) ∨
        pulled.outcome.item? = none ∧ payloadsFrom c openArrays = [] ∧
          pulled.scene.cursor.IsDry) := by
  obtain ⟨htidy, hdry⟩ := traverse_array_tidy [] w.keys hc openArrays
  by_cases hfound : ∃ a, (traverse array [] w.keys c openArrays).outcome = .ok (some a)
  · obtain ⟨a, ha⟩ := hfound
    obtain ⟨log, hpull⟩ := pull_array_found hw ha count
    have hfirst : payloadsFrom c openArrays = a :: payloadsFrom
        (traverse array [] w.keys c openArrays).cursor
        (traverse array [] w.keys c openArrays).state := by
      rw [payloadsFrom_eq hw c openArrays count, contents_pullAll_found hw ha]
      exact congrArg _ (payloadsFrom_eq
        (w := { w with keys := (traverse array [] w.keys c openArrays).keys }) hw _ _ _).symm
    rw [hpull]
    exact ⟨htidy, .inl ⟨_, rfl, hw, by rw [hfirst, Item.content_wrap]⟩⟩
  · obtain ⟨hitem, hscene, hcontents⟩ :=
      pull_array_nothing hw (fun a ha => hfound ⟨a, ha⟩) count
    intro pulled
    have hcursor : pulled.scene.cursor = (traverse array [] w.keys c openArrays).cursor :=
      congrArg Scene.cursor hscene
    rw [hcursor]
    exact ⟨htidy, .inr ⟨hitem, (payloadsFrom_eq hw c openArrays count).trans hcontents,
      hdry.resolve_left hfound⟩⟩

end

end Policy

def Move.IsOn (cursor : Nat) : Move → Prop
  | .start source _ => source = cursor
  | _ => True

def handedOut {α : Type} (outcomes : List (Outcome (Item α))) : List α :=
  (outcomes.filterMap Outcome.item?).map Item.content

namespace Session

open Policy (array payloadsFrom)

def reading (c : Cursor) (openArrays : Nat) : Session Nat Payload :=
  { ofPolicy array openArrays with cursors := [c] }

/-- All walks read cursor 0 for splitter 0 with the array policy, and none has finished unless the
cursor is dry. -/
structure Shares (s : Session Nat Payload) (c : Cursor) (openArrays count : Nat) : Prop where
  cursor : s.cursors[0]? = some c
  tidy : c.IsTidy
  actors : s.actors = [⟨array, openArrays⟩]
  splitters : s.splitters = [{ policy := 0, count }]
  courses : ∀ course ∈ s.courses, course.cursor = 0 ∧ course.policy = 0 ∧ course.splitter = 0 ∧
    (course.walk.finished = true → c.IsDry)

variable {s : Session Nat Payload} {c : Cursor} {openArrays count n : Nat}

theorem shares_reading (hc : c.IsTidy) (openArrays : Nat) :
    (reading c openArrays).Shares c openArrays 0 :=
  ⟨rfl, hc, rfl, rfl, by simp [reading, ofPolicy]⟩

namespace Shares

theorem scene? (h : s.Shares c openArrays count) {course : Course}
    (hcourse : s.courses[n]? = some course) :
    s.scene? course = some (array, ⟨c, openArrays, count⟩) := by
  obtain ⟨hcursor, hpolicy, hsplitter, -⟩ := h.courses course (List.mem_of_getElem? hcourse)
  simp [Session.scene?, hcursor, hpolicy, hsplitter, h.cursor, h.actors, h.splitters]

theorem putCourse (h : s.Shares c openArrays count) {course : Course}
    (hcourse : s.courses[n]? = some course) (walk : Walk) {scene : Scene Nat}
    (hscene : scene.cursor.IsTidy)
    (hwalk : walk.finished = true → scene.cursor.IsDry) (hdry : c.IsDry → scene.cursor.IsDry) :
    (s.putCourse n course walk scene).Shares scene.cursor scene.state scene.count := by
  obtain ⟨hcursor, hpolicy, hsplitter, -⟩ := h.courses course (List.mem_of_getElem? hcourse)
  have hlt := (List.getElem?_eq_some_iff.mp h.cursor).1
  refine ⟨?_, hscene, ?_, ?_, ?_⟩
  · simp [Session.putCourse, setState, hcursor, hlt]
  · simp [Session.putCourse, setState, hpolicy, h.actors]
  · simp [Session.putCourse, setState, hsplitter, h.splitters]
  · intro other hother
    rcases List.mem_or_eq_of_mem_set hother with hold | rfl
    · obtain ⟨hc, hp, hs, hfinished⟩ := h.courses other hold
      exact ⟨hc, hp, hs, fun hw => hdry (hfinished hw)⟩
    · exact ⟨hcursor, hpolicy, hsplitter, hwalk⟩

theorem pull (h : s.Shares c openArrays count) {outcome : Outcome (Item Payload)}
    {s' : Session Nat Payload} (hpull : s.pull n = some (outcome, s')) :
    ∃ c' openArrays' count', s'.Shares c' openArrays' count' ∧
      payloadsFrom c openArrays = handedOut [outcome] ++ payloadsFrom c' openArrays' ∧
      (outcome.item? = none → payloadsFrom c openArrays = []) := by
  obtain ⟨course, p, scene, hcourse, hscene, rfl, rfl⟩ := exists_of_pull hpull
  obtain ⟨rfl, rfl⟩ := Prod.mk.inj (Option.some.inj ((h.scene? hcourse).symm.trans hscene))
  obtain ⟨-, -, -, hended⟩ := h.courses course (List.mem_of_getElem? hcourse)
  cases hw : course.walk.finished with
  | true =>
    have hdry := hended hw
    rw [Walk.pull_finished array _ hw]
    refine ⟨_, _, _, h.putCourse hcourse course.walk h.tidy (fun _ => hdry) id, ?_, fun _ => ?_⟩
    · rfl
    · exact Policy.payloadsFrom_dry hdry openArrays
  | false =>
    obtain ⟨htidy, ⟨i, hitem, hlive, hfirst⟩ | ⟨hnone, hnothing, hdry⟩⟩ :=
      Policy.pull_array_tidy hw h.tidy openArrays count
    · refine ⟨_, _, _, h.putCourse hcourse _ htidy (fun hfinished => ?_) (fun hdry => ?_), ?_, ?_⟩
      · rw [hlive] at hfinished
        cases hfinished
      · rw [Policy.payloadsFrom_dry hdry] at hfirst
        cases hfirst
      · rw [hfirst, hitem]
        rfl
      · rw [hitem]
        intro hnone
        cases hnone
    · refine ⟨_, _, _, h.putCourse hcourse _ htidy (fun _ => hdry) (fun _ => hdry), ?_,
        fun _ => hnothing⟩
      rw [hnothing, Policy.payloadsFrom_dry hdry]
      simp [handedOut, hnone]

theorem move (h : s.Shares c openArrays count) {m : Move} (hm : m.IsOn 0) :
    ∃ c' openArrays' count', (s.move m).2.Shares c' openArrays' count' ∧
      payloadsFrom c openArrays =
        handedOut (s.move m).1.toList ++ payloadsFrom c' openArrays' ∧
      ∀ outcome, (s.move m).1 = some outcome → outcome.item? = none →
        payloadsFrom c openArrays = [] := by
  cases m with
  | supply source =>
    have hlt := (List.getElem?_eq_some_iff.mp h.cursor).1
    refine ⟨c, openArrays, count, ⟨?_, h.tidy, h.actors, h.splitters, h.courses⟩, rfl, ?_⟩
    · rw [move_supply, List.getElem?_append_left hlt, h.cursor]
    · rw [move_supply]
      simp
  | start source writes =>
    obtain rfl : source = 0 := hm
    rw [move_start (by rw [h.splitters]; rfl)]
    refine ⟨c, openArrays, count, ⟨h.cursor, h.tidy, h.actors, h.splitters, ?_⟩, rfl, by simp⟩
    intro course hcourse
    rcases List.mem_append.mp hcourse with hold | hlast
    · exact h.courses course hold
    · rw [List.mem_singleton.mp hlast]
      exact ⟨rfl, rfl, rfl, by simp⟩
  | pull n =>
    cases hpull : s.pull n with
    | none =>
      rw [move_pull_none hpull]
      exact ⟨c, openArrays, count, h, rfl, by simp⟩
    | some x =>
      obtain ⟨outcome, s'⟩ := x
      obtain ⟨c', openArrays', count', h', hfirst, hnothing⟩ := h.pull hpull
      rw [move_pull_some hpull]
      refine ⟨c', openArrays', count', h', hfirst, ?_⟩
      intro outcome' houtcome
      obtain rfl := Option.some.inj houtcome
      exact hnothing

theorem outcomes (h : s.Shares c openArrays count) {moves : List Move}
    (hmoves : ∀ m ∈ moves, m.IsOn 0) :
    handedOut (s.outcomes moves) <+: payloadsFrom c openArrays ∧
      ∀ earlier outcome after, s.outcomes moves = earlier ++ outcome :: after →
        outcome.item? = none → handedOut earlier = payloadsFrom c openArrays := by
  induction moves generalizing s c openArrays count with
  | nil => exact ⟨List.nil_prefix, by simp [Session.outcomes]⟩
  | cons m moves ih =>
    obtain ⟨c', openArrays', count', h', hfirst, hnothing⟩ := h.move (hmoves m List.mem_cons_self)
    obtain ⟨hfront, hends⟩ := ih h' fun m' hm' => hmoves m' (List.mem_cons_of_mem _ hm')
    rw [Session.outcomes, hfirst]
    cases hmove : (s.move m).1 with
    | none => exact ⟨hfront, hends⟩
    | some outcome =>
      rw [hmove] at hfirst hnothing
      have hcons (rest : List (Outcome (Item Payload))) :
          handedOut (outcome :: rest) = handedOut [outcome] ++ handedOut rest := by
        simp [handedOut, List.filterMap_cons]
        cases outcome.item? <;> simp
      refine ⟨?_, fun earlier ended after hsplit hended => ?_⟩
      · rw [Option.toList_some, List.singleton_append, hcons]
        exact List.prefix_append_right_inj _ |>.mpr hfront
      · cases earlier with
        | nil =>
          obtain ⟨rfl, -⟩ := List.cons.inj hsplit
          rw [← hfirst, hnothing outcome rfl hended]
          rfl
        | cons first earlier =>
          obtain ⟨rfl, hrest⟩ := List.cons.inj hsplit
          rw [hcons, hends earlier ended after hrest hended]
          rfl

end Shares

def cutOff : List Token :=
  [.opening .array, .opening .object, .closing .object, .opening .array, .closing .array,
    .opening .object]

def malformedEnd : Feed := ⟨[], .broken (.malformed none), .standard⟩

def threeWalks : List Move :=
  [.start 0 false, .pull 0, .start 0 true, .pull 1, .pull 0, .start 0 true, .pull 2, .pull 1]

theorem outcomes_threeWalks :
    (reading (.before cutOff malformedEnd none) 0).outcomes threeWalks =
      [.item (.handle ⟨"{}", .json⟩), .item (.request (.document 1 ⟨"[]", .json⟩))] ++
        .failed (.interrupted .serialize (.malformed none)) ::
          [.failed (.interrupted .traverse (.malformed none)),
            .failed (.interrupted .traverse (.malformed none))] := by
  cbv

end Session

end JsonCleave
