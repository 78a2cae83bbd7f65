import JsonCleave.Session
import JsonCleave.Proofs.Harvest
/-!
# Views stay inside their container

Invariant of a view under arbitrary calls on it and on further views, failing calls included: its
depth counts the brackets read, and no token behind its container is read. The traversal therefore
resumes behind the closing bracket, however much of the container was read through the view.
-/

namespace JsonCleave

/-! ## Counting brackets -/

theorem Token.shift_add_countP (t : Token) {depth : Nat} (hdepth : 0 < depth) :
    t.shift depth + [t].countP isClosing = depth + [t].countP isOpening := by
  cases t with
  | opening shape => rfl
  | closing shape => exact Nat.sub_add_cancel hdepth
  | key name => rfl
  | scalar value => rfl

theorem Closes.add_countP {depth : Nat} {ts : List Token} (h : Closes depth ts) :
    depth + ts.countP Token.isOpening = ts.countP Token.isClosing := by
  induction ts generalizing depth with
  | nil =>
    cases depth with
    | zero => rfl
    | succ depth => exact h.elim
  | cons t ts ih =>
    have hpos := h.depth_pos
    have hrest := ih ((closes_cons hpos).mp h)
    have hshift := t.shift_add_countP hpos
    rw [← List.singleton_append, List.countP_append, List.countP_append]
    omega

theorem Closes.depth_eq {m n : Nat} {us vs : List Token} (h : Closes m (us ++ vs))
    (hvs : Closes n vs) :
    n + us.countP Token.isClosing = m + us.countP Token.isOpening := by
  have hall := h.add_countP
  have hrest := hvs.add_countP
  rw [List.countP_append, List.countP_append] at hall
  omega

theorem Closes.depth_eq_zero_iff {depth : Nat} {ts : List Token} (h : Closes depth ts) :
    depth = 0 ↔ ts = [] := by
  constructor
  · rintro rfl
    exact closes_zero.mp h
  · rintro rfl
    cases depth with
    | zero => rfl
    | succ depth => exact h.elim

/-! ## Views that read through one view -/

variable {σ α : Type}

/-- A call on a view, or the opening of a further view, on any of the views opened so far. -/
inductive Deed where
  | call (view : Nat) (call : Call)
  | openOn (view : Nat)

namespace Session

def act (s : Session σ α) : Deed → Session σ α
  | .call n call => ((s.call (.view n) call).map Prod.snd).getD s
  | .openOn n => ((s.openView (.view n)).map Prod.snd).getD s

def afterDeeds (s : Session σ α) (deeds : List Deed) : Session σ α := deeds.foldl act s

def viewing (c : Cursor) : Session σ α :=
  { cursors := [c], views := [{ cursor := 0, inner := [] }] }

example (c : Cursor) :
    openView { cursors := [c] } (.cursor 0) = some (0, (viewing c : Session σ α)) := rfl

/-! ### Depths that are put back -/

theorem setDepths_cons (views : List View) (n depth : Nat) (numbers depths : List Nat) :
    setDepths views (n :: numbers) (depth :: depths) =
      setDepths (views.modify n fun v => { v with depth }) numbers depths := by
  rw [setDepths]
  congr 1
  apply List.ext_getElem?
  intro m
  rw [List.getElem?_modify]
  cases hn : views[n]? with
  | none =>
    by_cases hnm : n = m
    · subst hnm
      simp [hn]
    · simp [hnm]
  | some v =>
    have hlt := (List.getElem?_eq_some_iff.mp hn).1
    by_cases hnm : n = m
    · subst hnm
      simp [List.getElem?_set_self hlt, hn]
    · simp [hnm]

theorem setDepths_nil (views : List View) (depths : List Nat) :
    setDepths views [] depths = views := by
  simp [setDepths]

theorem setDepths_append (views : List View) {numbers depths : List Nat}
    (hlength : depths.length = numbers.length) (numbers' depths' : List Nat) :
    setDepths views (numbers ++ numbers') (depths ++ depths') =
      setDepths (setDepths views numbers depths) numbers' depths' := by
  induction numbers generalizing views depths with
  | nil =>
    obtain rfl := List.length_eq_zero_iff.mp hlength
    rw [setDepths_nil]
    rfl
  | cons n numbers ih =>
    cases depths with
    | nil => simp at hlength
    | cons depth depths =>
      rw [List.cons_append, List.cons_append, setDepths_cons, setDepths_cons,
        ih _ (by simpa using hlength)]

theorem getElem?_setDepths_of_not_mem (views : List View) {numbers : List Nat} {n : Nat}
    (hn : n ∉ numbers) (depths : List Nat) :
    (setDepths views numbers depths)[n]? = views[n]? := by
  induction numbers generalizing views depths with
  | nil => rw [setDepths_nil]
  | cons m numbers ih =>
    rw [List.mem_cons, not_or] at hn
    cases depths with
    | nil => rfl
    | cons depth depths =>
      rw [setDepths_cons, ih _ hn.2]
      simp [Ne.symm hn.1]

theorem map_frame_setDepths (views : List View) (numbers depths : List Nat) :
    (setDepths views numbers depths).map (fun v => (v.cursor, v.inner)) =
      views.map fun v => (v.cursor, v.inner) := by
  induction numbers generalizing views depths with
  | nil => rw [setDepths_nil]
  | cons n numbers ih =>
    cases depths with
    | nil => rfl
    | cons depth depths =>
      rw [setDepths_cons, ih]
      apply List.ext_getElem?
      intro m
      rw [List.getElem?_map, List.getElem?_modify, List.getElem?_map]
      cases views[m]? with
      | none => rfl
      | some v => by_cases hnm : n = m <;> simp [hnm]

theorem length_setDepths (views : List View) (numbers depths : List Nat) :
    (setDepths views numbers depths).length = views.length := by
  simpa using congrArg List.length (map_frame_setDepths views numbers depths)

/-! ### What every deed preserves -/

/-- Every view of the session reads through view 0, and view 0 reads the cursor itself. -/
structure ReadsThrough (s : Session σ α) (c : Cursor) (depth : Nat) : Prop where
  cursors : s.cursors = [c]
  first : s.views[0]? = some { cursor := 0, inner := [], depth }
  further : ∀ n v, 0 < n → s.views[n]? = some v → v.cursor = 0 ∧
    ∃ between, v.inner = between ++ [0] ∧ ∀ m ∈ between, 0 < m ∧ m < s.views.length

theorem readsThrough_viewing (c : Cursor) : (viewing c : Session σ α).ReadsThrough c 1 where
  cursors := rfl
  first := rfl
  further n v hn hv := by
    cases n with
    | zero => omega
    | succ n => simp [viewing] at hv

namespace ReadsThrough

variable {s : Session σ α} {c : Cursor} {depth : Nat}

theorem reader?_view_zero (h : s.ReadsThrough c depth) :
    s.reader? (.view 0) = some ⟨c, [depth]⟩ := by
  simp [reader?, chain?, depths, h.first, h.cursors]

theorem chain?_view (h : s.ReadsThrough c depth) {n : Nat} {v : View}
    (hv : s.views[n]? = some v) :
    ∃ between, s.chain? (.view n) = some (between ++ [0], 0) ∧
      ∀ m ∈ between, 0 < m ∧ m < s.views.length := by
  have hn := (List.getElem?_eq_some_iff.mp hv).1
  by_cases hzero : n = 0
  · subst hzero
    obtain rfl := Option.some.inj (h.first.symm.trans hv)
    exact ⟨[], by simp [chain?, hv], by simp⟩
  · obtain ⟨hcursor, between, hinner, hbetween⟩ := h.further n v (by omega) hv
    refine ⟨n :: between, by simp [chain?, hv, hcursor, hinner], ?_⟩
    rintro m (_ | ⟨_, hm⟩)
    · exact ⟨by omega, hn⟩
    · exact hbetween m hm

theorem exists_depths (h : s.ReadsThrough c depth) {between : List Nat}
    (hbetween : ∀ m ∈ between, 0 < m ∧ m < s.views.length) :
    ∃ further, further.length = between.length ∧
      s.depths (between ++ [0]) = further ++ [depth] := by
  induction between with
  | nil => exact ⟨[], rfl, by simp [depths, h.first]⟩
  | cons m between ih =>
    obtain ⟨further, hlength, hdepths⟩ := ih fun k hk => hbetween k (by simp [hk])
    have hm := List.getElem?_eq_getElem (hbetween m (by simp)).2
    refine ⟨(s.views.get ⟨m, (hbetween m (by simp)).2⟩).depth :: further, by simp [hlength], ?_⟩
    rw [List.cons_append, List.cons_append, ← hdepths]
    simp [depths, hm]

theorem openOn (h : s.ReadsThrough c depth) (n : Nat) :
    (s.act (.openOn n)).ReadsThrough c depth := by
  cases hv : s.views[n]? with
  | none => simpa [act, openView, chain?, hv] using h
  | some v =>
    obtain ⟨between, hchain, hbetween⟩ := h.chain?_view hv
    have hact : s.act (.openOn n) =
        { s with views := s.views ++ [{ cursor := 0, inner := between ++ [0] }] } := by
      simp [act, openView, hchain]
    rw [hact]
    refine ⟨h.cursors, ?_, fun m w hm hw => ?_⟩
    · rw [List.getElem?_append_left (List.getElem?_eq_some_iff.mp h.first).1]
      exact h.first
    · have hle : s.views.length ≤ (s.views ++ [View.mk 0 (between ++ [0]) 1]).length := by simp
      rcases Nat.lt_or_ge m s.views.length with hlt | hge
      · rw [List.getElem?_append_left hlt] at hw
        obtain ⟨hcursor, inner, hinner, hmem⟩ := h.further m w hm hw
        exact ⟨hcursor, inner, hinner, fun k hk =>
          ⟨(hmem k hk).1, Nat.lt_of_lt_of_le (hmem k hk).2 hle⟩⟩
      · rw [List.getElem?_append_right hge] at hw
        obtain rfl : w = { cursor := 0, inner := between ++ [0] } := by
          cases hsub : m - s.views.length <;> simp_all
        exact ⟨rfl, between, rfl, fun k hk =>
          ⟨(hbetween k hk).1, Nat.lt_of_lt_of_le (hbetween k hk).2 hle⟩⟩

theorem setDepths (h : s.ReadsThrough c depth) (c' : Cursor) {between : List Nat}
    (hbetween : ∀ m ∈ between, 0 < m ∧ m < s.views.length) {further : List Nat}
    (hlength : further.length = between.length) (depth' : Nat) :
    ReadsThrough { s with
      cursors := [c']
      views := Session.setDepths s.views (between ++ [0]) (further ++ [depth']) } c' depth' := by
  have hzero : 0 ∉ between := fun hmem => Nat.lt_irrefl 0 (hbetween 0 hmem).1
  have hviews : Session.setDepths s.views (between ++ [0]) (further ++ [depth']) =
      (Session.setDepths s.views between further).modify 0 fun v => { v with depth := depth' } := by
    rw [setDepths_append _ hlength, setDepths_cons, setDepths_nil]
  refine ⟨rfl, ?_, fun n v hn hv => ?_⟩
  · simp [hviews, getElem?_setDepths_of_not_mem s.views hzero, h.first]
  · dsimp only at hv ⊢
    have hframe := congrArg (·[n]?) (map_frame_setDepths s.views (between ++ [0])
      (further ++ [depth']))
    simp only [List.getElem?_map, hv, Option.map_some] at hframe
    obtain ⟨w, hw, hwv⟩ := Option.map_eq_some_iff.mp hframe.symm
    obtain ⟨hcursor, hinner⟩ := Prod.mk.inj hwv
    rw [length_setDepths, ← hcursor, ← hinner]
    exact h.further n w hn hw

theorem call {left : List Token} {later : Feed} {current : Option Token}
    (h : s.ReadsThrough (.before left later current) depth) (hleft : Closes depth left) (n : Nat)
    (call : Call) :
    ∃ us left' depth', left = us ++ left' ∧ Closes depth' left' ∧
      (s.act (.call n call)).ReadsThrough (.before left' later (lastToken current us)) depth' := by
  cases hv : s.views[n]? with
  | none => exact ⟨[], left, depth, rfl, hleft, by simpa [act, Session.call, reader?, chain?, hv]⟩
  | some v =>
    obtain ⟨between, hchain, hbetween⟩ := h.chain?_view hv
    obtain ⟨further, hlength, hdepths⟩ := h.exists_depths hbetween
    obtain ⟨b, e, ⟨hlimit, hfurther, us, hus, hcurrent⟩, hlocal⟩ :=
      Reader.answer_local call ⟨later.limit, left, current, further, depth, hleft⟩
    have hanswer : Reader.answer ⟨.before left later current, further ++ [depth]⟩ call =
        (b, e.reader later) := hlocal later
    have hreader : e.reader later =
        ⟨.before e.tokens later e.current, e.further ++ [e.depth]⟩ := by
      rw [Excerpt.reader, hlimit, Feed.on_limit]
    rw [hreader] at hanswer
    refine ⟨us, e.tokens, e.depth, hus, e.closes, ?_⟩
    have hact := h.setDepths (.before e.tokens later e.current) hbetween
      (hfurther.trans hlength) e.depth
    rw [hcurrent] at hact
    simpa [act, Session.call, reader?, hchain, hdepths, h.cursors, hanswer, putBack,
      hcurrent] using hact

/-- One deed preserves the invariant of a view: the tokens read are a prefix of its container, and
its depth counts their brackets. -/
theorem act {left : List Token} {later : Feed} {current : Option Token}
    (h : s.ReadsThrough (.before left later current) depth) (hleft : Closes depth left)
    (deed : Deed) :
    ∃ us left' depth', left = us ++ left' ∧ Closes depth' left' ∧
      (s.act deed).ReadsThrough (.before left' later (lastToken current us)) depth' := by
  cases deed with
  | call n call => exact h.call hleft n call
  | openOn n => exact ⟨[], left, depth, rfl, hleft, h.openOn n⟩

/-- A sequence of deeds preserves the invariant. -/
theorem afterDeeds {left : List Token} {later : Feed} {current : Option Token}
    (h : s.ReadsThrough (.before left later current) depth) (hleft : Closes depth left)
    (deeds : List Deed) :
    ∃ us left' depth', left = us ++ left' ∧ Closes depth' left' ∧
      (s.afterDeeds deeds).ReadsThrough (.before left' later (lastToken current us)) depth' := by
  induction deeds generalizing s left current depth with
  | nil => exact ⟨[], left, depth, rfl, hleft, h⟩
  | cons deed deeds ih =>
    obtain ⟨us, left', depth', rfl, hleft', h'⟩ := h.act hleft deed
    obtain ⟨vs, left'', depth'', rfl, hleft'', h''⟩ := ih h' hleft'
    refine ⟨us ++ vs, left'', depth'', (List.append_assoc _ _ _).symm, hleft'', ?_⟩
    rwa [lastToken_append]

end ReadsThrough

end Session

/-! ## Pulls on a view -/

namespace Reader

open Cursor

/-- Every pull on `r` reads the token `t`, and a typed pull answers with the value of `t` if it has
that type. -/
structure Delivers (r : Reader) (t : Token) (r' : Reader) : Prop where
  next : r.next = (.ok (some t), r')
  name : r.name = (.ok t.name?, r')
  text : r.text = (.ok t.text?, r')
  boolean : r.boolean = (.ok t.boolean?, r')
  integer : r.integer = (.ok (t.integer?.elim .other .found), r')

/-- No pull reads a token: typed pulls answer none and the others fail. -/
structure IsShut (r : Reader) : Prop where
  next : r.next = (.error .closedView, r)
  name : r.name = (.ok none, r)
  text : r.text = (.ok none, r)
  boolean : r.boolean = (.ok none, r)
  integer : r.integer = (.ok .nothing, r)

theorem pull_before_cons {β : Type} (closed : Except Fault β) (project : Option Token → β)
    {depths : List Nat} (hdepths : ∀ d ∈ depths, 0 < d) (t : Token) (ts : List Token)
    (later : Feed) (current : Option Token) :
    pull closed project ⟨before (t :: ts) later current, depths⟩ =
      (.ok (project (some t)), ⟨before ts later (some t), depths.map t.shift⟩) := by
  rw [pull, pullThrough_before_cons closed project hdepths]

theorem delivers_before_cons {depths : List Nat} (hdepths : ∀ d ∈ depths, 0 < d) (t : Token)
    (ts : List Token) (later : Feed) (current : Option Token) :
    Delivers ⟨before (t :: ts) later current, depths⟩ t
      ⟨before ts later (some t), depths.map t.shift⟩ where
  next := pull_before_cons _ _ hdepths t ts later current
  name := pull_before_cons _ _ hdepths t ts later current
  text := pull_before_cons _ _ hdepths t ts later current
  boolean := pull_before_cons _ _ hdepths t ts later current
  integer := by
    rw [integer, pull_before_cons _ _ hdepths t ts later current]
    cases h : t.integer? <;> simp [h]

theorem isShut_of_depth_zero (c : Cursor) (outer : List Nat) : IsShut ⟨c, 0 :: outer⟩ :=
  ⟨rfl, rfl, rfl, rfl, rfl⟩

end Reader

theorem Cursor.before_append (ts us : List Token) (later : Feed) (current : Option Token) :
    before (ts ++ us) later current = before ts (later.behind us) current := by
  simp [before, Feed.behind]

theorem Turn.process_container {p : Policy σ α} {ts : List Token} (hts : Closes 1 ts)
    {us : List Token} {later : Feed} {current : Option Token} {state state' : σ}
    {handle : Option α}
    (hrun : ((p.build state).run (Reader.view ⟨.before (ts ++ us) later current, []⟩)).result =
      (.ok handle, state'))
    (keys : List (Option String)) :
    ∃ log, process p keys (.before (ts ++ us) later current) state =
      ⟨.ok handle, keys, .before us later (lastToken current ts), state', log⟩ := by
  obtain ⟨result, log, e, -, hlocal⟩ :=
    (p.build state).run_local ⟨later.limit, ts, current, [], 1, hts⟩
  have hlater := congrArg Reading.Run.result (hlocal (later.behind us))
  have hfinished := congrArg Reading.Run.result (hlocal (.finished later.limit))
  rw [Cursor.before_append] at hrun
  exact Walk.process_before hts (hfinished.trans (hlater.symm.trans hrun)) keys us later

/-- Invariant of a view on a container of a well-nested stream, after any sequence of deeds on it
and on further views: the tokens read are a prefix of the container, the depth is 1 plus opening
minus closing brackets among them, and the view is shut exactly when the closing bracket has been
read. While it is open every pull reads one token. Draining reads the rest of the container, and
processing the container leaves the cursor on its closing bracket. -/
theorem Session.view_ends_with_container {ts front back : List Token} {shape : Shape}
    (hts : WellNested ts) (hback : ts = front ++ .opening shape :: back) (later : Feed) :
    ∃ inside rest, WellNested inside ∧ back = inside ++ .closing shape :: rest ∧
      (∀ deeds : List Deed, ∃ read left depth r,
        inside ++ [.closing shape] = read ++ left ∧
        r = ⟨.before (left ++ rest) later (lastToken (some (.opening shape)) read), [depth]⟩ ∧
        reader? (afterDeeds (viewing (.before back later (some (.opening shape))) : Session σ α)
          deeds) (.view 0) = some r ∧
        depth + read.countP Token.isClosing = 1 + read.countP Token.isOpening ∧
        (depth = 0 ↔ left = []) ∧
        (∀ t left', left = t :: left' →
          r.Delivers t ⟨.before (left' ++ rest) later (some t), [t.shift depth]⟩) ∧
        (left = [] → r.IsShut) ∧
        r.drain = (.ok (), ⟨.before rest later (some (.closing shape)), [0]⟩)) ∧
      ∀ (p : Policy σ α) (keys : List (Option String)) (state state' : σ) (handle : Option α),
        ((p.build state).run
          (Reader.view ⟨.before back later (some (.opening shape)), []⟩)).result =
            (.ok handle, state') →
        ∃ log, Turn.process p keys (.before back later (some (.opening shape))) state =
          ⟨.ok handle, keys, .before rest later (some (.closing shape)), state', log⟩ := by
  obtain ⟨inside, rest, hinside, rfl⟩ := hts.exists_container hback
  have hcloses := hinside.closes shape
  have hlast : lastToken (some (.opening shape)) (inside ++ [.closing shape]) =
      some (.closing shape) := lastToken_append _ _ _
  have hsplit : inside ++ .closing shape :: rest = (inside ++ [.closing shape]) ++ rest := by
    simp
  refine ⟨inside, rest, hinside, rfl, fun deeds => ?_, fun p keys state state' handle hrun => ?_⟩
  · have hbegin := readsThrough_viewing (σ := σ) (α := α)
      (.before (inside ++ [.closing shape]) (later.behind rest) (some (.opening shape)))
    obtain ⟨read, left, depth, hread, hleft, hreads⟩ := hbegin.afterDeeds hcloses deeds
    rw [← Cursor.before_append, ← Cursor.before_append, ← hsplit] at hreads
    have hdrain := Reader.drain_before hleft rest later (lastToken (some (.opening shape)) read)
    rw [← lastToken_append, ← hread, hlast] at hdrain
    refine ⟨read, left, depth, _, hread, rfl, hreads.reader?_view_zero,
      (hread ▸ hcloses).depth_eq hleft, hleft.depth_eq_zero_iff, ?_, ?_, hdrain⟩
    · rintro t left' rfl
      exact Reader.delivers_before_cons (by simpa using hleft.depth_pos) t _ later _
    · rintro rfl
      obtain rfl := hleft.depth_eq_zero_iff.mpr rfl
      exact Reader.isShut_of_depth_zero _ _
  · rw [hsplit] at hrun ⊢
    obtain ⟨log, hprocess⟩ := Turn.process_container hcloses hrun keys
    exact ⟨log, by rw [hprocess, hlast]⟩

theorem Session.view_drains_to_closing_bracket :
    WellNested (Tree.array [.object [("a", .scalar .null)]]).tokens ∧
      ∃ r, reader? (afterDeeds (viewing (.before
          [.key "a", .scalar .null, .closing .object, .closing .array] (.finished .standard)
          (some (.opening .object))) : Session Unit Unit)
          [.openOn 0, .call 1 .name, .call 0 .close]) (.view 0) = some r ∧
        r.drain =
          (.ok (), ⟨.before [.closing .array] (.finished .standard) (some (.closing .object)),
            [0]⟩) := by
  have hwell := WellNested.tokens (.array [.object [("a", .scalar .null)]])
  have htokens : (Tree.array [.object [("a", .scalar .null)]]).tokens =
      [.opening .array] ++ .opening .object ::
        [.key "a", .scalar .null, .closing .object, .closing .array] := rfl
  refine ⟨hwell, ?_⟩
  obtain ⟨inside, rest, -, hback, hdeeds, -⟩ :=
    view_ends_with_container (σ := Unit) (α := Unit) hwell htokens (.finished .standard)
  obtain ⟨read, left, depth, r, -, -, hreader, -, -, -, -, hdrain⟩ :=
    hdeeds [.openOn 0, .call 1 .name, .call 0 .close]
  have hrest : rest = [.closing .array] := by
    clear hdeeds hreader hdrain
    rcases inside with _ | ⟨_, _ | ⟨_, _ | ⟨_, _ | ⟨_, inside⟩⟩⟩⟩ <;> simp_all
  subst hrest
  exact ⟨r, hreader, hdrain⟩

end JsonCleave
