import JsonCleave.Proofs.Boundary
import JsonCleave.Proofs.OpenArrays
/-!
# Unclosed containers

When the tokens run out inside a container, all further reads fail, except that a skip at a good end
of the source succeeds and lowers the depth of the view.
-/

namespace JsonCleave

/-! ## Sources that deliver no more tokens -/

namespace Feed

/-- No pull on the feed delivers a token. -/
def IsSilent (later : Feed) : Prop := ∀ t, .token t ∉ later.deliveries

def Completes (later : Feed) : Prop :=
  .halt .complete ∈ later.deliveries ∨ later.ending = .complete

def IsRestOf (rest later : Feed) : Prop :=
  rest.deliveries <:+ later.deliveries ∧ rest.ending = later.ending

variable {later rest : Feed}

theorem IsRestOf.refl (later : Feed) : later.IsRestOf later := ⟨List.suffix_rfl, rfl⟩

theorem IsRestOf.trans {more : Feed} (h : rest.IsRestOf more) (hmore : more.IsRestOf later) :
    rest.IsRestOf later := ⟨h.1.trans hmore.1, h.2.trans hmore.2⟩

theorem IsSilent.of_rest (h : later.IsSilent) (hrest : rest.IsRestOf later) : rest.IsSilent :=
  fun t hmem => h t (hrest.1.subset hmem)

theorem IsRestOf.completes (hrest : rest.IsRestOf later) (h : rest.Completes) :
    later.Completes := by
  rcases h with hmem | hending
  · exact .inl (hrest.1.subset hmem)
  · exact .inr (hrest.2.symm.trans hending)

end Feed

/-! ## Tokens that do not close -/

theorem StaysOpen.behind {m n : Nat} {us vs : List Token} (h : StaysOpen (m + n) (us ++ vs))
    (hus : Closes m us) : StaysOpen n vs := by
  induction us generalizing m with
  | nil =>
    cases m with
    | zero => simpa using h
    | succ m => exact hus.elim
  | cons t us ih =>
    have hpos := hus.depth_pos
    rw [closes_cons hpos] at hus
    rw [List.cons_append, staysOpen_cons (by omega), t.shift_add hpos] at h
    exact ih h hus

theorem Closes.not_staysOpen {depth : Nat} {us : List Token} (hus : Closes depth us)
    (vs : List Token) : ¬ StaysOpen depth (us ++ vs) := by
  intro h
  have hzero : StaysOpen 0 vs := StaysOpen.behind (m := depth) h hus
  cases vs <;> exact hzero

namespace Cursor

variable {later : Feed}

theorem next_before_silent (hlater : later.IsSilent) (current : Option Token) :
    ∃ rest current', rest.IsRestOf later ∧
      ((∃ fault, (before [] later current).next = (.error fault, before [] rest current')) ∨
        later.Completes ∧ current' = none ∧
          (before [] later current).next = (.ok none, before [] rest current')) := by
  obtain ⟨deliveries, ending, limit⟩ := later
  cases deliveries with
  | nil =>
    cases ending with
    | complete => exact ⟨_, none, .refl _, .inr ⟨.inr rfl, rfl, rfl⟩⟩
    | broken origin => exact ⟨_, current, .refl _, .inl ⟨_, rfl⟩⟩
    | undecodable flaw place => exact ⟨_, current, .refl _, .inl ⟨_, rfl⟩⟩
  | cons delivery more =>
    have hrest : Feed.IsRestOf ⟨more, ending, limit⟩ ⟨delivery :: more, ending, limit⟩ :=
      ⟨List.suffix_cons _ _, rfl⟩
    cases delivery with
    | token t => exact absurd List.mem_cons_self (hlater t)
    | halt halt =>
      cases halt with
      | complete => exact ⟨_, none, hrest, .inr ⟨.inl List.mem_cons_self, rfl, rfl⟩⟩
      | broken origin => exact ⟨_, current, hrest, .inl ⟨_, rfl⟩⟩
      | undecodable flaw place => exact ⟨_, current, hrest, .inl ⟨_, rfl⟩⟩

theorem isOver_before (hlater : later.IsSilent) (current : Option Token) :
    (before [] later current).IsOver := by
  intro t c' hnext
  obtain ⟨rest, current', -, ⟨fault, hend⟩ | ⟨-, -, hend⟩⟩ := next_before_silent hlater current
  · rw [hend] at hnext
    cases hnext
  · rw [hend] at hnext
    cases hnext

theorem skipOpen_runs_out (hlater : later.IsSilent) {depth : Nat} {ts : List Token}
    (hts : StaysOpen depth ts) (current : Option Token) :
    ∃ rest current', rest.IsRestOf later ∧
      ((∃ fault, skipOpen depth (before ts later current) =
          (.error fault, before [] rest current')) ∨
        later.Completes ∧
          skipOpen depth (before ts later current) = (.ok (), before [] rest current')) := by
  induction ts generalizing depth current with
  | nil =>
    obtain ⟨rest, current', hrest, ⟨fault, hnext⟩ | ⟨hcompletes, -, hnext⟩⟩ :=
      next_before_silent hlater current
    · exact ⟨rest, current', hrest, .inl ⟨fault, skipOpen_fault hts.depth_pos hnext⟩⟩
    · exact ⟨rest, current', hrest, .inr ⟨hcompletes, skipOpen_end hts.depth_pos hnext⟩⟩
  | cons t ts ih =>
    have hpos := hts.depth_pos
    obtain ⟨rest, current', hrest, hskip⟩ := ih ((staysOpen_cons hpos).mp hts) (some t)
    refine ⟨rest, current', hrest, ?_⟩
    rw [skipOpen_before_cons hpos]
    exact hskip

end Cursor

theorem Turn.traverse_over {σ α : Type} (p : Policy σ α) (log : List Entry)
    (keys : List (Option String)) {c : Cursor} (hc : c.IsOver) (state : σ) (a : α) :
    (traverse p log keys c state).outcome ≠ .ok (some a) := by
  rcases hnext : c.next with ⟨fault | _ | t, c'⟩
  · simp [traverse_fault log hnext]
  · simp [traverse_end log hnext]
  · exact absurd hnext (hc t c')

/-! ## What all calls preserve -/

/-- Preserved by pulls, skips and closing. -/
structure Reader.Steady (Holds : Reader → Prop) : Prop where
  pull : ∀ {β : Type} (closed : Except Fault β) (project : Option Token → β) (r : Reader),
    Holds r → Holds (r.pull closed project).2
  skip : ∀ r, Holds r → Holds r.skipChildren.2
  close : ∀ r, Holds r → Holds r.close.2

namespace Reader.Steady

variable {Holds : Reader → Prop} (h : Steady Holds) {r : Reader}

include h

theorem next {b : Except Fault (Option Token)} {r' : Reader} (hr : Holds r)
    (hnext : r.next = (b, r')) : Holds r' := by
  have hpull := h.pull (.error .closedView) id r hr
  rw [← Reader.next, hnext] at hpull
  exact hpull

theorem drain (hr : Holds r) : Holds r.drain.2 := by
  fun_induction Reader.drain r with
  | case1 r hopen fault r' hnext => exact h.next hr hnext
  | case2 r hopen r' hnext => exact h.next hr hnext
  | case3 r hopen t r' hnext ih => exact ih (h.next hr hnext)
  | case4 r hclosed => exact hr

theorem untilEnd (hr : Holds r) : Holds r.untilEnd.2 := by
  fun_induction Reader.untilEnd r with
  | case1 r hopen fault r' hnext => exact h.next hr hnext
  | case2 r hopen r' hnext => exact h.next hr hnext
  | case3 r hopen t r' hnext rest r'' heq ih =>
    rw [heq] at ih
    exact ih (h.next hr hnext)
  | case4 r hopen t r' hnext fault r'' heq ih =>
    rw [heq] at ih
    exact ih (h.next hr hnext)
  | case5 r hclosed => exact hr

theorem copyOpen (w : Writer) (hr : Holds r) : Holds (Reader.copyOpen w r).2 := by
  fun_induction Reader.copyOpen w r with
  | case1 w r hdone => exact hr
  | case2 w r hdone fault r' hnext => exact h.next hr hnext
  | case3 w r hdone r' hnext => exact h.next hr hnext
  | case4 w r hdone t r' hnext excess hexcess => exact h.next hr hnext
  | case5 w r hdone t r' hnext hexcess ih => exact ih (h.next hr hnext)

theorem copy (hr : Holds r) : Holds r.copy.2 := by
  unfold Reader.copy
  split
  · split <;> exact hr
  · exact h.copyOpen _ hr
  · exact hr

theorem answer (call : Call) (hr : Holds r) : Holds (r.answer call).2 := by
  cases call with
  | attend => exact hr
  | current => exact hr
  | next => exact h.pull _ _ r hr
  | name => exact h.pull _ _ r hr
  | text => exact h.pull _ _ r hr
  | boolean => exact h.pull _ _ r hr
  | integer => exact h.pull _ _ r hr
  | skip => exact h.skip r hr
  | drain => exact h.drain hr
  | close => exact h.close r hr
  | copy => exact h.copy hr
  | untilEnd => exact h.untilEnd hr
  | depth => exact hr

theorem run_reading {β : Type} (reading : Reading β) (hr : Holds r) :
    Holds (reading.run r).reader := by
  induction reading generalizing r with
  | give result => exact hr
  | report entry rest ih => exact ih hr
  | ask call rest ih => exact ih _ (h.answer call hr)

theorem run {β : Type} (program : Program β) (hr : Holds r) : Holds (program.run r).reader := by
  obtain ⟨reading, -, hrun⟩ := program.exists_reading r.cursor.pending.length
  rw [← hrun r (Nat.le_refl _)]
  exact h.run_reading reading hr

end Reader.Steady

/-! ## Views of containers that are never closed -/

/-- A view of a container whose closing bracket is not in the source. It is closed only by a skip
that meets a good ending. -/
inductive Reader.Unclosed (later : Feed) : Reader → Prop
  | inside {ts : List Token} {depth : Nat} (hts : StaysOpen depth ts) (current : Option Token) :
      Unclosed later ⟨.before ts later current, [depth]⟩
  | behind {rest : Feed} {depth : Nat} (hrest : rest.IsRestOf later)
      (hdepth : depth = 0 → later.Completes) (current : Option Token) :
      Unclosed later ⟨.before [] rest current, [depth]⟩

namespace Reader

open Cursor

variable {later : Feed}

theorem pull_runs_out (hlater : later.IsSilent) {β : Type} (closed : Except Fault β)
    (project : Option Token → β) {depth : Nat} (hdepth : 0 < depth) (current : Option Token) :
    ∃ fault rest current', rest.IsRestOf later ∧
      pull closed project ⟨before [] later current, [depth]⟩ =
        (.error fault, ⟨before [] rest current', [depth]⟩) := by
  have hne : depth ≠ 0 := Nat.pos_iff_ne_zero.mp hdepth
  obtain ⟨rest, current', hrest, ⟨fault, hnext⟩ | ⟨-, rfl, hnext⟩⟩ :=
    next_before_silent hlater current
  · exact ⟨fault, rest, current', hrest, by simp [pull, pullThrough, hne, hnext]⟩
  · exact ⟨.unfinishedView, rest, none, hrest, by simp [pull, pullThrough, hne, hnext]⟩

/-- A copy fails when the tokens run out. -/
theorem copyOpen_runs_out (hlater : later.IsSilent) (w : Writer) {ts : List Token}
    (hts : StaysOpen w.levels.length ts) (hprint : ∀ t ∈ ts, t.IsPrintable later.limit)
    {depth : Nat} (hdepth : w.levels.length ≤ depth) (current : Option Token) :
    ∃ fault text rest current' depth', rest.IsRestOf later ∧
      copyOpen w ⟨before ts later current, [depth]⟩ =
        (⟨.error fault, text⟩, ⟨before [] rest current', [depth']⟩) := by
  have hdepths : ∀ d ∈ [depth], w.levels.length ≤ d := by simpa using hdepth
  have happend := copyOpen_append hts hprint hdepths [] current
  rw [List.append_nil] at happend
  have hpos := pos_depthAfter_of_mem hts hdepths _ (List.mem_singleton_self _)
  obtain ⟨fault, rest, current', hrest, hpull⟩ :=
    pull_runs_out hlater (.error .closedView) id hpos (lastToken current ts)
  rw [happend]
  exact ⟨fault, _, rest, current', _, hrest, copyOpen_fault (isDone_writeAll hts) hpull⟩

theorem skipChildren_idle {depth : Nat} {c : Cursor}
    (h : depth = 0 ∨ c.current.any Token.isOpening = false) :
    skipChildren ⟨c, [depth]⟩ = (.ok (), ⟨c, [depth]⟩) := by
  rcases h with hzero | hopening
  · simp [skipChildren, skipThrough, hzero]
  · simp [skipChildren, skipThrough, hopening]

theorem skipChildren_opening {depth : Nat} (hdepth : 0 < depth) {c : Cursor}
    (hopening : c.current.any Token.isOpening = true) :
    skipChildren ⟨c, [depth]⟩ =
      match c.skipOpen 1 with
      | (.error fault, c') => (.error fault, ⟨c', [depth]⟩)
      | (.ok _, c') => (.ok (), ⟨c', [depth - 1]⟩) := by
  have hne : depth ≠ 0 := Nat.pos_iff_ne_zero.mp hdepth
  simp only [skipChildren, skipThrough, Cursor.skipChildren, hne, hopening]
  rcases c.skipOpen 1 with ⟨_ | _, c'⟩
  · rfl
  · rfl

namespace Unclosed

theorem pull (hlater : later.IsSilent) {β : Type} (closed : Except Fault β)
    (project : Option Token → β) {r : Reader} (h : Unclosed later r) :
    Unclosed later (r.pull closed project).2 := by
  cases h with
  | @inside ts depth hts current =>
    have hpos := hts.depth_pos
    cases ts with
    | nil =>
      obtain ⟨fault, rest, current', hrest, hpull⟩ :=
        pull_runs_out hlater closed project hpos current
      rw [hpull]
      exact .behind hrest (by omega) current'
    | cons t ts =>
      rw [pull_before_cons closed project (by simpa using hpos)]
      exact .inside ((staysOpen_cons hpos).mp hts) (some t)
  | @behind more depth hmore hdepth current =>
    rcases Nat.eq_zero_or_pos depth with rfl | hpos
    · exact .behind hmore hdepth current
    · obtain ⟨fault, rest, current', hrest, hpull⟩ :=
        pull_runs_out (hlater.of_rest hmore) closed project hpos current
      rw [hpull]
      exact .behind (hrest.trans hmore) hdepth current'

theorem skip (hlater : later.IsSilent) {r : Reader} (h : Unclosed later r) :
    Unclosed later r.skipChildren.2 := by
  cases h with
  | @inside ts depth hts current =>
    have hpos := hts.depth_pos
    cases hopening : current.any Token.isOpening with
    | false =>
      rw [skipChildren_idle (.inr hopening)]
      exact .inside hts current
    | true =>
      rw [skipChildren_opening hpos hopening]
      rcases exists_closes_or_staysOpen Nat.one_pos ts with ⟨us, vs, rfl, hus⟩ | hopen
      · -- the skipped container ends inside the one that does not
        rw [skipOpen_before hus]
        have hvs : StaysOpen (depth - 1) vs := by
          apply StaysOpen.behind (m := 1) _ hus
          rwa [Nat.add_sub_cancel' hpos]
        exact .inside hvs _
      · obtain ⟨rest, current', hrest, ⟨fault, hskip⟩ | ⟨hcompletes, hskip⟩⟩ :=
          skipOpen_runs_out hlater hopen current
        · rw [hskip]
          exact .behind hrest (by omega) current'
        · rw [hskip]
          exact .behind hrest (fun _ => hcompletes) current'
  | @behind more depth hmore hdepth current =>
    cases hopening : current.any Token.isOpening with
    | false =>
      rw [skipChildren_idle (.inr hopening)]
      exact .behind hmore hdepth current
    | true =>
      rcases Nat.eq_zero_or_pos depth with rfl | hpos
      · rw [skipChildren_idle (.inl rfl)]
        exact .behind hmore hdepth current
      · rw [skipChildren_opening hpos hopening]
        have hopen : StaysOpen 1 [] := trivial
        obtain ⟨rest, current', hrest, ⟨fault, hskip⟩ | ⟨hcompletes, hskip⟩⟩ :=
          skipOpen_runs_out (hlater.of_rest hmore) hopen current
        · rw [hskip]
          exact .behind (hrest.trans hmore) hdepth current'
        · rw [hskip]
          exact .behind (hrest.trans hmore) (fun _ => hmore.completes hcompletes) current'

theorem steady (hlater : later.IsSilent) : Steady (Unclosed later) where
  pull closed project r h := h.pull hlater closed project
  skip r h := h.skip hlater
  close r h := by
    cases h with
    | inside hts current => exact .inside hts current
    | behind hrest hdepth current => exact .behind hrest hdepth current

theorem next_ne_none (hlater : later.IsSilent) {r r' : Reader} (h : Unclosed later r) :
    r.next ≠ (.ok none, r') := by
  intro hnext
  cases h with
  | @inside ts depth hts current =>
    have hpos := hts.depth_pos
    cases ts with
    | nil =>
      obtain ⟨fault, rest, current', -, hpull⟩ :=
        pull_runs_out hlater (.error .closedView) id hpos current
      rw [next, hpull] at hnext
      cases hnext
    | cons t ts =>
      rw [next_before_cons (by simpa using hpos)] at hnext
      cases hnext
  | @behind more depth hmore hdepth current =>
    rcases Nat.eq_zero_or_pos depth with rfl | hpos
    · cases hnext
    · obtain ⟨fault, rest, current', -, hpull⟩ :=
        pull_runs_out (hlater.of_rest hmore) (.error .closedView) id hpos current
      rw [next, hpull] at hnext
      cases hnext

theorem drain_ok (hlater : later.IsSilent) {r r' : Reader} (h : Unclosed later r)
    (hdrain : r.drain = (.ok (), r')) :
    later.Completes ∧ ∃ rest current, rest.IsRestOf later ∧
      r'.cursor = .before [] rest current := by
  fun_induction Reader.drain r with
  | case1 => cases hdrain
  | case2 r hopen r'' hnext => exact absurd hnext (h.next_ne_none hlater)
  | case3 r hopen t r'' hnext ih => exact ih ((steady hlater).next h hnext) hdrain
  | case4 r hclosed =>
    obtain rfl := (Prod.mk.inj hdrain).2
    cases h with
    | inside hts current =>
      have hpos := hts.depth_pos
      simp only [isOpen, List.head?_cons, bne_iff_ne, ne_eq, Option.some.injEq,
        Decidable.not_not] at hclosed
      omega
    | behind hrest hdepth current =>
      simp only [isOpen, List.head?_cons, bne_iff_ne, ne_eq, Option.some.injEq,
        Decidable.not_not] at hclosed
      exact ⟨hdepth hclosed, _, current, hrest, rfl⟩

end Unclosed

end Reader

/-- Processing an unclosed container succeeds only if the source ends well, and reads all of it. -/
theorem Turn.process_unclosed {σ α : Type} {p : Policy σ α} {later : Feed}
    (hlater : later.IsSilent) {ts : List Token} (hts : StaysOpen 1 ts) {current : Option Token}
    {keys : List (Option String)} {state : σ} {handle : Option α}
    (h : (process p keys (.before ts later current) state).outcome = .ok handle) :
    later.Completes ∧ ∃ rest current', rest.IsRestOf later ∧
      (process p keys (.before ts later current) state).cursor = .before [] rest current' := by
  have hrun := (Reader.Unclosed.steady hlater).run (p.build state)
    (Reader.Unclosed.inside hts current)
  unfold process at h ⊢
  simp only [Reader.view] at h hrun ⊢
  split at h
  · cases h
  · split at h
    · cases h
    · rename_i hdrain
      exact hrun.drain_ok hlater hdrain

end JsonCleave
