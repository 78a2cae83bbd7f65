import JsonCleave.Proofs.EarlyClosing
import JsonCleave.Proofs.HonestSource
/-!
# Skipping a container and draining it

Skipping a container agrees with processing it by a program none of whose calls fails, followed by a
drain: both read to the closing bracket, and fail alike if an honest source does not have it.
-/

namespace JsonCleave

variable {σ τ α β : Type}

/-! ## Programs that raise nothing -/

/-- No call of the reading fails on this reader. -/
def Reading.RaisesNothing : Reading β → Reader → Prop
  | .give _, _ => True
  | .report _ rest, r => rest.RaisesNothing r
  | .ask call rest, r =>
    call.fault? (r.answer call).1 = none ∧
      (rest (r.answer call).1).RaisesNothing (r.answer call).2

theorem Reading.RaisesNothing.map {reading : Reading β} {r : Reader} (h : reading.RaisesNothing r)
    (f : β → α) : (reading.map f).RaisesNothing r := by
  induction reading generalizing r with
  | give result => trivial
  | report entry rest ih => exact ih h
  | ask call rest ih => exact ⟨h.1, ih _ h.2⟩

theorem Call.ne_error {call : Call} {answer : Except Fault call.Answer}
    (h : call.fault? answer = none) (fault : Fault) : answer ≠ .error fault := by
  rintro rfl
  cases call <;> cases h

def Program.RaisesNothing (program : Program β) (r : Reader) : Prop :=
  ∃ reading : Reading β, reading.run r = program.run r ∧ reading.RaisesNothing r

theorem Program.RaisesNothing.map {program : Program β} {r : Reader}
    (h : program.RaisesNothing r) (f : β → α) : (program.map f).RaisesNothing r := by
  obtain ⟨reading, hrun, hquiet⟩ := h
  exact ⟨reading.map f, by rw [Reading.run_map, hrun]; rfl, hquiet.map f⟩

/-! ## Containers whose end does not arrive -/

theorem Cursor.skipOpen_raises {later rest : Feed} {fault : Fault}
    (hlater : later.Raises fault rest) {depth : Nat} {ts : List Token} (hts : StaysOpen depth ts)
    (current : Option Token) :
    skipOpen depth (before ts later current) =
      (.error fault, before [] rest (lastToken current ts)) := by
  induction ts generalizing depth current with
  | nil => exact skipOpen_fault hts.depth_pos (hlater current)
  | cons t ts ih =>
    rw [skipOpen_before_cons hts.depth_pos]
    exact ih ((staysOpen_cons hts.depth_pos).mp hts) (some t)

namespace Reader

open Cursor (before)

variable {later rest : Feed} {fault : Fault}

theorem pull_raises (hlater : later.Raises fault rest) {γ : Type} (closed : Except Fault γ)
    (project : Option Token → γ) {depth : Nat} (hdepth : 0 < depth) (current : Option Token) :
    pull closed project ⟨before [] later current, [depth]⟩ =
      (.error fault, ⟨before [] rest current, [depth]⟩) := by
  have hne : depth ≠ 0 := Nat.pos_iff_ne_zero.mp hdepth
  simp [pull, pullThrough, hne, hlater current]

theorem drain_raises (hlater : later.Raises fault rest) {depth : Nat} {ts : List Token}
    (hts : StaysOpen depth ts) (current : Option Token) :
    drain ⟨before ts later current, [depth]⟩ =
      (.error fault, ⟨before [] rest (lastToken current ts), [depthAfter depth ts]⟩) := by
  induction ts generalizing depth current with
  | nil =>
    exact drain_fault (isOpen_of_staysOpen hts _)
      (pull_raises hlater (.error .closedView) id hts.depth_pos current)
  | cons t ts ih =>
    rw [drain_token (isOpen_of_staysOpen hts _)
      (next_before_cons (by simpa using hts.depth_pos) t ts later current)]
    exact ih ((staysOpen_cons hts.depth_pos).mp hts) (some t)

theorem untilEnd_raises (hlater : later.Raises fault rest) {depth : Nat} {ts : List Token}
    (hts : StaysOpen depth ts) (current : Option Token) :
    (untilEnd ⟨before ts later current, [depth]⟩).1 = .error fault := by
  induction ts generalizing depth current with
  | nil =>
    rw [untilEnd_fault (isOpen_of_staysOpen hts _)
      (pull_raises hlater (.error .closedView) id hts.depth_pos current)]
  | cons t ts ih =>
    have hrest := ih ((staysOpen_cons hts.depth_pos).mp hts) (some t)
    rw [untilEnd_token (isOpen_of_staysOpen hts _)
      (next_before_cons (by simpa using hts.depth_pos) t ts later current), List.map_singleton]
    dsimp only
    rw [hrest]
    rfl

/-- A view inside an unclosed container, with the tokens in front of it; `last` is the last token of
the source. -/
def OnTheWay (later : Feed) (last : Option Token) (r : Reader) : Prop :=
  ∃ ts depth current, r = ⟨before ts later current, [depth]⟩ ∧ StaysOpen depth ts ∧
    lastToken current ts = last

variable {last : Option Token} {r : Reader}

theorem OnTheWay.pull (hlater : later.Raises fault rest) (hr : OnTheWay later last r) {γ : Type}
    (closed : Except Fault γ) (project : Option Token → γ) :
    (∃ fault, (r.pull closed project).1 = .error fault) ∨
      OnTheWay later last (r.pull closed project).2 := by
  obtain ⟨ts, depth, current, rfl, hts, hlast⟩ := hr
  cases ts with
  | nil => exact .inl ⟨fault, by rw [pull_raises hlater _ _ hts.depth_pos]⟩
  | cons t ts =>
    rw [pull_before_cons closed project (by simpa using hts.depth_pos)]
    exact .inr ⟨ts, _, some t, rfl, (staysOpen_cons hts.depth_pos).mp hts, hlast⟩

theorem OnTheWay.behind {us vs : List Token} {depth : Nat} {current : Option Token}
    (hts : StaysOpen depth (us ++ vs)) (hus : Closes 1 us)
    (hlast : lastToken current (us ++ vs) = last) :
    OnTheWay later last ⟨before vs later (lastToken current us), [depth - 1]⟩ := by
  refine ⟨vs, depth - 1, _, rfl, StaysOpen.behind (m := 1) ?_ hus, ?_⟩
  · rwa [Nat.add_sub_cancel' hts.depth_pos]
  · rw [← lastToken_append, hlast]

theorem OnTheWay.skip (hlater : later.Raises fault rest) (hr : OnTheWay later last r) :
    (∃ fault, r.skipChildren.1 = .error fault) ∨ OnTheWay later last r.skipChildren.2 := by
  obtain ⟨ts, depth, current, rfl, hts, hlast⟩ := hr
  cases hopening : current.any Token.isOpening with
  | false =>
    rw [skipChildren_idle (c := before ts later current) (.inr hopening)]
    exact .inr ⟨ts, depth, current, rfl, hts, hlast⟩
  | true =>
    rw [skipChildren_opening (c := before ts later current) hts.depth_pos hopening]
    rcases exists_closes_or_staysOpen Nat.one_pos ts with ⟨us, vs, rfl, hus⟩ | hopen
    · rw [Cursor.skipOpen_before hus]
      exact .inr (.behind hts hus hlast)
    · rw [Cursor.skipOpen_raises hlater hopen]
      exact .inl ⟨fault, rfl⟩

theorem OnTheWay.copy (hsilent : later.IsSilent) (hr : OnTheWay later last r) :
    (∃ fault, r.copy.1.outcome = .error fault) ∨ OnTheWay later last r.copy.2 := by
  obtain ⟨ts, depth, current, rfl, hts, hlast⟩ := hr
  match current with
  | none => exact .inl ⟨_, rfl⟩
  | some (.scalar value) =>
    rw [reader_copy_scalar rfl]
    exact .inr ⟨ts, depth, _, rfl, hts, hlast⟩
  | some (.closing shape) => exact .inl ⟨_, rfl⟩
  | some (.key name) => exact .inl ⟨_, rfl⟩
  | some (.opening shape) =>
    have hone : ∀ d ∈ [depth], (Writer.start shape).levels.length ≤ d := by
      intro d hd
      rw [List.mem_singleton.mp hd]
      exact hts.depth_pos
    have hcopy : copy ⟨before ts later (some (.opening shape)), [depth]⟩ = _ := copy_opening rfl
    rw [hcopy]
    rcases closes_or_staysOpen_or_excess later.limit Nat.one_pos ts with
      ⟨us, vs, rfl, hus, hprint⟩ | ⟨hopen, hprint⟩ | ⟨us, t, vs, excess, rfl, hus, hprint, ht⟩
    · rw [copyOpen_before (w := .start shape) hus hprint hone]
      exact .inr (.behind hts hus hlast)
    · obtain ⟨fault, text, rest, current, depth', -, hfails⟩ := copyOpen_runs_out hsilent
        (.start shape) hopen hprint hts.depth_pos (some (.opening shape))
      rw [hfails]
      exact .inl ⟨fault, rfl⟩
    · rw [copyOpen_before_excess (w := .start shape) hus hprint hone ht]
      exact .inl ⟨_, rfl⟩

theorem OnTheWay.answer (hsilent : later.IsSilent) (hlater : later.Raises fault rest)
    (hr : OnTheWay later last r) {call : Call} (hcall : call.fault? (r.answer call).1 = none) :
    OnTheWay later last (r.answer call).2 := by
  have hok := Call.ne_error hcall
  have hpull {γ : Type} (closed : Except Fault γ) (project : Option Token → γ)
      (hok : ∀ fault, (r.pull closed project).1 ≠ .error fault) :
      OnTheWay later last (r.pull closed project).2 :=
    (hr.pull hlater closed project).resolve_left fun ⟨fault, hfault⟩ => hok fault hfault
  cases call with
  | attend => exact hr
  | current => exact hr
  | depth => exact hr
  | next => exact hpull _ _ hok
  | name => exact hpull _ _ hok
  | text => exact hpull _ _ hok
  | boolean => exact hpull _ _ hok
  | integer => exact hpull _ _ hok
  | skip => exact (hr.skip hlater).resolve_left fun ⟨fault, hfault⟩ => hok fault hfault
  | copy =>
    refine (hr.copy hsilent).resolve_left fun ⟨fault, hfault⟩ => ?_
    simp [Reader.answer, hfault, Call.fault?] at hcall
  | close =>
    obtain ⟨ts, depth, current, rfl, -, -⟩ := hr
    exact absurd rfl (hok .viewNotClosable)
  | drain =>
    obtain ⟨ts, depth, current, rfl, hts, -⟩ := hr
    exact absurd (congrArg Prod.fst (drain_raises hlater hts current)) (hok fault)
  | untilEnd =>
    obtain ⟨ts, depth, current, rfl, hts, -⟩ := hr
    exact absurd (untilEnd_raises hlater hts current) (hok fault)

theorem OnTheWay.run_reading (hsilent : later.IsSilent) (hlater : later.Raises fault rest)
    (hr : OnTheWay later last r) {reading : Reading β} (hquiet : reading.RaisesNothing r) :
    OnTheWay later last (reading.run r).reader := by
  induction reading generalizing r with
  | give result => exact hr
  | report entry rest ih => exact ih hr hquiet
  | ask call rest ih => exact ih _ (hr.answer hsilent hlater hquiet.1) hquiet.2

theorem OnTheWay.run (hsilent : later.IsSilent) (hlater : later.Raises fault rest)
    (hr : OnTheWay later last r) {program : Program β} (hquiet : program.RaisesNothing r) :
    OnTheWay later last (program.run r).reader := by
  obtain ⟨reading, hrun, hquiet⟩ := hquiet
  rw [← hrun]
  exact hr.run_reading hsilent hlater hquiet

end Reader

/-! ## Two ways to get rid of one container -/

/-- Equal turns except for the log, with states related by `R`. -/
structure Turn.Agrees (R : σ → τ → Prop) (x : Turn σ α) (y : Turn τ α) : Prop where
  outcome : y.outcome = x.outcome
  keys : y.keys = x.keys
  cursor : y.cursor = x.cursor
  state : R x.state y.state

/-- Skipping a container agrees with processing it by a program that raises nothing and returns no
handle. -/
theorem Turn.agrees_drop {R : σ → τ → Prop} {p : Policy σ α} {q : Policy τ α} {c c' : Cursor}
    (hc : c.IsHonest) {shape : Shape} (hnext : c.next = (.ok (some (.opening shape)), c'))
    {s : σ} {t t' : τ}
    (hbuild : ((q.build t).run (Reader.view ⟨c', []⟩)).result = (.ok none, t')) (hst : R s t')
    (hquiet : (q.build t).RaisesNothing (Reader.view ⟨c', []⟩)) (keys : List (Option String)) :
    (follow p shape .skip keys c' s).Agrees R (process q keys c' t) := by
  obtain ⟨ts, later, rfl, hsilent, ⟨us, vs, rfl, hus⟩ | ⟨hopen, fault, rest, hlater⟩⟩ :=
    hc.opening hnext
  · obtain ⟨log, hprocess⟩ := process_container hus hbuild keys
    rw [hprocess, follow, Cursor.skipChildren_before hus]
    exact ⟨rfl, rfl, rfl, hst⟩
  · have hview : Reader.OnTheWay later (lastToken (some (.opening shape)) ts)
        (Reader.view ⟨.before ts later (some (.opening shape)), []⟩) :=
      ⟨ts, 1, _, rfl, hopen, rfl⟩
    obtain ⟨us, depth, current, hreader, hus, hlast⟩ := hview.run hsilent hlater hquiet
    have hskip : (Cursor.before ts later (some (.opening shape))).skipChildren = _ :=
      Cursor.skipOpen_raises hlater hopen _
    rw [process, follow, hskip, hbuild, hreader, Reader.drain_raises hlater hus, hlast]
    exact ⟨rfl, rfl, rfl, hst⟩

end JsonCleave
