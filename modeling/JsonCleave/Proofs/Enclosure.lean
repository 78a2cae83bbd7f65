import JsonCleave.Program
import JsonCleave.Proofs.Container
/-!
# Locality of programs

A program on a view of a container does not depend on what follows the container. An excerpt is the
state of such a reader without what follows; it carries the invariant that its tokens close the
view.
-/

namespace JsonCleave

/-- The tokens left of a container, with the depths of the views on it. -/
structure Excerpt where
  limit : DigitLimit
  tokens : List Token
  current : Option Token
  further : List Nat
  depth : Nat
  closes : Closes depth tokens

namespace Excerpt

def reader (e : Excerpt) (later : Feed) : Reader :=
  ⟨.before e.tokens (.on e.limit later) e.current, e.further ++ [e.depth]⟩

theorem ext_reader {e e' : Excerpt} {later : Feed} (h : e.reader later = e'.reader later) :
    e = e' := by
  obtain ⟨limit, ts, current, further, depth, hts⟩ := e
  obtain ⟨limit', ts', current', further', depth', hts'⟩ := e'
  simp only [reader, Cursor.before, Feed.on, Reader.mk.injEq, Cursor.mk.injEq,
    List.append_cancel_right_eq, List.append_singleton_inj] at h
  obtain ⟨⟨htokens, -, rfl, rfl, -⟩, rfl, rfl⟩ := h
  obtain rfl := (List.map_inj_right fun _ _ heq => Delivery.token.inj heq).mp htokens
  rfl

/-- `e'` results from `e` by reading some of its tokens. -/
def Becomes (e e' : Excerpt) : Prop :=
  e'.limit = e.limit ∧ e'.further.length = e.further.length ∧
    ∃ us, e.tokens = us ++ e'.tokens ∧ e'.current = lastToken e.current us

theorem Becomes.refl (e : Excerpt) : e.Becomes e := ⟨rfl, rfl, [], rfl, rfl⟩

theorem Becomes.trans {e e' e'' : Excerpt} (h : e.Becomes e') (h' : e'.Becomes e'') :
    e.Becomes e'' := by
  obtain ⟨hlimit, hlength, us, hus, hcurrent⟩ := h
  obtain ⟨hlimit', hlength', vs, hvs, hcurrent'⟩ := h'
  refine ⟨hlimit'.trans hlimit, hlength'.trans hlength, us ++ vs, ?_, ?_⟩
  · rw [hus, hvs, List.append_assoc]
  · rw [hcurrent', hcurrent, lastToken_append]

theorem Becomes.cons {limit limit' : DigitLimit} {ts ts' : List Token}
    {current current' : Option Token} {further further' : List Nat} {depth depth' : Nat}
    {hts : Closes depth ts} {hts' : Closes depth' ts'}
    (h : Becomes ⟨limit, ts, current, further, depth, hts⟩
      ⟨limit', ts', current', further', depth', hts'⟩) (d d' : Nat) :
    Becomes ⟨limit, ts, current, d :: further, depth, hts⟩
      ⟨limit', ts', current', d' :: further', depth', hts'⟩ :=
  ⟨h.1, congrArg Nat.succ h.2.1, h.2.2⟩

theorem Becomes.lastToken_eq {e e' : Excerpt} (h : e.Becomes e') :
    lastToken e'.current e'.tokens = lastToken e.current e.tokens := by
  obtain ⟨-, -, us, hus, hcurrent⟩ := h
  rw [hus, lastToken_append, hcurrent]

end Excerpt

namespace Reader

open Cursor

/-- The operation does not depend on the tokens behind the excerpt. -/
def Local {β : Type} (op : Reader → β × Reader) : Prop :=
  ∀ e : Excerpt, ∃ b, ∃ e' : Excerpt, e.Becomes e' ∧
    ∀ later, op (e.reader later) = (b, e'.reader later)

/-! ## Pulls -/

theorem pullThrough_local {β : Type} (closed : Except Fault β) (project : Option Token → β)
    (e : Excerpt) : ∃ b, ∃ e' : Excerpt, e.Becomes e' ∧ ∀ later,
      pullThrough closed project (e.further ++ [e.depth])
        (before e.tokens (.on e.limit later) e.current) =
          (b, e'.further ++ [e'.depth], before e'.tokens (.on e'.limit later) e'.current) := by
  obtain ⟨limit, ts, current, further, depth, hts⟩ := e
  induction further with
  | nil =>
    cases ts with
    | nil =>
      -- nothing is left, so the view is closed and the pull is refused
      obtain rfl : depth = 0 := by
        cases depth with
        | zero => rfl
        | succ depth => exact hts.elim
      exact ⟨closed, ⟨limit, [], current, [], 0, hts⟩, .refl _, fun later => rfl⟩
    | cons t ts =>
      have hpos := hts.depth_pos
      refine ⟨.ok (project (some t)),
        ⟨limit, ts, some t, [], t.shift depth, (closes_cons hpos).mp hts⟩,
        ⟨rfl, rfl, [t], rfl, rfl⟩, fun later => ?_⟩
      exact pullThrough_before_cons closed project (by simpa using hpos) t ts _ current
  | cons d further ih =>
    by_cases hd : d = 0
    · refine ⟨closed, ⟨limit, ts, current, d :: further, depth, hts⟩, .refl _, fun later => ?_⟩
      simp [pullThrough, hd]
    · obtain ⟨b, ⟨limit', ts', current', further', depth', hts'⟩, hbecomes, hinner⟩ := ih
      dsimp only at hinner
      -- the further view passes on a fault, misses a token, or counts the one read
      cases b with
      | error fault =>
        refine ⟨.error fault, ⟨limit', ts', current', d :: further', depth', hts'⟩,
          hbecomes.cons d _, fun later => ?_⟩
        simp [pullThrough, hd, hinner later]
      | ok answer =>
        cases current' with
        | none =>
          refine ⟨.error .unfinishedView, ⟨limit', ts', none, d :: further', depth', hts'⟩,
            hbecomes.cons d _, fun later => ?_⟩
          simp [pullThrough, hd, hinner later]
        | some t =>
          refine ⟨.ok answer, ⟨limit', ts', some t, t.shift d :: further', depth', hts'⟩,
            hbecomes.cons d _, fun later => ?_⟩
          simp [pullThrough, hd, hinner later]

theorem pull_local {β : Type} (closed : Except Fault β) (project : Option Token → β) :
    Local (pull closed project) := by
  intro e
  obtain ⟨b, e', hbecomes, hpull⟩ := pullThrough_local closed project e
  refine ⟨b, e', hbecomes, fun later => ?_⟩
  simp only [pull, Excerpt.reader, hpull later]

theorem next_local (e : Excerpt) : ∃ b, ∃ e' : Excerpt, e.Becomes e' ∧
    (∀ later, (e.reader later).next = (b, e'.reader later)) ∧
      ∀ t, b = .ok (some t) → e'.tokens.length < e.tokens.length := by
  obtain ⟨b, e', hbecomes, hnext⟩ := pull_local (.error .closedView) id e
  refine ⟨b, e', hbecomes, hnext, ?_⟩
  rintro t rfl
  have hlt := length_pending_next (hnext (.finished e.limit))
  simpa [Excerpt.reader, before, Feed.finished] using hlt

/-! ## Loops over pulls -/

theorem drain_none {r r' : Reader} (hr : r.isOpen = true) (hnext : r.next = (.ok none, r')) :
    drain r = (.ok (), r') := by
  rw [drain, if_pos hr]
  split <;> rename_i heq <;> rw [hnext] at heq <;> simp_all

theorem drain_local : Local drain := by
  intro e
  induction hn : e.tokens.length using Nat.strongRecOn generalizing e with
  | ind n ih =>
    cases hopen : (e.further ++ [e.depth]).head? != some 0 with
    | false => exact ⟨.ok (), e, .refl e, fun later => drain_closed hopen⟩
    | true =>
      obtain ⟨b, e', hbecomes, hnext, hlt⟩ := next_local e
      match b with
      | .error fault =>
        exact ⟨.error fault, e', hbecomes, fun later => drain_fault hopen (hnext later)⟩
      | .ok none => exact ⟨.ok (), e', hbecomes, fun later => drain_none hopen (hnext later)⟩
      | .ok (some t) =>
        obtain ⟨b', e'', hbecomes', hrest⟩ := ih _ (hn ▸ hlt t rfl) e' rfl
        exact ⟨b', e'', hbecomes.trans hbecomes', fun later =>
          (drain_token (r := e.reader later) hopen (hnext later)).trans (hrest later)⟩

theorem copyOpen_local (w : Writer) : Local (copyOpen w) := by
  intro e
  induction hn : e.tokens.length using Nat.strongRecOn generalizing e w with
  | ind n ih =>
    cases hw : w.isDone with
    | true => exact ⟨_, e, .refl e, fun later => copyOpen_done hw _⟩
    | false =>
      obtain ⟨b, e', hbecomes, hnext, hlt⟩ := next_local e
      match b with
      | .error fault => exact ⟨_, e', hbecomes, fun later => copyOpen_fault hw (hnext later)⟩
      | .ok none => exact ⟨_, e', hbecomes, fun later => copyOpen_none hw (hnext later)⟩
      | .ok (some t) =>
        cases ht : t.excess? e.limit with
        | some excess =>
          exact ⟨_, e', hbecomes, fun later => copyOpen_excess hw (hnext later) ht⟩
        | none =>
          obtain ⟨b', e'', hbecomes', hrest⟩ := ih _ (hn ▸ hlt t rfl) (w.write t) e' rfl
          exact ⟨b', e'', hbecomes.trans hbecomes', fun later => by
            rw [copyOpen_token hw (hnext later) ht, hrest later]⟩

theorem untilEnd_closed {r : Reader} (hr : r.isOpen = false) : untilEnd r = (.ok [], r) := by
  rw [untilEnd, if_neg (by simp [hr])]

theorem untilEnd_fault {r r' : Reader} {fault : Fault} (hr : r.isOpen = true)
    (hnext : r.next = (.error fault, r')) : untilEnd r = (.error fault, r') := by
  rw [untilEnd, if_pos hr]
  split <;> rename_i heq <;> rw [hnext] at heq <;> simp_all

theorem untilEnd_none {r r' : Reader} (hr : r.isOpen = true)
    (hnext : r.next = (.ok none, r')) : untilEnd r = (.ok [], r') := by
  rw [untilEnd, if_pos hr]
  split <;> rename_i heq <;> rw [hnext] at heq <;> simp_all

theorem untilEnd_token {r r' : Reader} {t : Token} (hr : r.isOpen = true)
    (hnext : r.next = (.ok (some t), r')) :
    untilEnd r = ((untilEnd r').1.map (t :: ·), (untilEnd r').2) := by
  rw [untilEnd, if_pos hr]
  split <;> rename_i heq <;> rw [hnext] at heq
  · simp at heq
  · simp at heq
  · obtain ⟨ht, rfl⟩ := Prod.mk.inj heq
    obtain rfl : t = _ := by simpa using ht
    split <;> rename_i hrest <;> rw [hrest] <;> rfl

theorem untilEnd_local : Local untilEnd := by
  intro e
  induction hn : e.tokens.length using Nat.strongRecOn generalizing e with
  | ind n ih =>
    cases hopen : (e.further ++ [e.depth]).head? != some 0 with
    | false => exact ⟨.ok [], e, .refl e, fun later => untilEnd_closed hopen⟩
    | true =>
      obtain ⟨b, e', hbecomes, hnext, hlt⟩ := next_local e
      match b with
      | .error fault =>
        exact ⟨.error fault, e', hbecomes, fun later => untilEnd_fault hopen (hnext later)⟩
      | .ok none => exact ⟨.ok [], e', hbecomes, fun later => untilEnd_none hopen (hnext later)⟩
      | .ok (some t) =>
        obtain ⟨b', e'', hbecomes', hrest⟩ := ih _ (hn ▸ hlt t rfl) e' rfl
        refine ⟨b'.map (t :: ·), e'', hbecomes.trans hbecomes', fun later => ?_⟩
        rw [untilEnd_token (r := e.reader later) hopen (hnext later), hrest later]

/-! ## Skips -/

theorem skipThrough_local (e : Excerpt) : ∃ b, ∃ e' : Excerpt, e.Becomes e' ∧
    ∀ later, skipThrough (e.further ++ [e.depth])
      (before e.tokens (.on e.limit later) e.current) =
        (b, e'.further ++ [e'.depth], before e'.tokens (.on e'.limit later) e'.current) := by
  obtain ⟨limit, ts, current, further, depth, hts⟩ := e
  by_cases hopening : current.any Token.isOpening
  · induction further with
    | nil =>
      cases depth with
      | zero =>
        refine ⟨.ok (), ⟨limit, ts, current, [], 0, hts⟩, .refl _, fun later => ?_⟩
        simp [skipThrough]
      | succ depth =>
        -- the container whose opening token is current lies inside the view's container
        rw [Nat.add_comm] at hts
        obtain ⟨us, vs, rfl, hus, hvs⟩ := hts.exists_append
        refine ⟨.ok (), ⟨limit, vs, lastToken current us, [], depth, hvs⟩,
          ⟨rfl, rfl, us, rfl, rfl⟩, fun later => ?_⟩
        have hskip := skipOpen_before hus vs (.on limit later) current
        simp [skipThrough, Cursor.skipChildren, hopening, hskip]
    | cons d further ih =>
      by_cases hd : d = 0
      · refine ⟨.ok (), ⟨limit, ts, current, d :: further, depth, hts⟩, .refl _, fun later => ?_⟩
        simp [skipThrough, hd]
      · obtain ⟨b, ⟨limit', ts', current', further', depth', hts'⟩, hbecomes, hinner⟩ := ih
        dsimp only at hinner
        cases b with
        | error fault =>
          refine ⟨.error fault, ⟨limit', ts', current', d :: further', depth', hts'⟩,
            hbecomes.cons d _, fun later => ?_⟩
          simp [skipThrough, hd, hinner later, hopening]
        | ok answer =>
          refine ⟨.ok (), ⟨limit', ts', current', (d - 1) :: further', depth', hts'⟩,
            hbecomes.cons d _, fun later => ?_⟩
          simp [skipThrough, hd, hinner later, hopening]
  · refine ⟨.ok (), ⟨limit, ts, current, further, depth, hts⟩, .refl _, fun later => ?_⟩
    cases further <;> simp [skipThrough, before, hopening]

theorem skipChildren_local : Local skipChildren := by
  intro e
  obtain ⟨b, e', hbecomes, hskip⟩ := skipThrough_local e
  refine ⟨b, e', hbecomes, fun later => ?_⟩
  simp only [skipChildren, Excerpt.reader, hskip later]

/-! ## Calls and programs -/

theorem copy_local : Local copy := by
  intro e
  have hcurrent : ∀ later, (e.reader later).current = e.current := fun later => rfl
  match h : e.current with
  | some (.opening shape) =>
    obtain ⟨b, e', hbecomes, hcopy⟩ := copyOpen_local (.start shape) e
    refine ⟨b, e', hbecomes, fun later => ?_⟩
    rw [copy_opening ((hcurrent later).trans h), hcopy]
  | some (.scalar value) =>
    have hscalar : ∀ later, (e.reader later).current = some (.scalar value) :=
      fun later => (hcurrent later).trans h
    cases hvalue : value.excess? e.limit with
    | some excess =>
      exact ⟨_, e, .refl e, fun later => copy_scalar_excess (hscalar later) hvalue⟩
    | none => exact ⟨_, e, .refl e, fun later => copy_scalar (hscalar later) hvalue⟩
  | some (.closing _) | some (.key _) | none =>
    exact ⟨⟨.error (.notCopyable _), ""⟩, e, .refl e, fun later => by rw [copy, hcurrent, h]⟩

theorem close_local : Local close := by
  intro e
  refine ⟨.error .viewNotClosable, e, .refl e, fun later => ?_⟩
  simp only [close, Excerpt.reader]
  split
  · simp_all
  · rfl

theorem answer_local (call : Call) : Local (answer · call) := by
  cases call with
  | attend => exact fun e => ⟨.ok (), e, .refl e, fun later => rfl⟩
  | current => exact fun e => ⟨.ok e.current, e, .refl e, fun later => rfl⟩
  | next => exact pull_local _ _
  | name => exact pull_local _ _
  | text => exact pull_local _ _
  | boolean => exact pull_local _ _
  | integer => exact pull_local _ _
  | skip => exact skipChildren_local
  | drain => exact drain_local
  | close => exact close_local
  | copy =>
    intro e
    obtain ⟨b, e', hbecomes, hcopy⟩ := copy_local e
    exact ⟨.ok b, e', hbecomes, fun later => by simp only [answer, hcopy later]⟩
  | untilEnd => exact untilEnd_local
  | depth =>
    exact fun e => ⟨.ok ((e.further ++ [e.depth]).headD 0), e, .refl e, fun later => rfl⟩

end Reader

theorem Reading.run_local {β : Type} (reading : Reading β) (e : Excerpt) :
    ∃ b log, ∃ e' : Excerpt, e.Becomes e' ∧
      ∀ later, reading.run (e.reader later) = ⟨b, e'.reader later, log⟩ := by
  induction reading generalizing e with
  | give result => exact ⟨result, [], e, .refl e, fun later => rfl⟩
  | report entry rest ih =>
    obtain ⟨b, log, e', hbecomes, hrun⟩ := ih e
    exact ⟨b, entry :: log, e', hbecomes, fun later => by simp only [run, hrun later]⟩
  | ask call rest ih =>
    obtain ⟨reply, e', hbecomes, hanswer⟩ := Reader.answer_local call e
    obtain ⟨b, log, e'', hbecomes', hrun⟩ := ih reply e'
    exact ⟨b, log, e'', hbecomes.trans hbecomes', fun later => by
      simp only [run, hanswer later, hrun later]⟩

/-- A program on a container does not depend on what follows the container. -/
theorem Program.run_local {β : Type} (program : Program β) (e : Excerpt) :
    ∃ b log, ∃ e' : Excerpt, e.Becomes e' ∧
      ∀ later, program.run (e.reader later) = ⟨b, e'.reader later, log⟩ := by
  obtain ⟨reading, -, hreading⟩ :=
    program.exists_reading (e.reader (.finished e.limit)).cursor.pending.length
  obtain ⟨b, log, e', hbecomes, hrun⟩ := reading.run_local e
  refine ⟨b, log, e', hbecomes, fun later => ?_⟩
  -- a reading that serves for both sources does on each what the program does
  obtain ⟨reading', -, hreading'⟩ := program.exists_reading
    ((e.reader (.finished e.limit)).cursor.pending.length + (e.reader later).cursor.pending.length)
  obtain ⟨b', log', e'', -, hrun'⟩ := reading'.run_local e
  have hfinished := hreading' (e.reader (.finished e.limit)) (Nat.le_add_right _ _)
  have hlater := hreading' (e.reader later) (Nat.le_add_left _ _)
  rw [← hreading _ (Nat.le_refl _), hrun, hrun', Reading.Run.mk.injEq] at hfinished
  obtain ⟨rfl, hreader, rfl⟩ := hfinished
  obtain rfl := Excerpt.ext_reader hreader
  rw [← hlater, hrun']

end JsonCleave
