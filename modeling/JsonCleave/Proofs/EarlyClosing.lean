import JsonCleave.Proofs.ContainerEnd
import JsonCleave.Proofs.Harvest
/-!
# Views closed before the end of their container

When the tokens run out inside a container, every call on its view that meets the end fails and
leaves the view open, except a skip. A skip lowers the depth nevertheless, and so closes the view if
it is the first call that reads.
-/

namespace JsonCleave

namespace Call

def isIdle : Call → Bool
  | .attend | .current | .close | .depth => true
  | _ => false

def isPull : Call → Bool
  | .next | .name | .text | .boolean | .integer | .drain | .untilEnd => true
  | _ => false

/-- The first call of the list that reads tokens. -/
def firstReading? (calls : List Call) : Option Call := calls.find? fun call => !call.isIdle

def fault? : (call : Call) → Except Fault call.Answer → Option Fault
  | .copy, .ok (made : Reader.Copy) =>
    match made.outcome with
    | .ok _ => none
    | .error fault => some fault
  | _, .ok _ => none
  | _, .error fault => some fault

end Call

def Reading.callsOn {β : Type} : Reading β → Reader → List Call
  | .give _, _ => []
  | .report _ rest, r => rest.callsOn r
  | .ask call rest, r => call :: (rest (r.answer call).1).callsOn (r.answer call).2

namespace Reader

open Cursor (before)

def afterCalls (r : Reader) (calls : List Call) : Reader :=
  calls.foldl (fun r call => (r.answer call).2) r

/-- The call finds no more tokens. -/
def MeetsEnd (r : Reader) (call : Call) : Prop :=
  (r.answer call).2.current = none ∧ (r.current ≠ none ∨ call.isPull)

theorem Steady.afterCalls {Holds : Reader → Prop} (h : Steady Holds) {r : Reader} (hr : Holds r)
    (calls : List Call) : Holds (r.afterCalls calls) := by
  induction calls generalizing r with
  | nil => exact hr
  | cons call calls ih => exact ih (h.answer call hr)

theorem answer_idle {call : Call} (hcall : call.isIdle = true) (c : Cursor) (depth : Nat) :
    (answer ⟨c, [depth]⟩ call).2 = ⟨c, [depth]⟩ := by
  cases call <;> first | rfl | cases hcall

variable {limit : DigitLimit}

theorem untilEnd_before_finished {depth : Nat} {ts : List Token} (h : StaysOpen depth ts)
    (current : Option Token) :
    untilEnd ⟨before ts (.finished limit) current, [depth]⟩ =
      (.error .unfinishedView, ⟨before [] (.finished limit) none, [depthAfter depth ts]⟩) := by
  induction ts generalizing depth current with
  | nil =>
    have hopen : isOpen ⟨before [] (.finished limit) current, [depth]⟩ = true := by
      simpa [isOpen] using Nat.pos_iff_ne_zero.mp h.depth_pos
    exact untilEnd_fault hopen
      (pull_of_next_none _ _ h.depth_pos (Cursor.next_before_finished limit current))
  | cons t ts ih =>
    have hopen : isOpen ⟨before (t :: ts) (.finished limit) current, [depth]⟩ = true := by
      simpa [isOpen] using Nat.pos_iff_ne_zero.mp h.depth_pos
    rw [untilEnd_token hopen
      (next_before_cons (by simpa using h.depth_pos) t ts (.finished limit) current)]
    have hrest := ih ((staysOpen_cons h.depth_pos).mp h) (some t)
    rw [List.map_singleton, hrest]
    rfl

/-! ## Views of containers that are not closed -/

/-- A view of an unclosed container after a reading call. Its depth counts the opening brackets
read, the current one included. -/
inductive StillOpen (limit : DigitLimit) : Reader → Prop
  | inside {left : List Token} {depth : Nat} {t : Token} (hleft : StaysOpen depth left)
      (hinner : t.isOpening = true → 1 < depth) :
      StillOpen limit ⟨before left (.finished limit) (some t), [depth]⟩
  | behind {depth : Nat} (hdepth : 0 < depth) :
      StillOpen limit ⟨before [] (.finished limit) none, [depth]⟩

theorem stillOpen_pull {β : Type} (closed : Except Fault β) (project : Option Token → β)
    {left : List Token} {depth : Nat} (hleft : StaysOpen depth left) (current : Option Token) :
    StillOpen limit (pull closed project ⟨before left (.finished limit) current, [depth]⟩).2 := by
  have hpos := hleft.depth_pos
  cases left with
  | nil =>
    rw [pull_of_next_none closed project hpos (Cursor.next_before_finished limit _)]
    exact .behind hpos
  | cons t left =>
    rw [pull_before_cons closed project (by simpa using hpos)]
    refine .inside ((staysOpen_cons hpos).mp hleft) fun hopening => ?_
    cases t <;> simp_all [Token.isOpening]

theorem StillOpen.steady : Steady (StillOpen limit) where
  pull closed project r hr := by
    cases hr with
    | inside hleft hinner => exact stillOpen_pull closed project hleft _
    | behind hdepth =>
      rw [pull_of_next_none closed project hdepth (Cursor.next_before_finished limit _)]
      exact .behind hdepth
  skip r hr := by
    cases hr with
    | @inside left depth t hleft hinner =>
      cases hopening : t.isOpening with
      | false =>
        rw [skipChildren_idle (c := before left (.finished limit) (some t)) (.inr hopening)]
        exact .inside hleft hinner
      | true =>
        have hdepth := hinner hopening
        have hpos : 0 < depth := by omega
        rw [skipChildren_opening (c := before left (.finished limit) (some t)) hpos hopening]
        rcases exists_closes_or_staysOpen Nat.one_pos left with ⟨us, vs, rfl, hus⟩ | hopen
        · obtain ⟨closer, hlast⟩ := hus.exists_lastToken Nat.one_pos (some t)
          rw [Cursor.skipOpen_before hus, hlast]
          have hvs : StaysOpen (depth - 1) vs := by
            apply StaysOpen.behind (m := 1) _ hus
            rwa [Nat.add_sub_cancel' (by omega)]
          exact .inside hvs (by simp [Token.isOpening])
        · rw [Cursor.skipOpen_runs_out_finished hopen]
          exact .behind (by omega)
    | behind hdepth =>
      rw [skipChildren_idle (.inr rfl)]
      exact .behind hdepth
  close r hr := by
    cases hr with
    | inside hleft hinner => exact .inside hleft hinner
    | behind hdepth => exact .behind hdepth

def closedEarly (limit : DigitLimit) : Reader := ⟨before [] (.finished limit) none, [0]⟩

theorem steady_closedEarly : Steady (· = closedEarly limit) where
  pull closed project r hr := by rw [hr]; rfl
  skip r hr := by rw [hr]; rfl
  close r hr := by rw [hr]; rfl

variable {shape : Shape} {ts : List Token}

theorem stillOpen_first (hts : StaysOpen 1 ts) (shape : Shape) {call : Call}
    (hidle : call.isIdle = false) (hskip : call ≠ .skip) :
    StillOpen limit
      (answer ⟨before ts (.finished limit) (some (.opening shape)), [1]⟩ call).2 := by
  have hend : StillOpen limit ⟨before [] (.finished limit) none, [depthAfter 1 ts]⟩ :=
    .behind hts.depthAfter_pos
  cases call with
  | attend => cases hidle
  | current => cases hidle
  | close => cases hidle
  | depth => cases hidle
  | skip => exact absurd rfl hskip
  | next => exact stillOpen_pull _ _ hts _
  | name => exact stillOpen_pull _ _ hts _
  | text => exact stillOpen_pull _ _ hts _
  | boolean => exact stillOpen_pull _ _ hts _
  | integer => exact stillOpen_pull _ _ hts _
  | drain =>
    rw [answer, drain_before_finished hts]
    exact hend
  | untilEnd =>
    rw [answer, untilEnd_before_finished hts]
    exact hend
  | copy =>
    have hone : ∀ d ∈ [1], (Writer.start shape).levels.length ≤ d := by simp [Writer.start]
    have hcopy : copy ⟨before ts (.finished limit) (some (.opening shape)), [1]⟩ = _ :=
      copy_opening rfl
    rw [answer, hcopy]
    rcases printable_or_exists_excess limit ts with
      hprint | ⟨us, t, vs, excess, rfl, hus, ht⟩
    · rw [copyOpen_before_ends (w := .start shape) (Cursor.next_before_finished limit) hts hprint
        hone (Nat.le_refl 1)]
      exact hend
    · -- the copy stops at the integer, with the tokens behind it left
      obtain ⟨value, rfl⟩ := Token.exists_scalar_of_excess ht
      have hvs := hts.suffix
      rw [staysOpen_cons hvs.depth_pos] at hvs
      rw [copyOpen_before_excess (w := .start shape) hts.of_append hus hone ht]
      simpa using StillOpen.inside (t := .scalar value) hvs (by simp [Token.isOpening])

theorem skipChildren_first (hts : StaysOpen 1 ts) (shape : Shape) :
    skipChildren ⟨before ts (.finished limit) (some (.opening shape)), [1]⟩ =
      (.ok (), closedEarly limit) := by
  rw [skipChildren_opening (c := before ts (.finished limit) _) Nat.one_pos rfl,
    Cursor.skipOpen_runs_out_finished hts]
  rfl

/-- State of the view after any calls, by the first of them that reads. -/
theorem afterCalls_cases (hts : StaysOpen 1 ts) (shape : Shape) (calls : List Call) :
    let v : Reader := ⟨before ts (.finished limit) (some (.opening shape)), [1]⟩
    (Call.firstReading? calls = none → v.afterCalls calls = v) ∧
      (Call.firstReading? calls = some .skip → v.afterCalls calls = closedEarly limit) ∧
      ∀ call, Call.firstReading? calls = some call → call ≠ .skip →
        StillOpen limit (v.afterCalls calls) := by
  intro v
  induction calls with
  | nil => exact ⟨fun _ => rfl, by simp [Call.firstReading?], by simp [Call.firstReading?]⟩
  | cons call calls ih =>
    cases hidle : call.isIdle with
    | true =>
      have hsame : v.afterCalls (call :: calls) = v.afterCalls calls :=
        congrArg (afterCalls · calls) (answer_idle hidle _ _)
      have hfirst : Call.firstReading? (call :: calls) = Call.firstReading? calls := by
        simp [Call.firstReading?, hidle]
      rwa [hsame, hfirst]
    | false =>
      have hfirst : Call.firstReading? (call :: calls) = some call := by
        simp [Call.firstReading?, hidle]
      rw [hfirst]
      refine ⟨by simp, fun h => ?_, fun call' h hskip => ?_⟩
      · obtain rfl := Option.some.inj h
        have hclosed : (v.answer .skip).2 = closedEarly limit :=
          congrArg Prod.snd (skipChildren_first hts shape)
        exact steady_closedEarly.afterCalls hclosed calls
      · obtain rfl := Option.some.inj h
        exact StillOpen.steady.afterCalls (stillOpen_first hts shape hidle hskip) calls

/-! ## Calls that meet the end -/

section

variable {left : List Token} {depth : Nat} (hleft : StaysOpen depth left) (current : Option Token)

include hleft

theorem pull_of_end {β : Type} (closed : Except Fault β) (project : Option Token → β)
    (hend :
      (pull closed project ⟨before left (.finished limit) current, [depth]⟩).2.current = none) :
    (pull closed project ⟨before left (.finished limit) current, [depth]⟩).1 =
      .error .unfinishedView := by
  have hpos := hleft.depth_pos
  cases left with
  | nil => rw [pull_of_next_none closed project hpos (Cursor.next_before_finished limit _)]
  | cons t left =>
    rw [pull_before_cons closed project (by simpa using hpos)] at hend
    cases hend

theorem copy_of_end (hcurrent : current ≠ none)
    (hend : (copy ⟨before left (.finished limit) current, [depth]⟩).2.current = none) :
    (copy ⟨before left (.finished limit) current, [depth]⟩).1.outcome = .error .unfinishedView := by
  match current with
  | none => exact absurd rfl hcurrent
  | some (.scalar value) =>
    rw [reader_copy_scalar rfl] at hend
    cases hend
  | some (.closing shape) => cases hend
  | some (.key name) => cases hend
  | some (.opening shape) =>
    have hone : ∀ d ∈ [depth], (Writer.start shape).levels.length ≤ d := by
      intro d hd
      rw [List.mem_singleton.mp hd]
      exact hleft.depth_pos
    have hcopy : copy ⟨before left (.finished limit) (some (.opening shape)), [depth]⟩ = _ :=
      copy_opening rfl
    rw [hcopy] at hend ⊢
    rcases closes_or_staysOpen_or_excess limit Nat.one_pos left with
      ⟨us, vs, rfl, hus, hprint⟩ | ⟨hopen, hprint⟩ | ⟨us, t, vs, excess, rfl, hus, hprint, ht⟩
    · obtain ⟨closer, hlast⟩ := hus.exists_lastToken Nat.one_pos (some (.opening shape))
      rw [copyOpen_before (w := .start shape) hus hprint hone, hlast] at hend
      cases hend
    · rw [copyOpen_before_ends (w := .start shape) (Cursor.next_before_finished limit) hopen
        hprint hone (Nat.le_refl 1)]
      rfl
    · rw [copyOpen_before_excess (w := .start shape) hus hprint hone ht] at hend
      cases hend

theorem fault?_of_meetsEnd {call : Call}
    (hend : MeetsEnd ⟨before left (.finished limit) current, [depth]⟩ call) :
    call.fault? (answer ⟨before left (.finished limit) current, [depth]⟩ call).1 =
      if call = .skip then none else some .unfinishedView := by
  obtain ⟨hnone, hasks⟩ := hend
  have hfails {β : Type} (closed : Except Fault β) (project : Option Token → β)
      (hpulled : (pull closed project
        ⟨before left (.finished limit) current, [depth]⟩).2.current = none) :=
    pull_of_end hleft current closed project hpulled
  cases call with
  | attend => exact absurd hnone (hasks.resolve_right (by simp [Call.isPull]))
  | current => exact absurd hnone (hasks.resolve_right (by simp [Call.isPull]))
  | close => exact absurd hnone (hasks.resolve_right (by simp [Call.isPull]))
  | depth => exact absurd hnone (hasks.resolve_right (by simp [Call.isPull]))
  | next => exact congrArg (Call.fault? .next) (hfails _ _ hnone)
  | name => exact congrArg (Call.fault? .name) (hfails _ _ hnone)
  | text => exact congrArg (Call.fault? .text) (hfails _ _ hnone)
  | boolean => exact congrArg (Call.fault? .boolean) (hfails _ _ hnone)
  | integer => exact congrArg (Call.fault? .integer) (hfails _ _ hnone)
  | drain => rw [answer, drain_before_finished hleft]; rfl
  | untilEnd => rw [answer, untilEnd_before_finished hleft]; rfl
  | copy =>
    have hcurrent := hasks.resolve_right (by simp [Call.isPull])
    simp only [answer, Call.fault?, copy_of_end hleft current hcurrent hnone]
    rfl
  | skip =>
    have hpos := hleft.depth_pos
    cases hopening : current.any Token.isOpening with
    | false =>
      rw [answer, skipChildren_idle (c := before left (.finished limit) current) (.inr hopening)]
      rfl
    | true =>
      rw [answer, skipChildren_opening (c := before left (.finished limit) current) hpos hopening]
      rcases exists_closes_or_staysOpen Nat.one_pos left with ⟨us, vs, rfl, hus⟩ | hopen
      · rw [Cursor.skipOpen_before hus]; rfl
      · rw [Cursor.skipOpen_runs_out_finished hopen]; rfl

end

theorem StillOpen.exists_left {r : Reader} (h : StillOpen limit r) :
    ∃ left depth current, r = ⟨before left (.finished limit) current, [depth]⟩ ∧
      StaysOpen depth left := by
  cases h with
  | inside hleft hinner => exact ⟨_, _, _, rfl, hleft⟩
  | @behind depth hdepth =>
    refine ⟨[], depth, none, rfl, ?_⟩
    cases depth with
    | zero => omega
    | succ depth => trivial

theorem afterCalls_open (hts : StaysOpen 1 ts) (shape : Shape) (calls : List Call) :
    let v : Reader := ⟨before ts (.finished limit) (some (.opening shape)), [1]⟩
    (Call.firstReading? calls = some .skip ∧ v.afterCalls calls = closedEarly limit) ∨
      Call.firstReading? calls ≠ some .skip ∧
        ∃ left depth current,
          v.afterCalls calls = ⟨before left (.finished limit) current, [depth]⟩ ∧
            StaysOpen depth left := by
  obtain ⟨hnone, hskip, hsome⟩ := afterCalls_cases hts shape calls
  cases hfirst : Call.firstReading? calls with
  | none => exact .inr ⟨by simp, ts, 1, _, hnone hfirst, hts⟩
  | some call =>
    by_cases hcall : call = .skip
    · subst hcall
      exact .inl ⟨rfl, hskip hfirst⟩
    · exact .inr ⟨by simpa using hcall, (hsome call hfirst hcall).exists_left⟩

theorem isOpen_of_staysOpen {left : List Token} {depth : Nat} (hleft : StaysOpen depth left)
    (c : Cursor) : isOpen ⟨c, [depth]⟩ = true := by
  simpa [isOpen] using Nat.pos_iff_ne_zero.mp hleft.depth_pos

theorem isOpen_afterCalls_iff (hts : StaysOpen 1 ts) (shape : Shape) (calls : List Call) :
    (afterCalls ⟨before ts (.finished limit) (some (.opening shape)), [1]⟩ calls).isOpen = false ↔
      Call.firstReading? calls = some .skip := by
  rcases afterCalls_open hts shape calls with ⟨hfirst, hafter⟩ |
    ⟨hfirst, left, depth, current, hafter, hleft⟩
  · rw [hafter]
    exact ⟨fun _ => hfirst, fun _ => rfl⟩
  · rw [hafter, isOpen_of_staysOpen hleft]
    exact ⟨fun h => absurd h (by simp), fun h => absurd h hfirst⟩

end Reader

theorem Reading.reader_run {β : Type} (reading : Reading β) (r : Reader) :
    (reading.run r).reader = r.afterCalls (reading.callsOn r) := by
  induction reading generalizing r with
  | give result => rfl
  | report entry rest ih => exact ih r
  | ask call rest ih => exact ih _ _

/-! ## Walks that come to such a container -/

namespace Turn

open Cursor (before)

variable {σ α : Type} {p : Policy σ α} {limit : DigitLimit}

/-- The traversal reaches a container that the policy processes, with cursor `c'` behind its opening
bracket and policy state `state'`. -/
inductive ComesTo (p : Policy σ α) :
    List (Option String) → Cursor → σ → Shape → Cursor → σ → Prop
  | here {keys : List (Option String)} {c c' : Cursor} {state state' : σ} {shape : Shape}
      (hnext : c.next = (.ok (some (.opening shape)), c'))
      (henter : p.enter shape (keyOf keys) state = (.ok .process, state')) :
      ComesTo p keys c state shape c' state'
  | onward {keys : List (Option String)} {c c' c'' : Cursor} {state state' : σ} {t : Token}
      {shape : Shape} (hnext : c.next = (.ok (some t), c'))
      (hvisit : (visit p t keys c' state).outcome = .ok none)
      (hlater : ComesTo p (visit p t keys c' state).keys (visit p t keys c' state).cursor
        (visit p t keys c' state).state shape c'' state') : ComesTo p keys c state shape c'' state'

/-- Outcome of processing an unclosed container: the result of the builder if its first reading call
is a skip, and the fault of the view otherwise. -/
def unfinishedOutcome (calls : List Call) (built : Except Fault (Option α)) :
    Except Fault (Option α) :=
  match built with
  | .error fault => .error fault
  | .ok handle =>
    if Call.firstReading? calls = some .skip then .ok handle else .error .unfinishedView

variable {ts : List Token} (hts : StaysOpen 1 ts) {shape : Shape} {state' : σ}

include hts

theorem process_unfinished (keys : List (Option String))
    {reading : Reading (Except Fault (Option α) × σ)}
    (hreading :
      reading.run (Reader.view ⟨before ts (.finished limit) (some (.opening shape)), []⟩) =
        (p.build state').run
          (Reader.view ⟨before ts (.finished limit) (some (.opening shape)), []⟩)) :
    let v := Reader.view ⟨before ts (.finished limit) (some (.opening shape)), []⟩
    let turn := process p keys (before ts (.finished limit) (some (.opening shape))) state'
    turn.outcome = unfinishedOutcome (reading.callsOn v) (reading.run v).result.1 ∧
      (turn.outcome = .ok none → turn.cursor = before [] (.finished limit) none) := by
  intro v turn
  have hreader := reading.reader_run v
  simp only [turn, process]
  rw [← hreading, hreader]
  rcases (reading.run v).result with ⟨fault | handle, state''⟩
  · exact ⟨rfl, by simp⟩
  · dsimp only [unfinishedOutcome]
    rcases Reader.afterCalls_open hts shape (reading.callsOn v) with ⟨hfirst, hafter⟩ |
      ⟨hfirst, left, depth, current, hafter, hleft⟩
    · rw [if_pos hfirst, show v.afterCalls _ = _ from hafter,
        Reader.drain_closed (r := Reader.closedEarly limit) rfl]
      exact ⟨rfl, fun _ => rfl⟩
    · rw [if_neg hfirst, show v.afterCalls _ = _ from hafter, Reader.drain_before_finished hleft]
      exact ⟨rfl, by simp⟩

theorem ComesTo.outcome_traverse {keys : List (Option String)} {c : Cursor} {state : σ}
    (h : ComesTo p keys c state shape (before ts (.finished limit) (some (.opening shape))) state')
    {reading : Reading (Except Fault (Option α) × σ)}
    (hreading :
      reading.run (Reader.view ⟨before ts (.finished limit) (some (.opening shape)), []⟩) =
        (p.build state').run
          (Reader.view ⟨before ts (.finished limit) (some (.opening shape)), []⟩))
    (log : List Entry) :
    let v := Reader.view ⟨before ts (.finished limit) (some (.opening shape)), []⟩
    (traverse p log keys c state).outcome =
      unfinishedOutcome (reading.callsOn v) (reading.run v).result.1 := by
  intro v
  generalize hc' : before ts (.finished limit) (some (.opening shape)) = c' at h
  induction h generalizing log with
  | @here keys c c' state state' shape hnext henter =>
    subst hc'
    obtain ⟨houtcome, hcursor⟩ := process_unfinished hts keys hreading
    have hvisit :
        visit p (.opening shape) keys (before ts (.finished limit) (some (.opening shape))) state =
          process p keys (before ts (.finished limit) (some (.opening shape))) state' := by
      simp only [visit, henter, follow]
    rw [traverse_token log hnext, hvisit, ← houtcome]
    split
    · rename_i hnone
      rw [traverse_end _ (by rw [hcursor hnone]; exact Cursor.next_before_finished limit none),
        hnone]
    · rfl
  | onward hnext hvisit hlater ih =>
    rw [traverse_token log hnext, hvisit]
    exact ih hreading _ hc'

end Turn

def Outcome.ofTraversal {α : Type} : Except Fault (Option α) → Outcome α
  | .error fault => .failed (fault.leaving .traverse)
  | .ok none => .stopped
  | .ok (some a) => .item a

theorem Walk.outcome_nextHandle {σ α : Type} {p : Policy σ α} {w : Walk} {s : Scene σ}
    (hw : w.finished = false) :
    (w.nextHandle p s).outcome =
      .ofTraversal (Turn.traverse p [] w.keys s.cursor s.state).outcome := by
  simp only [nextHandle, hw, Bool.false_eq_true, ↓reduceIte]
  rcases (Turn.traverse p [] w.keys s.cursor s.state).outcome with fault | (_ | a)
  · rfl
  · rfl
  · rfl

namespace Reader

open Cursor (before)

/-- For tokens that run out inside a container: after any calls, a view on it is closed iff the
first reading call was a skip, and every call but a skip that meets the end of the tokens fails. A
pull that processes such a container fails unless its builder reads first by a skip; then its item
is what the builder returns. -/
theorem unfinished_view_closes_iff (limit : DigitLimit) {ts : List Token} (hts : StaysOpen 1 ts)
    (shape : Shape) :
    let c := before ts (.finished limit) (some (.opening shape))
    let v := view ⟨c, []⟩
    (∀ calls, (v.afterCalls calls).isOpen = false ↔ Call.firstReading? calls = some .skip) ∧
      (∀ calls call, (v.afterCalls calls).isOpen = true → MeetsEnd (v.afterCalls calls) call →
        call.fault? ((v.afterCalls calls).answer call).1 =
          if call = .skip then none else some .unfinishedView) ∧
      ∀ {σ α : Type} (p : Policy σ α) (w : Walk) (s : Scene σ) (state : σ)
        (reading : Reading (Except Fault (Option α) × σ)), w.finished = false →
        Turn.ComesTo p w.keys s.cursor s.state shape c state →
        reading.run v = (p.build state).run v →
        (w.nextHandle p s).outcome =
          match (reading.run v).result.1 with
          | .error fault => .failed (fault.leaving .traverse)
          | .ok handle =>
            if Call.firstReading? (reading.callsOn v) = some .skip then
              handle.elim .stopped .item
            else .failed .unfinishedView := by
  intro c v
  refine ⟨isOpen_afterCalls_iff hts shape, fun calls call hopen hend => ?_,
    fun p w s state reading hw hcomes hreading => ?_⟩
  · rcases afterCalls_open hts shape calls with ⟨-, hafter⟩ |
      ⟨-, left, depth, current, hafter, hleft⟩
    · rw [show v.afterCalls calls = _ from hafter] at hopen
      cases hopen
    · rw [show v.afterCalls calls = _ from hafter] at hend ⊢
      exact fault?_of_meetsEnd hleft current hend
  · rw [Walk.outcome_nextHandle hw, hcomes.outcome_traverse hts hreading]
    dsimp only [Turn.unfinishedOutcome]
    rcases (reading.run v).result.1 with fault | handle
    · rfl
    · dsimp only
      split
      · cases handle <;> rfl
      · rfl

theorem skip_closes_unfinished_view :
    let v := view ⟨before [] (.finished .standard) (some (.opening .object)), []⟩
    StaysOpen 1 [] ∧ MeetsEnd v .skip ∧ (v.answer .skip).1 = .ok () ∧
      (v.answer .skip).2.isOpen = false := by
  intro v
  have hts : StaysOpen 1 [] := trivial
  have hskip : v.answer .skip = (.ok (), closedEarly .standard) := skipChildren_first hts .object
  have hcurrent : (v.answer .skip).2.current = none := by rw [hskip]; rfl
  exact ⟨hts, ⟨hcurrent, .inl (by simp [v, view, current])⟩, by rw [hskip], by rw [hskip]; rfl⟩

end Reader

namespace Policy

def arraySkipping : Policy Nat Payload :=
  { array with
    build := fun openArrays =>
      .ofReading (.ask .skip fun _ => .give (.ok (some ⟨"taken", .json⟩), openArrays)) }

theorem takes_unfinished_view :
    let ts : List Token := [.key "a", .opening .array, .scalar .null]
    let s : Scene Nat := ⟨.ofFeed (.ofTokens (.opening .array :: .opening .object :: ts)), 0, 0⟩
    StaysOpen 1 ts ∧
      (Walk.nextHandle arraySkipping {} s).outcome = .item ⟨"taken", .json⟩ := by
  intro ts s
  have hts : StaysOpen 1 ts := by simp [ts, StaysOpen]
  obtain ⟨-, -, hpulls⟩ := Reader.unfinished_view_closes_iff .standard hts .object
  have hnext : s.cursor.next = (.ok (some (.opening .array)),
      .before (.opening .object :: ts) (.finished .standard) (some (.opening .array))) := rfl
  have hcomes : Turn.ComesTo arraySkipping [] s.cursor 0 .object
      (.before ts (.finished .standard) (some (.opening .object))) 1 :=
    .onward hnext rfl (.here rfl rfl)
  exact ⟨hts, hpulls arraySkipping {} s 1 _ rfl hcomes rfl⟩

end Policy

end JsonCleave
