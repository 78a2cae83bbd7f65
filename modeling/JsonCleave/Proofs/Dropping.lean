import JsonCleave.Proofs.Discarding
import JsonCleave.Proofs.Record
/-!
# Skipping and dropping agree

A policy that skips some containers, and a variant that processes them, reads of them by calls that
do not fail, and returns no handle, agree pull by pull.
-/

namespace JsonCleave

variable {σ τ ρ α β : Type}

/-! ## From the answers to the pulls -/

/-- `q` answers as `p` in related states, except that it may process and drop the containers `p`
skips; states in which it is about to do so are related by `D`. -/
structure Policy.Drops (R D : σ → τ → Prop) (p : Policy σ α) (q : Policy τ α) : Prop where
  enter (shape : Shape) (key : Option String) {s : σ} {t : τ} (hst : R s t) :
    Alike R id (p.enter shape key s) (q.enter shape key t) ∨
      ∃ s' t', p.enter shape key s = (.ok .skip, s') ∧
        q.enter shape key t = (.ok .process, t') ∧ D s' t'
  leave (shape : Shape) (key : Option String) {s : σ} {t : τ} (hst : R s t) :
    Alike R id (p.leave shape key s) (q.leave shape key t)
  build (r : Reader) {s : σ} {t : τ} (hst : R s t) :
    Alike R id ((p.build s).run r).result ((q.build t).run r).result ∧
      ((q.build t).run r).reader = ((p.build s).run r).reader
  drop (r : Reader) {s : σ} {t : τ} (hst : D s t) :
    ∃ t', ((q.build t).run r).result = (.ok none, t') ∧ R s t'
  request (serial : Nat) (a : α) {s : σ} {t : τ} (hst : R s t) :
    Alike R id (p.request serial a s) (q.request serial a t)

structure Pull.Agrees (R : σ → τ → Prop) (x : Pull σ β) (y : Pull τ β) : Prop where
  outcome : y.outcome = x.outcome
  walk : y.walk = x.walk
  scene : x.scene.Mirrors R y.scene

def Turn.DropsQuietly (D : σ → τ → Prop) (q : Policy τ α) (keys : List (Option String))
    (c : Cursor) (t : τ) : Prop :=
  ∀ shape c' s' t', ComesTo q keys c t shape c' t' → D s' t' →
    (q.build t').RaisesNothing (Reader.view ⟨c', []⟩)

section

variable {R D : σ → τ → Prop} {p : Policy σ α} {q : Policy τ α}

namespace Turn

variable (keys : List (Option String)) {c c' : Cursor} {s : σ} {t : τ}

theorem agrees_process (h : p.Drops R D q) (hst : R s t) :
    (process p keys c s).Agrees R (process q keys c t) := by
  obtain ⟨⟨hanswer, hstate⟩, hreader⟩ := h.build (Reader.view ⟨c, []⟩) hst
  rcases hp : ((p.build s).run (Reader.view ⟨c, []⟩)).result with ⟨answer, s'⟩
  rcases hq : ((q.build t).run (Reader.view ⟨c, []⟩)).result with ⟨answer', t'⟩
  rw [hp, hq] at hanswer hstate
  obtain rfl : answer' = answer := hanswer
  simp only [process, hp, hq, hreader]
  cases answer' with
  | error fault => exact ⟨rfl, rfl, rfl, hstate⟩
  | ok handle =>
    rcases ((p.build s).run (Reader.view ⟨c, []⟩)).reader.drain with ⟨fault | _, r⟩
    · exact ⟨rfl, rfl, rfl, hstate⟩
    · exact ⟨rfl, rfl, rfl, hstate⟩

theorem agrees_follow (h : p.Drops R D q) (hst : R s t) (shape : Shape) (decision : Decision) :
    (follow p shape decision keys c s).Agrees R (follow q shape decision keys c t) := by
  cases decision with
  | descend => cases shape <;> exact ⟨rfl, rfl, rfl, hst⟩
  | process => exact agrees_process keys h hst
  | unknown answer => exact ⟨rfl, rfl, rfl, hst⟩
  | skip =>
    simp only [follow]
    rcases c.skipChildren with ⟨fault | _, c'⟩
    · exact ⟨rfl, rfl, rfl, hst⟩
    · exact ⟨rfl, rfl, rfl, hst⟩

theorem agrees_visit (h : p.Drops R D q) (hst : R s t) (hc : c.IsHonest)
    (hquiet : DropsQuietly D q keys c t) {token : Token}
    (hnext : c.next = (.ok (some token), c')) :
    (visit p token keys c' s).Agrees R (visit q token keys c' t) := by
  cases token with
  | key name => exact ⟨rfl, rfl, rfl, hst⟩
  | scalar value => exact ⟨rfl, rfl, rfl, hst⟩
  | opening shape =>
    rcases h.enter shape (keyOf keys) hst with ⟨hanswer, hstate⟩ | ⟨s', t', hp, hq, hdrop⟩
    · rcases hp : p.enter shape (keyOf keys) s with ⟨answer, s'⟩
      rcases hq : q.enter shape (keyOf keys) t with ⟨answer', t'⟩
      rw [hp, hq] at hanswer hstate
      obtain rfl : answer' = answer := hanswer
      simp only [visit, hp, hq]
      cases answer' with
      | error fault => exact ⟨rfl, rfl, rfl, hstate⟩
      | ok decision => exact agrees_follow keys h hstate shape decision
    · -- the container that `p` skips, `q` drops
      obtain ⟨t'', hbuild, hstate⟩ := h.drop (Reader.view ⟨c', []⟩) hdrop
      simp only [visit, hp, hq]
      exact agrees_drop hc hnext hbuild hstate (hquiet shape c' s' t' (.here hnext hq) hdrop) keys
  | closing shape =>
    obtain ⟨hanswer, hstate⟩ := h.leave shape (keyOf keys) hst
    rcases hp : p.leave shape (keyOf keys) s with ⟨answer, s'⟩
    rcases hq : q.leave shape (keyOf keys) t with ⟨answer', t'⟩
    rw [hp, hq] at hanswer hstate
    obtain rfl : answer' = answer := hanswer
    simp only [visit, hp, hq]
    cases answer' with
    | error fault => exact ⟨rfl, rfl, rfl, hstate⟩
    | ok => cases shape <;> exact ⟨rfl, rfl, rfl, hstate⟩

theorem agrees_traverse (h : p.Drops R D q) (hst : R s t) (hc : c.IsHonest)
    (hquiet : DropsQuietly D q keys c t) (log log' : List Entry) :
    (traverse p log keys c s).Agrees R (traverse q log' keys c t) := by
  fun_induction traverse p log keys c s generalizing t log' with
  | case1 log keys c s fault c' hnext =>
    rw [traverse_fault log' hnext]
    exact ⟨rfl, rfl, rfl, hst⟩
  | case2 log keys c s c' hnext =>
    rw [traverse_end log' hnext]
    exact ⟨rfl, rfl, rfl, hst⟩
  | case3 log keys c s token c' hnext turn hnone =>
    rename_i ih
    obtain ⟨houtcome, hkeys, hcursor, hstate⟩ := agrees_visit keys h hst hc hquiet hnext
    have hnone' : (visit q token keys c' t).outcome = .ok none := houtcome.trans hnone
    have hquiet' : DropsQuietly D q (visit q token keys c' t).keys
        (visit q token keys c' t).cursor (visit q token keys c' t).state :=
      fun shape c'' s' t' hcomes => hquiet shape c'' s' t' (.onward hnext hnone' hcomes)
    rw [hkeys, hcursor] at hquiet'
    rw [traverse_onward log' hnext hnone', hkeys, hcursor]
    exact ih hstate (hc.visit hnext hnone) hquiet' _
  | case4 log keys c s token c' hnext turn =>
    rename_i hne
    obtain ⟨houtcome, hkeys, hcursor, hstate⟩ := agrees_visit keys h hst hc hquiet hnext
    rw [traverse_stop log' hnext (fun hnone => hne (houtcome.symm.trans hnone))]
    exact ⟨houtcome, hkeys, hcursor, hstate⟩

end Turn

namespace Walk

variable {w : Walk} {s : Scene σ} {t : Scene τ}

theorem agrees_nextHandle (h : p.Drops R D q) (hst : s.Mirrors R t)
    (hc : w.finished = false → s.cursor.IsHonest)
    (hquiet : w.finished = false → Turn.DropsQuietly D q w.keys t.cursor t.state) :
    (w.nextHandle p s).Agrees R (w.nextHandle q t) := by
  obtain ⟨hcursor, hstate, hcount⟩ := hst
  cases hw : w.finished with
  | true =>
    simp only [nextHandle, hw, ↓reduceIte]
    exact ⟨rfl, rfl, hcursor, hstate, hcount⟩
  | false =>
    have hquiet := hquiet hw
    rw [hcursor] at hquiet
    obtain ⟨houtcome, hkeys, hcursor', hstate'⟩ :=
      Turn.agrees_traverse w.keys h hstate (hc hw) hquiet [] []
    simp only [nextHandle, hw, Bool.false_eq_true, ↓reduceIte, hcursor, hcount, houtcome, hkeys,
      hcursor']
    rcases (Turn.traverse p [] w.keys s.cursor s.state).outcome with fault | _ | a
    · cases fault <;> exact ⟨rfl, rfl, rfl, hstate', rfl⟩
    · exact ⟨rfl, rfl, rfl, hstate', rfl⟩
    · exact ⟨rfl, rfl, rfl, hstate', rfl⟩

theorem agrees_pull (h : p.Drops R D q) (hst : s.Mirrors R t)
    (hc : w.finished = false → s.cursor.IsHonest)
    (hquiet : w.finished = false → Turn.DropsQuietly D q w.keys t.cursor t.state) :
    (w.pull p s).Agrees R (w.pull q t) := by
  have hfound := agrees_nextHandle h hst hc hquiet
  simp only [pull]
  generalize w.nextHandle p s = found at hfound ⊢
  generalize w.nextHandle q t = found' at hfound ⊢
  obtain ⟨outcome, walk, ⟨c, state, count⟩, log⟩ := found
  obtain ⟨outcome', walk', ⟨c', state', count'⟩, log'⟩ := found'
  obtain ⟨houtcome, hwalk, ⟨hcursor, hstate, hcount⟩⟩ := hfound
  dsimp only at houtcome hwalk hcursor hstate hcount ⊢
  subst houtcome hwalk hcursor hcount
  cases outcome' with
  | stopped => exact ⟨rfl, rfl, rfl, hstate, rfl⟩
  | failed fault => exact ⟨rfl, rfl, rfl, hstate, rfl⟩
  | item a =>
    cases w.writes with
    | false => exact ⟨rfl, rfl, rfl, hstate, rfl⟩
    | true =>
      obtain ⟨hanswer, hstate'⟩ := h.request count' a hstate
      rcases hp : p.request count' a state with ⟨answer, s'⟩
      rcases hq : q.request count' a state' with ⟨answer', t'⟩
      rw [hp, hq] at hanswer hstate'
      obtain rfl : answer' = answer := hanswer
      simp only [↓reduceIte, hp, hq]
      cases answer' with
      | error fault => exact ⟨rfl, rfl, rfl, hstate', rfl⟩
      | ok request => exact ⟨rfl, rfl, rfl, hstate', rfl⟩

def DropsQuietly (D : σ → τ → Prop) (q : Policy τ α) (w : Walk) (t : Scene τ) (n : Nat) : Prop :=
  ∀ m < n, let (w', t') := afterPulls q w t m
    w'.finished = false → Turn.DropsQuietly D q w'.keys t'.cursor t'.state

/-- Pull by pull, skipping agrees with dropping. -/
theorem agrees_pulls (h : p.Drops R D q) (hst : s.Mirrors R t)
    (hc : w.finished = false → s.cursor.IsHonest) {n : Nat} (hquiet : DropsQuietly D q w t n) :
    outcomes q w t n = outcomes p w s n ∧ (afterPulls q w t n).1 = (afterPulls p w s n).1 ∧
      (afterPulls p w s n).2.Mirrors R (afterPulls q w t n).2 := by
  induction n generalizing w s t with
  | zero => exact ⟨rfl, rfl, hst⟩
  | succ n ih =>
    obtain ⟨houtcome, hwalk, hscene⟩ := agrees_pull h hst hc (hquiet 0 (Nat.zero_lt_succ n))
    have hlater : DropsQuietly D q (w.pull p s).walk (w.pull q t).scene n := by
      intro m hm
      have hthere := hquiet (m + 1) (Nat.succ_lt_succ hm)
      rw [afterPulls, hwalk] at hthere
      exact hthere
    obtain ⟨hrest, hafter⟩ := ih hscene (isHonest_pull hc) hlater
    rw [outcomes, outcomes, afterPulls, afterPulls, houtcome, hwalk, hrest]
    exact ⟨rfl, hafter⟩

end Walk

end

/-! ## The variant of a policy that drops -/

/-- State of a dropping policy: the state of the original, the state of the drop programs, and the
container about to be dropped. -/
structure Dropping (σ ρ : Type) where
  state : σ
  memory : ρ
  due : Option (Shape × Option String) := none

namespace Dropping

def IsIdle (s : σ) (d : Dropping σ ρ) : Prop := d.state = s ∧ d.due = none

def IsBusy (s : σ) (d : Dropping σ ρ) : Prop := d.state = s ∧ d.due ≠ none

end Dropping

namespace Policy

/-- The variant of `p` that processes what `p` skips, reads of it as `drop` says, and returns no
handle. -/
def dropping (p : Policy σ α) (drop : Shape → Option String → σ → ρ → Program ρ) :
    Policy (Dropping σ ρ) α where
  enter shape key d :=
    match p.enter shape key d.state with
    | (.ok .skip, state) => (.ok .process, { d with state, due := some (shape, key) })
    | (answer, state) => (answer, { d with state })
  leave shape key d :=
    let (answer, state) := p.leave shape key d.state
    (answer, { d with state })
  build d :=
    match d.due with
    | some (shape, key) =>
      (drop shape key d.state d.memory).map fun memory => (.ok none, ⟨d.state, memory, none⟩)
    | none => (p.build d.state).map fun built => (built.1, { d with state := built.2 })
  request serial handle d :=
    let (answer, state) := p.request serial handle d.state
    (answer, { d with state })

theorem drops_dropping (p : Policy σ α) (drop : Shape → Option String → σ → ρ → Program ρ) :
    p.Drops Dropping.IsIdle Dropping.IsBusy (p.dropping drop) where
  enter shape key s d hst := by
    obtain ⟨rfl, hdue⟩ := hst
    simp only [dropping]
    rcases p.enter shape key d.state with ⟨fault | decision, s'⟩
    · exact .inl ⟨rfl, rfl, hdue⟩
    · cases decision with
      | skip => exact .inr ⟨s', _, rfl, rfl, rfl, Option.some_ne_none _⟩
      | descend => exact .inl ⟨rfl, rfl, hdue⟩
      | process => exact .inl ⟨rfl, rfl, hdue⟩
      | unknown answer => exact .inl ⟨rfl, rfl, hdue⟩
  leave shape key s d hst := by
    obtain ⟨rfl, hdue⟩ := hst
    exact ⟨rfl, rfl, hdue⟩
  build r s d hst := by
    obtain ⟨rfl, hdue⟩ := hst
    simp only [dropping, hdue]
    exact ⟨⟨rfl, rfl, rfl⟩, rfl⟩
  drop r s d hst := by
    obtain ⟨rfl, hdue⟩ := hst
    obtain ⟨⟨shape, key⟩, hdue⟩ := Option.ne_none_iff_exists'.mp hdue
    simp only [dropping, hdue]
    exact ⟨_, rfl, rfl, rfl⟩
  request serial a s d hst := by
    obtain ⟨rfl, hdue⟩ := hst
    exact ⟨rfl, rfl, hdue⟩

theorem raisesNothing_dropping {p : Policy σ α} {drop : Shape → Option String → σ → ρ → Program ρ}
    {d : Dropping σ ρ} {shape : Shape} {key : Option String} (hdue : d.due = some (shape, key))
    {r : Reader} (h : (drop shape key d.state d.memory).RaisesNothing r) :
    ((p.dropping drop).build d).RaisesNothing r := by
  simp only [dropping, hdue]
  exact h.map _

end Policy

/-! ## What the hooks are asked -/

def hookCalls (questions : List Question) : List Question := questions.filter (· ≠ .building)

section

variable {R D : σ → τ → Prop} {p : Policy σ α} {q : Policy τ α}

theorem Policy.Drops.recorded (h : p.Drops R D q) :
    p.recorded.Drops (fun s t => R s.1 t.1 ∧ hookCalls t.2 = hookCalls s.2)
      (fun s t => D s.1 t.1 ∧ hookCalls t.2 = hookCalls s.2) q.recorded where
  enter shape key s t hst := by
    have hcalls : hookCalls (t.2 ++ [.entering shape key]) =
        hookCalls (s.2 ++ [.entering shape key]) := by
      simpa [hookCalls] using hst.2
    rcases h.enter shape key hst.1 with ⟨hanswer, hstate⟩ | ⟨s', t', hp, hq, hdrop⟩
    · exact .inl ⟨hanswer, hstate, hcalls⟩
    · refine .inr ⟨(s', s.2 ++ [.entering shape key]), (t', t.2 ++ [.entering shape key]), ?_, ?_,
        hdrop, hcalls⟩
      · simp [Policy.recorded, hp]
      · simp [Policy.recorded, hq]
  leave shape key s t hst := by
    obtain ⟨hanswer, hstate⟩ := h.leave shape key hst.1
    exact ⟨hanswer, hstate, by simpa [Policy.recorded, hookCalls] using hst.2⟩
  build r s t hst := by
    obtain ⟨⟨hanswer, hstate⟩, hreader⟩ := h.build r hst.1
    refine ⟨⟨hanswer, hstate, ?_⟩, hreader⟩
    simpa [Policy.recorded, Program.map, hookCalls] using hst.2
  drop r s t hst := by
    obtain ⟨t', hbuild, hstate⟩ := h.drop r hst.1
    refine ⟨(t', t.2 ++ [.building]), ?_, hstate, ?_⟩
    · simp [Policy.recorded, Program.map, hbuild]
    · simpa [hookCalls] using hst.2
  request serial a s t hst := by
    obtain ⟨hanswer, hstate⟩ := h.request serial a hst.1
    exact ⟨hanswer, hstate, hst.2⟩

theorem Turn.ComesTo.of_recorded {keys : List (Option String)} {c c' : Cursor}
    {t t' : τ × List Question} {shape : Shape} (h : ComesTo q.recorded keys c t shape c' t') :
    ComesTo q keys c t.1 shape c' t'.1 := by
  induction h with
  | @here keys c c' t t' shape hnext henter =>
    simp only [Policy.recorded, Prod.mk.injEq] at henter
    obtain ⟨hanswer, rfl⟩ := henter
    exact .here hnext (Prod.ext hanswer rfl)
  | @onward keys c c' c'' t t' token shape hnext hvisit hlater ih =>
    obtain ⟨houtcome, hkeys, hcursor, hstate, -⟩ :=
      mirrors_visit keys c' q.mirrors_recorded (rfl : t.1 = t.1) token
    rw [hkeys, hcursor, hstate] at ih
    refine .onward hnext ?_ ih
    rw [hvisit] at houtcome
    rcases hturn : (visit q token keys c' t.1).outcome with fault | _ | a <;>
      rw [hturn] at houtcome <;> first | rfl | cases houtcome

theorem Walk.DropsQuietly.recorded {w : Walk} {t : Scene (τ × List Question)} {n : Nat}
    (h : DropsQuietly D q w t.forget n) (P : List Question → List Question → Prop) :
    DropsQuietly (fun (s : σ × List Question) t => D s.1 t.1 ∧ P s.2 t.2) q.recorded w t n := by
  intro m hm
  obtain ⟨state, hstate, hafter⟩ := mirrors_afterPulls w q.mirrors_recorded
    (⟨rfl, rfl, rfl⟩ : t.forget.Mirrors (fun s t => t.1 = s) t) m
  have hthere := h m hm
  rw [hafter]
  intro hw shape c' s' t' hcomes hdrop
  have hcomes := hcomes.of_recorded
  dsimp only at hcomes hstate
  rw [hstate] at hcomes
  exact (hthere hw shape c' s'.1 t'.1 hcomes hdrop.1).map fun built =>
    (built.1, built.2, t'.2 ++ [.building])

end

namespace Walk

def hooksCalled (p : Policy σ α) (w : Walk) (s : Scene σ) (n : Nat) : List Question :=
  hookCalls (afterPulls p.recorded w ⟨s.cursor, (s.state, []), s.count⟩ n).2.state.2

/-- Skipping containers and processing them with a dropped handle agree pull by pull, for any bytes,
reads and engine, provided the calls on the dropped views do not fail: same outcomes, hook calls
with keys, walk, count, and position of the cursor. -/
theorem skipping_is_dropping (engine : Engine) (reads : Reads) (p : Policy σ α)
    (drop : Shape → Option String → σ → ρ → Program ρ) (w : Walk) (state : σ) (memory : ρ)
    (count n : Nat)
    (hquiet : DropsQuietly Dropping.IsBusy (p.dropping drop) w
      ⟨.ofFeed (engine.feed reads), ⟨state, memory, none⟩, count⟩ n) :
    let c := Cursor.ofFeed (engine.feed reads)
    let s : Scene σ := ⟨c, state, count⟩
    let t : Scene (Dropping σ ρ) := ⟨c, ⟨state, memory, none⟩, count⟩
    let (w', s') := afterPulls p w s n
    outcomes (p.dropping drop) w t n = outcomes p w s n ∧
      hooksCalled (p.dropping drop) w t n = hooksCalled p w s n ∧
      ∃ memory', afterPulls (p.dropping drop) w t n =
        (w', ⟨s'.cursor, ⟨s'.state, memory', none⟩, s'.count⟩) := by
  intro c s t
  have hc : w.finished = false → s.cursor.IsHonest :=
    fun _ => Cursor.isHonest_ofBytes engine reads
  have hdrops := p.drops_dropping drop
  obtain ⟨houtcomes, hwalk, hcursor, ⟨hstate, hdue⟩, hcount⟩ :=
    agrees_pulls hdrops (⟨rfl, ⟨rfl, rfl⟩, rfl⟩ : s.Mirrors Dropping.IsIdle t) hc hquiet
  let s' : Scene (σ × List Question) := ⟨c, (state, []), count⟩
  let t' : Scene (Dropping σ ρ × List Question) := ⟨c, (⟨state, memory, none⟩, []), count⟩
  have hquiet' : DropsQuietly Dropping.IsBusy (p.dropping drop) w t'.forget n := hquiet
  have hrecorded := agrees_pulls (s := s') hdrops.recorded ⟨rfl, ⟨⟨rfl, rfl⟩, rfl⟩, rfl⟩ hc
    (hquiet'.recorded fun s t => hookCalls t = hookCalls s)
  refine ⟨houtcomes, hrecorded.2.2.state.2, ?_⟩
  rcases hafter : afterPulls (p.dropping drop) w t n with ⟨w', c', ⟨state', memory', due'⟩, count'⟩
  rw [hafter] at hwalk hcursor hstate hdue hcount
  dsimp only at hwalk hcursor hstate hdue hcount
  subst hwalk hcursor hstate hdue hcount
  exact ⟨memory', rfl⟩

end Walk

namespace Policy

def skippingObjects : Policy Nat Payload :=
  { array with
    enter := fun shape key openArrays =>
      match shape with
      | .object => (.ok .skip, openArrays)
      | .array => array.enter .array key openArrays }

def firstName : Reading (Option String) := .ask .name fun name => .give name.toOption.join

def droppingFirstName : Policy (Dropping Nat (Option String)) Payload :=
  skippingObjects.dropping fun _ _ _ _ => .ofReading firstName

def cutOffObject : Reads := ⟨[[91, 123, 34], [97, 34]], some "lost"⟩

theorem cutOffObject_dropped :
    let t : Scene (Dropping Nat (Option String)) :=
      ⟨.ofFeed (Engine.exact.feed cutOffObject), ⟨0, none, none⟩, 0⟩
    Walk.DropsQuietly Dropping.IsBusy droppingFirstName {} t 1 ∧
      Walk.outcomes droppingFirstName {} t 1 =
        [.failed (.interrupted .traverse (.unreadable "lost"))] := by
  intro t
  let later : Feed := ⟨[], .broken (.unreadable "lost"), .standard⟩
  have hfeed : Engine.exact.feed cutOffObject =
      later.behind [.opening .array, .opening .object, .key "a"] := by decide +kernel
  have hname : (Program.ofReading firstName).RaisesNothing
      (Reader.view ⟨.before [.key "a"] later (some (.opening .object)), []⟩) :=
    ⟨firstName, rfl, rfl, trivial⟩
  have hfails : (Turn.visit droppingFirstName (.opening .object) []
      (.before [.key "a"] later (some (.opening .object))) ⟨1, none, none⟩).outcome =
        .error (.input (.unreadable "lost")) := by cbv
  have hquiet : Walk.DropsQuietly Dropping.IsBusy droppingFirstName {} t 1 := by
    intro m hm
    obtain rfl := Nat.lt_one_iff.mp hm
    intro hw shape c' s' t' hcomes hbusy
    simp only [t, hfeed] at hcomes
    cases hcomes with
    | here hnext henter =>
      cases hnext
      cases henter
    | onward hnext hvisit hlater =>
      cases hnext
      cases hlater with
      | here hnext henter =>
        cases hnext
        cases henter
        exact raisesNothing_dropping rfl hname
      | onward hnext hvisit hlater =>
        cases hnext
        exact absurd (hfails.symm.trans hvisit) (by simp)
  obtain ⟨houtcomes, -⟩ := Walk.skipping_is_dropping .exact cutOffObject skippingObjects _ {} 0 none
    0 1 hquiet
  refine ⟨hquiet, houtcomes.trans ?_⟩
  rw [hfeed]
  cbv

end Policy

end JsonCleave
