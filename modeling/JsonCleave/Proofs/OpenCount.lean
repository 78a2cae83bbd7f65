import Mathlib
import JsonCleave.Proofs.ContainerEnd
import JsonCleave.Proofs.Lookahead
/-!
# The array counter

For policies with the given array hooks and any decisions on objects, the counter is the number of
open arrays descended into: at most one, and zero at the end of a document. Hook calls in any order
keep it at most one.
-/

namespace JsonCleave

variable {σ α : Type}

/-! ## The given hooks for arrays -/

def BasePolicy.enterArray : BasePolicy → Nat → Decision × Nat
  | .generic => Policy.enterArrayGeneric
  | .array => Policy.enterArrayCounting

theorem BasePolicy.enterArray_of_pos (base : BasePolicy) {n : Nat} (hn : 0 < n) :
    base.enterArray n = (.process, n) := by
  cases base with
  | generic => simp [enterArray, Policy.enterArrayGeneric, hn]
  | array => simp [enterArray, Policy.enterArrayCounting, hn]

theorem BasePolicy.enterArray_zero (base : BasePolicy) : base.enterArray 0 = (.descend, 1) := by
  cases base <;> rfl

/-- The array hooks of `p` are those of `base`, and its other hooks do not change the counter. -/
structure Policy.KeepsArrayHooks (base : BasePolicy) (openArrays : σ → Nat) (p : Policy σ α) :
    Prop where
  enterArray (key : Option String) (s : σ) :
    (p.enter .array key s).1 = .ok (base.enterArray (openArrays s)).1 ∧
      openArrays (p.enter .array key s).2 = (base.enterArray (openArrays s)).2
  leaveArray (key : Option String) (s : σ) :
    (p.leave .array key s).1 = .ok () ∧
      openArrays (p.leave .array key s).2 = Policy.leaveContainer .array (openArrays s)
  enterObject (key : Option String) (s : σ) :
    openArrays (p.enter .object key s).2 = openArrays s
  leaveObject (key : Option String) (s : σ) :
    openArrays (p.leave .object key s).2 = openArrays s
  build (s : σ) (r : Reader) : openArrays ((p.build s).run r).result.2 = openArrays s
  request (serial : Nat) (handle : α) (s : σ) :
    openArrays (p.request serial handle s).2 = openArrays s

theorem Policy.generic_keepsArrayHooks : generic.KeepsArrayHooks .generic id where
  enterArray _ _ := ⟨rfl, rfl⟩
  leaveArray _ _ := ⟨rfl, rfl⟩
  enterObject _ _ := rfl
  leaveObject _ _ := rfl
  build s r := by simp [generic, Reading.run_map]
  request _ _ _ := rfl

theorem Policy.array_keepsArrayHooks : array.KeepsArrayHooks .array id where
  enterArray _ _ := ⟨rfl, rfl⟩
  leaveArray _ _ := ⟨rfl, rfl⟩
  enterObject _ _ := rfl
  leaveObject _ _ := rfl
  build s r := by simp [array, Reading.run_map]
  request _ _ _ := rfl

theorem RuleTable.keepsArrayHooks {table : RuleTable}
    (hrules : ∀ rule ∈ table.rules, rule.shape = .object) :
    table.policy.KeepsArrayHooks table.base State.openArrays := by
  have hnone : ∀ side key, table.rule? side .array key = none := by
    intro side key
    simp only [rule?, List.find?_eq_none]
    intro rule hrule
    simp [hrules rule hrule]
  refine ⟨fun key s => ?_, fun key s => ?_, fun key s => ?_, fun key s => ?_, fun s r => ?_,
    fun _ _ _ => rfl⟩
  · cases hbase : table.base <;>
      simp [policy, enter, enterBase, hnone, hbase, BasePolicy.enterArray]
  · simp [policy, leave, hnone]
  · simp only [policy, enter]
    split <;> rfl
  · simp only [policy, leave]
    split <;> rfl
  · simp [policy, Reading.run_map, State.record]

/-! ## The hooks in any order -/

def Policy.afterHook (p : Policy σ α) (s : σ) : Side × Shape × Option String → σ
  | (.entering, shape, key) => (p.enter shape key s).2
  | (.leaving, shape, key) => (p.leave shape key s).2

def Policy.afterHooks (p : Policy σ α) (s : σ) (calls : List (Side × Shape × Option String)) : σ :=
  calls.foldl p.afterHook s

namespace Policy.KeepsArrayHooks

variable {base : BasePolicy} {openArrays : σ → Nat} {p : Policy σ α}

theorem afterHook_le_one (h : p.KeepsArrayHooks base openArrays) {s : σ} (hs : openArrays s ≤ 1)
    (call : Side × Shape × Option String) : openArrays (p.afterHook s call) ≤ 1 := by
  obtain ⟨side, shape, key⟩ := call
  cases side with
  | entering =>
    cases shape with
    | object => rwa [afterHook, h.enterObject]
    | array =>
      rw [afterHook, (h.enterArray key s).2]
      rcases Nat.eq_zero_or_pos (openArrays s) with hzero | hpos
      · rw [hzero, base.enterArray_zero]
      · rwa [base.enterArray_of_pos hpos]
  | leaving =>
    cases shape with
    | object => rwa [afterHook, h.leaveObject]
    | array =>
      rw [afterHook, (h.leaveArray key s).2, leaveContainer]
      omega

theorem afterHooks_le_one (h : p.KeepsArrayHooks base openArrays) {s : σ} (hs : openArrays s ≤ 1)
    (calls : List (Side × Shape × Option String)) : openArrays (p.afterHooks s calls) ≤ 1 := by
  induction calls generalizing s with
  | nil => exact hs
  | cons call calls ih => exact ih (h.afterHook_le_one hs call)

theorem state_process (h : p.KeepsArrayHooks base openArrays) (keys : List (Option String))
    (c : Cursor) (s : σ) : openArrays (Turn.process p keys c s).state = openArrays s := by
  have hbuild := h.build s (Reader.view ⟨c, []⟩)
  unfold Turn.process
  dsimp only
  split
  · rename_i hresult
    rwa [hresult] at hbuild
  · rename_i hresult
    rw [hresult] at hbuild
    split <;> exact hbuild

end Policy.KeepsArrayHooks

/-! ## Containers that are open behind a token -/

/-- Number of open containers behind the tokens, starting from `depth`; zero once they are
closed. -/
def openAfter (depth : Nat) (ts : List Token) : Nat :=
  ts.foldl (fun d t => if d = 0 then 0 else t.shift d) depth

@[simp] theorem openAfter_nil (depth : Nat) : openAfter depth [] = depth := rfl

@[simp] theorem openAfter_zero (ts : List Token) : openAfter 0 ts = 0 := by
  induction ts with
  | nil => rfl
  | cons t ts ih => exact ih

theorem openAfter_cons {depth : Nat} (hdepth : 0 < depth) (t : Token) (ts : List Token) :
    openAfter depth (t :: ts) = openAfter (t.shift depth) ts := by
  simp [openAfter, Nat.pos_iff_ne_zero.mp hdepth]

theorem openAfter_append (depth : Nat) (ts us : List Token) :
    openAfter depth (ts ++ us) = openAfter (openAfter depth ts) us :=
  List.foldl_append

theorem staysOpen_iff_openAfter {depth : Nat} {ts : List Token} :
    StaysOpen depth ts ↔ 0 < openAfter depth ts := by
  induction ts generalizing depth with
  | nil =>
    cases depth with
    | zero => simp [StaysOpen]
    | succ depth => simp [StaysOpen, openAfter]
  | cons t ts ih =>
    rcases Nat.eq_zero_or_pos depth with rfl | hpos
    · simp [StaysOpen]
    · rw [staysOpen_cons hpos, openAfter_cons hpos, ih]

instance (depth : Nat) (ts : List Token) : Decidable (StaysOpen depth ts) :=
  decidable_of_iff _ staysOpen_iff_openAfter.symm

theorem Closes.openAfter_add {m : Nat} {ts : List Token} (h : Closes m ts) (n : Nat) :
    openAfter (m + n) ts = n := by
  induction ts generalizing m with
  | nil =>
    cases m with
    | zero => exact Nat.zero_add n
    | succ m => exact h.elim
  | cons t ts ih =>
    have hpos := h.depth_pos
    rw [openAfter_cons (by omega), t.shift_add hpos, ih ((closes_cons hpos).mp h)]

theorem StaysOpen.lt_openAfter_add {m : Nat} {ts : List Token} (h : StaysOpen m ts) (n : Nat) :
    n < openAfter (m + n) ts := by
  induction ts generalizing m with
  | nil =>
    have hpos := h.depth_pos
    simp only [openAfter, List.foldl_nil]
    omega
  | cons t ts ih =>
    have hpos := h.depth_pos
    rw [openAfter_cons (by omega), t.shift_add hpos]
    exact ih ((staysOpen_cons hpos).mp h)

/-! ## What the containers gone into still ask for -/

/-- The tokens are well nested, and close the containers of the stack one after the other. -/
def Owes : List Shape → List Token → Prop
  | [], ts => WellNested ts
  | shape :: stack, ts =>
    ∃ inside later, ts = inside ++ .closing shape :: later ∧ WellNested inside ∧ Owes stack later

theorem WellNested.of_key {name : String} {ts : List Token} (h : WellNested (.key name :: ts)) :
    WellNested ts := by
  cases h with
  | key _ hts => exact hts

theorem WellNested.of_scalar {value : Scalar} {ts : List Token}
    (h : WellNested (.scalar value :: ts)) : WellNested ts := by
  cases h with
  | scalar _ hts => exact hts

theorem WellNested.of_opening {shape : Shape} {ts : List Token}
    (h : WellNested (.opening shape :: ts)) :
    ∃ inside rest, ts = inside ++ .closing shape :: rest ∧ WellNested inside ∧
      WellNested rest := by
  cases h with
  | container _ hinside hrest => exact ⟨_, _, rfl, hinside, hrest⟩

theorem WellNested.not_closing {shape : Shape} {ts : List Token} :
    ¬ WellNested (.closing shape :: ts) := nofun

namespace Owes

variable {stack : List Shape} {shape : Shape} {ts : List Token}

theorem eq_nil (h : Owes stack []) : stack = [] := by
  cases stack with
  | nil => rfl
  | cons shape stack =>
    obtain ⟨inside, later, hts, -⟩ := h
    simp at hts

theorem of_leaf {t : Token} (ht : t.isOpening = false ∧ t.isClosing = false)
    (h : Owes stack (t :: ts)) : Owes stack ts := by
  have hwell : ∀ us, WellNested (t :: us) → WellNested us := by
    intro us hus
    cases t with
    | key name => exact hus.of_key
    | scalar value => exact hus.of_scalar
    | opening shape => simp [Token.isOpening] at ht
    | closing shape => simp [Token.isClosing] at ht
  cases stack with
  | nil => exact hwell _ h
  | cons shape stack =>
    obtain ⟨inside, later, hts, hinside, hlater⟩ := h
    cases inside with
    | nil =>
      obtain ⟨rfl, -⟩ := List.cons.inj hts
      simp [Token.isClosing] at ht
    | cons u inside =>
      obtain ⟨rfl, rfl⟩ := List.cons.inj hts
      exact ⟨inside, later, rfl, hwell _ hinside, hlater⟩

theorem of_opening (h : Owes stack (.opening shape :: ts)) :
    ∃ inside later, ts = inside ++ .closing shape :: later ∧ WellNested inside ∧
      Owes stack later := by
  cases stack with
  | nil => exact WellNested.of_opening h
  | cons shape' stack =>
    obtain ⟨inside, later, hts, hinside, hlater⟩ := h
    cases inside with
    | nil => cases (List.cons.inj hts).1
    | cons u inside =>
      obtain ⟨rfl, rfl⟩ := List.cons.inj hts
      obtain ⟨inner, rest, rfl, hinner, hrest⟩ := hinside.of_opening
      exact ⟨inner, rest ++ .closing shape' :: later, by simp, hinner, rest, later, rfl, hrest,
        hlater⟩

theorem of_closing (h : Owes stack (.closing shape :: ts)) :
    ∃ outer, stack = shape :: outer ∧ Owes outer ts := by
  cases stack with
  | nil => exact absurd h WellNested.not_closing
  | cons shape' stack =>
    obtain ⟨inside, later, hts, hinside, hlater⟩ := h
    cases inside with
    | nil =>
      obtain ⟨hshape, rfl⟩ := List.cons.inj hts
      obtain rfl : shape = shape' := by simpa using hshape
      exact ⟨stack, rfl, hlater⟩
    | cons u inside =>
      obtain ⟨rfl, -⟩ := List.cons.inj hts
      exact absurd hinside WellNested.not_closing

end Owes

/-! ## The arrays gone into, by how many containers are open from each of them on -/

/-- The open arrays are those on the stack; an array's level is the number of containers from it
inwards. -/
structure Levels (stack : List Shape) (levels : List Nat) : Prop where
  count : levels.countP (0 < ·) = stack.count .array
  place : ∀ d ∈ levels, 0 < d → stack[d - 1]? = some .array

namespace Levels

variable {stack : List Shape} {levels : List Nat}

theorem map_same (h : Levels stack levels) {f : Nat → Nat} (hzero : f 0 = 0)
    (hpos : ∀ d, 0 < d → f d = d) : Levels stack (levels.map f) := by
  have hid : levels.map f = levels := by
    conv_rhs => rw [← List.map_id levels]
    refine List.map_congr_left fun d _ => ?_
    rcases Nat.eq_zero_or_pos d with rfl | hd
    · exact hzero
    · exact hpos d hd
  rwa [hid]

theorem push_object (h : Levels stack levels) {f : Nat → Nat} (hzero : f 0 = 0)
    (hpos : ∀ d, 0 < d → f d = d + 1) : Levels (.object :: stack) (levels.map f) := by
  constructor
  · rw [List.countP_map, List.count_cons_of_ne (by decide), ← h.count]
    refine List.countP_congr fun d _ => ?_
    rcases Nat.eq_zero_or_pos d with rfl | hd
    · simp [hzero]
    · simp [hpos d hd, hd]
  · intro d' hd' hpos'
    obtain ⟨d, hd, rfl⟩ := List.mem_map.mp hd'
    rcases Nat.eq_zero_or_pos d with rfl | hdpos
    · omega
    · have hplace := h.place d hd hdpos
      obtain ⟨e, rfl⟩ : ∃ e, d = e + 1 := ⟨d - 1, by omega⟩
      simpa [hpos _ hdpos] using hplace

theorem push_array (h : Levels stack levels) (hnone : stack.count .array = 0) {f : Nat → Nat}
    (hzero : f 0 = 0) : Levels (.array :: stack) (levels.map f ++ [1]) := by
  have hlevels : ∀ d ∈ levels, d = 0 := by
    intro d hd
    by_contra hne
    have hcount := h.count
    rw [hnone, List.countP_eq_zero] at hcount
    exact hcount d hd (by simpa using Nat.pos_of_ne_zero hne)
  have hall : ∀ d ∈ levels.map f, d = 0 := by
    intro d' hd'
    obtain ⟨d, hd, rfl⟩ := List.mem_map.mp hd'
    rw [hlevels d hd, hzero]
  constructor
  · rw [List.countP_append, List.count_cons_self, hnone]
    have : (levels.map f).countP (0 < ·) = 0 := by
      rw [List.countP_eq_zero]
      intro d hd
      simp [hall d hd]
    rw [this]
    rfl
  · intro d hd hpos
    rcases List.mem_append.mp hd with hold | hnew
    · exact absurd (hall d hold) (by omega)
    · obtain rfl : d = 1 := by simpa using hnew
      rfl

theorem pop {shape : Shape} {outer : List Shape} (h : Levels (shape :: outer) levels)
    (hle : (shape :: outer).count .array ≤ 1) {f : Nat → Nat} (hzero : f 0 = 0)
    (hpos : ∀ d, 0 < d → f d = d - 1) : Levels outer (levels.map f) := by
  have hf : ∀ d, f d = d - 1 := by
    intro d
    rcases Nat.eq_zero_or_pos d with rfl | hd
    · exact hzero
    · exact hpos d hd
  have hplace : ∀ d ∈ levels, 0 < f d → outer[f d - 1]? = some .array := by
    intro d hd hpos'
    rw [hf] at hpos' ⊢
    have hbefore := h.place d hd (by omega)
    rw [show d - 1 = d - 1 - 1 + 1 by omega, List.getElem?_cons_succ] at hbefore
    exact hbefore
  constructor
  · rw [List.countP_map]
    cases shape with
    | object =>
      rw [← List.count_cons_of_ne (a := Shape.array) (b := .object) (by decide), ← h.count]
      refine List.countP_congr fun d hd => ?_
      have hbefore := h.place d hd
      simp only [Function.comp_apply, hf, decide_eq_true_eq]
      constructor
      · omega
      · intro hdpos
        by_contra hone
        obtain rfl : d = 1 := by omega
        simp at hbefore
    | array =>
      have hnone : outer.count .array = 0 := by
        rw [List.count_cons_self] at hle
        omega
      rw [hnone, List.countP_eq_zero]
      intro d hd hdpos
      have hmem := List.mem_of_getElem? (hplace d hd (by simpa using hdpos))
      exact List.count_eq_zero.mp hnone hmem
  · intro d' hd' hpos'
    obtain ⟨d, hd, rfl⟩ := List.mem_map.mp hd'
    exact hplace d hd hpos'

end Levels

/-! ## The moments of a split -/

def Cursor.readUpTo (c c' : Cursor) : List Token :=
  (c.pending.take (c.pending.length - c'.pending.length)).filterMap fun
    | .token t => some t
    | .halt _ => none

theorem Cursor.readUpTo_before (us vs : List Token) (later : Feed)
    (current current' : Option Token) :
    (before (us ++ vs) later current).readUpTo (before vs later current') = us := by
  have htake : ((us ++ vs).map Delivery.token ++ later.deliveries).take
      (((us ++ vs).map Delivery.token ++ later.deliveries).length -
        (vs.map Delivery.token ++ later.deliveries).length) = us.map .token := by
    rw [List.map_append, List.append_assoc]
    exact List.take_left' (by simp)
  simp only [readUpTo, before, htake, List.filterMap_map]
  exact List.filterMap_some

theorem Cursor.readUpTo_self (c : Cursor) : c.readUpTo c = [] := by simp [readUpTo]

/-- A point of a split between two tokens: walk state, cursor and policy state, and for each array
descended into the tokens read since its opening bracket. -/
structure Moment (σ : Type) where
  keys : List (Option String)
  cursor : Cursor
  state : σ
  entered : List (List Token)
  ended : Bool

namespace Moment

/-- Number of arrays descended into whose end has not been read. -/
def openArrays (m : Moment σ) : Nat := m.entered.countP fun since => StaysOpen 1 since

def entersArray (p : Policy σ α) (m : Moment σ) (t : Token) : Bool :=
  match t, (p.enter .array (Turn.keyOf m.keys) m.state).1 with
  | .opening .array, .ok .descend => true
  | _, _ => false

def visited (p : Policy σ α) (m : Moment σ) (t : Token) (c : Cursor) : Moment σ :=
  let turn := Turn.visit p t m.keys c m.state
  { keys := turn.keys
    cursor := turn.cursor
    state := turn.state
    entered := m.entered.map (· ++ t :: c.readUpTo turn.cursor) ++
      if m.entersArray p t then [c.readUpTo turn.cursor] else []
    ended := match turn.outcome with
      | .ok _ => false
      | .error _ => true }

/-- One token, the end of the tokens, a fault, or a write request. -/
inductive Step (p : Policy σ α) (m : Moment σ) : Moment σ → Prop
  | token {t : Token} {c : Cursor} (hgoing : m.ended = false)
      (hnext : m.cursor.next = (.ok (some t), c)) : Step p m (m.visited p t c)
  | halt {answer : Except Fault (Option Token)} {c : Cursor} (hgoing : m.ended = false)
      (hnext : m.cursor.next = (answer, c)) (hanswer : ∀ t, answer ≠ .ok (some t)) :
      Step p m { m with cursor := c, ended := true }
  | request (serial : Nat) (handle : α) :
      Step p m { m with state := (p.request serial handle m.state).2 }

def Reaches (p : Policy σ α) : Moment σ → Moment σ → Prop := Relation.ReflTransGen (Step p)

/-! ### What holds at every moment -/

structure Going (limit : DigitLimit) (openArrays : σ → Nat) (m : Moment σ) (stack : List Shape)
    (ts : List Token) (current : Option Token) : Prop where
  cursor : m.cursor = .before ts (.finished limit) current
  owes : Owes stack ts
  levels : Levels stack (m.entered.map (openAfter 1))
  counted : openArrays m.state = stack.count .array
  le_one : stack.count .array ≤ 1

/-- The counter equals the number of open arrays, which is at most one, and zero at the end of the
tokens. -/
structure Counts (limit : DigitLimit) (openArrays : σ → Nat) (m : Moment σ) : Prop where
  counted : openArrays m.state = m.openArrays
  le_one : m.openArrays ≤ 1
  level : m.cursor.pending = [] → m.openArrays = 0
  going : m.ended = false → ∃ stack ts current, m.Going limit openArrays stack ts current

theorem openArrays_eq (m : Moment σ) :
    m.openArrays = (m.entered.map (openAfter 1)).countP (0 < ·) := by
  rw [openArrays, List.countP_map]
  refine List.countP_congr fun since _ => ?_
  simp [staysOpen_iff_openAfter]

variable {p : Policy σ α} {base : BasePolicy} {openArrays : σ → Nat} {m : Moment σ}
  {limit : DigitLimit} {stack : List Shape} {ts : List Token} {current : Option Token}

theorem Going.counts (h : m.Going limit openArrays stack ts current) :
    m.Counts limit openArrays := by
  have hcount : m.openArrays = stack.count .array := by rw [openArrays_eq, h.levels.count]
  refine ⟨by rw [h.counted, hcount], by rw [hcount]; exact h.le_one, fun hnil => ?_,
    fun _ => ⟨stack, ts, current, h⟩⟩
  have hts : ts = [] := by simpa [h.cursor, Cursor.before, Feed.finished] using hnil
  rw [hcount, (hts ▸ h.owes : Owes stack []).eq_nil, List.count_nil]

theorem Going.counts_broken {m' : Moment σ} (h : m.Going limit openArrays stack ts current)
    {since vs later : List Token} {current' : Option Token}
    (hpart : ∀ d, 0 < d → 0 < openAfter d since)
    (hentered : m'.entered = m.entered.map (· ++ since))
    (hstate : openArrays m'.state = openArrays m.state)
    (hcursor : m'.cursor = .before (vs ++ later) (.finished limit) current')
    (howes : Owes stack later) (hended : m'.ended = true) : m'.Counts limit openArrays := by
  have hcount : m'.openArrays = stack.count .array := by
    rw [openArrays_eq, ← h.levels.count, hentered, List.map_map, List.countP_map, List.countP_map]
    refine List.countP_congr fun us _ => ?_
    simp only [Function.comp_apply, openAfter_append, decide_eq_true_eq]
    constructor
    · intro hpos
      by_contra hzero
      rw [Nat.eq_zero_of_not_pos hzero, openAfter_zero] at hpos
      omega
    · exact hpart _
  refine ⟨by rw [hstate, h.counted, hcount], by rw [hcount]; exact h.le_one, fun hnil => ?_,
    fun hgoing => by simp [hended] at hgoing⟩
  have hnone : vs ++ later = [] := by simpa [hcursor, Cursor.before, Feed.finished] using hnil
  rw [(List.append_eq_nil_iff.mp hnone).2] at howes
  rw [hcount, howes.eq_nil, List.count_nil]

theorem Going.counts_taken {m' : Moment σ} (h : m.Going limit openArrays stack ts current)
    {shape : Shape} {inside us vs later : List Token} {current' : Option Token}
    (hinside : WellNested inside) (howes : Owes stack later)
    (hparts : inside ++ [.closing shape] = us ++ vs)
    (hentered : m'.entered = m.entered.map (· ++ .opening shape :: us))
    (hstate : openArrays m'.state = openArrays m.state)
    (hcursor : m'.cursor = .before (vs ++ later) (.finished limit) current')
    (hvs : m'.ended = false → vs = []) : m'.Counts limit openArrays := by
  have hcloses : Closes 1 (us ++ vs) := hparts ▸ hinside.closes shape
  have hwhole : vs = [] → ∀ d, 0 < d → openAfter d (.opening shape :: us) = d := by
    rintro rfl d hd
    rw [List.append_nil] at hcloses
    rw [openAfter_cons hd, Token.shift_opening, Nat.add_comm, hcloses.openAfter_add]
  cases hended : m'.ended with
  | true =>
    refine h.counts_broken (fun d hd => ?_) hentered hstate hcursor howes hended
    by_cases hnil : vs = []
    · rwa [hwhole hnil d hd]
    · rw [openAfter_cons hd, Token.shift_opening, Nat.add_comm]
      exact Nat.zero_lt_of_lt ((hcloses.staysOpen hnil).lt_openAfter_add d)
  | false =>
    obtain rfl := hvs hended
    have hlevels := h.levels.map_same (f := fun d => openAfter d (.opening shape :: us))
      (openAfter_zero _) (hwhole rfl)
    refine Going.counts ⟨hcursor, howes, ?_, by rw [hstate, h.counted], h.le_one⟩
    rw [hentered, List.map_map]
    rw [List.map_map] at hlevels
    simpa only [Function.comp_def, openAfter_append] using hlevels

/-! ### What a token leads to -/

theorem map_openAfter_visited {t : Token} {c : Cursor} {turn : Turn σ α}
    (hvisit : Turn.visit p t m.keys c m.state = turn) (hcursor : turn.cursor = c) :
    (m.visited p t c).entered.map (openAfter 1) =
      (m.entered.map (openAfter 1)).map (openAfter · [t]) ++
        if m.entersArray p t then [1] else [] := by
  simp only [visited, hvisit, hcursor, Cursor.readUpTo_self, List.map_append, List.map_map]
  congr 1
  · exact List.map_congr_left fun since _ => openAfter_append 1 since [t]
  · split <;> simp

def openingCursor (limit : DigitLimit) (shape : Shape) (inside later : List Token) : Cursor :=
  .before (inside ++ .closing shape :: later) (.finished limit) (some (.opening shape))

theorem Going.counts_visited (h : m.Going limit openArrays stack ts current) {shape : Shape}
    {inside later : List Token} {turn : Turn σ α} (us vs : List Token) (current' : Option Token)
    (hinside : WellNested inside) (howes : Owes stack later)
    (hvisit :
      Turn.visit p (.opening shape) m.keys (openingCursor limit shape inside later) m.state = turn)
    (henters : m.entersArray p (.opening shape) = false)
    (hparts : inside ++ [.closing shape] = us ++ vs)
    (hcursor : turn.cursor = .before (vs ++ later) (.finished limit) current')
    (hstate : openArrays turn.state = openArrays m.state)
    (hvs : ∀ handle, turn.outcome = .ok handle → vs = []) :
    (m.visited p (.opening shape) (openingCursor limit shape inside later)).Counts limit
      openArrays := by
  have hread : (openingCursor limit shape inside later).readUpTo turn.cursor = us := by
    have hahead : inside ++ .closing shape :: later = us ++ (vs ++ later) := by
      rw [← List.append_assoc, ← hparts, List.append_assoc]
      rfl
    rw [hcursor, openingCursor, hahead, Cursor.readUpTo_before]
  have hleft : (m.visited p (.opening shape) (openingCursor limit shape inside later)).cursor =
      .before (vs ++ later) (.finished limit) current' := by
    rw [visited, hvisit]
    exact hcursor
  refine h.counts_taken hinside howes hparts ?_ ?_ hleft fun hgoing => ?_
  · simp [visited, hvisit, hread, henters]
  · simpa [visited, hvisit] using hstate
  · simp only [visited, hvisit] at hgoing
    split at hgoing
    · exact hvs _ ‹_›
    · cases hgoing

theorem Going.counts_followed (hp : p.KeepsArrayHooks base openArrays)
    (h : m.Going limit openArrays stack ts current) {shape : Shape} {inside later : List Token}
    (hinside : WellNested inside) (howes : Owes stack later)
    {decision : Decision} {state : σ}
    (henter : p.enter shape (Turn.keyOf m.keys) m.state = (.ok decision, state))
    (hdecision : decision ≠ .descend) (henters : m.entersArray p (.opening shape) = false)
    (hstate : openArrays state = openArrays m.state) :
    (m.visited p (.opening shape) (openingCursor limit shape inside later)).Counts limit
      openArrays := by
  have hvisit : ∀ c, Turn.visit p (.opening shape) m.keys c m.state =
      Turn.follow p shape decision m.keys c state := fun c => by simp [Turn.visit, henter]
  have hcloses := hinside.closes shape
  have hahead : openingCursor limit shape inside later =
      .before (inside ++ [.closing shape]) ((Feed.finished limit).behind later)
        (some (.opening shape)) := by
    rw [← Cursor.before_append, List.append_assoc]
    rfl
  cases decision with
  | descend => exact absurd rfl hdecision
  | unknown answer =>
    exact h.counts_visited [] _ (some (.opening shape)) hinside howes (hvisit _) henters rfl
      (by simp [Turn.follow, openingCursor]) hstate (by simp [Turn.follow])
  | skip =>
    have hskip : (Cursor.before _ _ (some (.opening shape))).skipChildren = _ :=
      Cursor.skipChildren_before hcloses [] ((Feed.finished limit).behind later)
    rw [List.append_nil, ← hahead] at hskip
    have hturn := hvisit (openingCursor limit shape inside later)
    simp only [Turn.follow, hskip] at hturn
    exact h.counts_visited _ [] _ hinside howes hturn henters (List.append_nil _).symm
      (Cursor.before_append [] later (.finished limit) _).symm hstate fun _ _ => rfl
  | process =>
    obtain ⟨turn, us, vs, hparts, hvs, hprocess⟩ :=
      Turn.process_local limit hcloses p m.keys (some (.opening shape)) state
    have htaken := hprocess (Feed.behind later (.finished limit))
    rw [← Feed.behind_on, Feed.on_finished, ← hahead] at htaken
    have hturn := (hvisit (openingCursor limit shape inside later)).trans htaken
    refine h.counts_visited us vs _ hinside howes hturn henters hparts
      (Cursor.before_append vs later (.finished limit) _).symm ?_ hvs
    rw [← hstate, ← hp.state_process m.keys (openingCursor limit shape inside later) state, htaken]

theorem Going.counts_object (hp : p.KeepsArrayHooks base openArrays) {inside later : List Token}
    (h : m.Going limit openArrays stack (.opening .object :: (inside ++ .closing .object :: later))
      current)
    (hinside : WellNested inside) (howes : Owes stack later) :
    (m.visited p (.opening .object) (openingCursor limit .object inside later)).Counts limit
      openArrays := by
  have hcount := hp.enterObject (Turn.keyOf m.keys) m.state
  rcases henter : p.enter .object (Turn.keyOf m.keys) m.state with ⟨fault | decision, state⟩
  · rw [henter] at hcount
    have hvisit : Turn.visit p (.opening .object) m.keys (openingCursor limit .object inside later)
        m.state = ⟨.error fault, m.keys, openingCursor limit .object inside later, state, []⟩ := by
      simp [Turn.visit, henter]
    exact h.counts_visited [] _ (some (.opening .object)) hinside howes hvisit rfl rfl
      (by simp [openingCursor]) hcount (by simp)
  · rw [henter] at hcount
    cases decision with
    | skip => exact h.counts_followed hp hinside howes henter (by simp) rfl hcount
    | process => exact h.counts_followed hp hinside howes henter (by simp) rfl hcount
    | unknown answer => exact h.counts_followed hp hinside howes henter (by simp) rfl hcount
    | descend =>
      have hvisit : Turn.visit p (.opening .object) m.keys
          (openingCursor limit .object inside later) m.state =
            ⟨.ok none, none :: m.keys, openingCursor limit .object inside later, state, []⟩ := by
        simp [Turn.visit, henter, Turn.follow]
      suffices hgoing : Going limit openArrays _ (.object :: stack)
          (inside ++ .closing .object :: later) (some (.opening .object)) from hgoing.counts
      refine ⟨?_, ⟨inside, later, rfl, hinside, howes⟩, ?_, ?_, ?_⟩
      · rw [visited, hvisit]
        rfl
      · have henters : m.entersArray p (.opening .object) = false := rfl
        rw [map_openAfter_visited hvisit rfl, henters, if_neg (by simp), List.append_nil]
        exact h.levels.push_object (openAfter_zero _) fun d hd => openAfter_cons hd _ _
      · rw [visited, hvisit, List.count_cons_of_ne (by decide), ← h.counted]
        exact hcount
      · simpa using h.le_one

theorem Going.counts_array (hp : p.KeepsArrayHooks base openArrays) {inside later : List Token}
    (h : m.Going limit openArrays stack (.opening .array :: (inside ++ .closing .array :: later))
      current)
    (hinside : WellNested inside) (howes : Owes stack later) :
    (m.visited p (.opening .array) (openingCursor limit .array inside later)).Counts limit
      openArrays := by
  obtain ⟨hanswer, hcount⟩ := hp.enterArray (Turn.keyOf m.keys) m.state
  rcases henter : p.enter .array (Turn.keyOf m.keys) m.state with ⟨answer, state⟩
  rw [henter] at hanswer hcount
  dsimp only at hanswer hcount
  rcases Nat.eq_zero_or_pos (openArrays m.state) with hzero | hpos
  · rw [hzero, base.enterArray_zero] at hanswer hcount
    subst hanswer
    have hnone : stack.count .array = 0 := h.counted.symm.trans hzero
    have hvisit : Turn.visit p (.opening .array) m.keys (openingCursor limit .array inside later)
        m.state = ⟨.ok none, m.keys, openingCursor limit .array inside later, state, []⟩ := by
      simp [Turn.visit, henter, Turn.follow]
    suffices hgoing : Going limit openArrays _ (.array :: stack)
        (inside ++ .closing .array :: later) (some (.opening .array)) from hgoing.counts
    refine ⟨?_, ⟨inside, later, rfl, hinside, howes⟩, ?_, ?_, ?_⟩
    · rw [visited, hvisit]
      rfl
    · have henters : m.entersArray p (.opening .array) = true := by
        simp [entersArray, henter]
      rw [map_openAfter_visited hvisit rfl, henters, if_pos rfl]
      exact h.levels.push_array hnone (openAfter_zero _)
    · rw [visited, hvisit, List.count_cons_self, hnone]
      exact hcount
    · simp [hnone]
  · rw [base.enterArray_of_pos hpos] at hanswer hcount
    subst hanswer
    exact h.counts_followed hp hinside howes henter (by simp) (by simp [entersArray, henter]) hcount

theorem Going.counts_closing (hp : p.KeepsArrayHooks base openArrays) {shape : Shape}
    {later : List Token} (h : m.Going limit openArrays stack (.closing shape :: later) current) :
    (m.visited p (.closing shape)
      (.before later (.finished limit) (some (.closing shape)))).Counts limit openArrays := by
  obtain ⟨outer, rfl, howes⟩ := h.owes.of_closing
  have hle : outer.count .array ≤ 1 := (List.count_le_count_cons ..).trans h.le_one
  have hcount : openArrays (p.leave shape (Turn.keyOf m.keys) m.state).2 = outer.count .array := by
    cases shape with
    | object =>
      rw [hp.leaveObject, h.counted, List.count_cons_of_ne (by decide)]
    | array =>
      rw [(hp.leaveArray _ _).2, h.counted, List.count_cons_self]
      rfl
  -- whether the hook fails is of no account: the bracket has been read
  rcases hleave : p.leave shape (Turn.keyOf m.keys) m.state with ⟨answer, state⟩
  rw [hleave] at hcount
  have hvisit : ∃ keys outcome,
      Turn.visit p (.closing shape) m.keys (.before later (.finished limit) (some (.closing shape)))
        m.state =
          ⟨outcome, keys, .before later (.finished limit) (some (.closing shape)), state, []⟩ := by
    cases answer with
    | error fault => exact ⟨m.keys, .error fault, by simp [Turn.visit, hleave]⟩
    | ok =>
      cases shape with
      | object => exact ⟨m.keys.tail, .ok none, by simp [Turn.visit, hleave]⟩
      | array => exact ⟨m.keys, .ok none, by simp [Turn.visit, hleave]⟩
  obtain ⟨keys, outcome, hvisit⟩ := hvisit
  suffices hgoing : Going limit openArrays _ outer later (some (.closing shape)) from hgoing.counts
  refine ⟨by rw [visited, hvisit], howes, ?_, by rw [visited, hvisit]; exact hcount, hle⟩
  have henters : m.entersArray p (.closing shape) = false := rfl
  rw [map_openAfter_visited hvisit rfl, henters, if_neg (by simp), List.append_nil]
  exact h.levels.pop h.le_one (openAfter_zero _) fun d hd => openAfter_cons hd _ _

theorem Going.counts_leaf {t : Token} (ht : t.isOpening = false ∧ t.isClosing = false)
    {ts : List Token} (h : m.Going limit openArrays stack (t :: ts) current) :
    (m.visited p t (.before ts (.finished limit) (some t))).Counts limit openArrays := by
  have hshift : ∀ d, 0 < d → openAfter d [t] = d := by
    intro d hd
    rw [openAfter_cons hd]
    cases t <;> simp_all [Token.isOpening, Token.isClosing]
  have hvisit : ∃ keys, Turn.visit p t m.keys (.before ts (.finished limit) (some t)) m.state =
      ⟨.ok none, keys, .before ts (.finished limit) (some t), m.state, []⟩ := by
    cases t with
    | key name => exact ⟨_, rfl⟩
    | scalar value => exact ⟨_, rfl⟩
    | opening shape => simp [Token.isOpening] at ht
    | closing shape => simp [Token.isClosing] at ht
  have henters : m.entersArray p t = false := by
    cases t <;> simp_all [entersArray, Token.isOpening]
  obtain ⟨keys, hvisit⟩ := hvisit
  suffices hgoing : Going limit openArrays _ stack ts (some t) from hgoing.counts
  refine ⟨by rw [visited, hvisit], h.owes.of_leaf ht, ?_,
    by rw [visited, hvisit]; exact h.counted, h.le_one⟩
  rw [map_openAfter_visited hvisit rfl, henters, if_neg (by simp), List.append_nil]
  exact h.levels.map_same (openAfter_zero _) hshift

theorem Going.counts_token (hp : p.KeepsArrayHooks base openArrays) {t : Token} {ts : List Token}
    (h : m.Going limit openArrays stack (t :: ts) current) :
    (m.visited p t (.before ts (.finished limit) (some t))).Counts limit openArrays := by
  cases t with
  | key name => exact h.counts_leaf ⟨rfl, rfl⟩
  | scalar value => exact h.counts_leaf ⟨rfl, rfl⟩
  | closing shape => exact h.counts_closing hp
  | opening shape =>
    obtain ⟨inside, later, rfl, hinside, howes⟩ := h.owes.of_opening
    cases shape with
    | object => exact h.counts_object hp hinside howes
    | array => exact h.counts_array hp hinside howes

/-- Every step preserves the count. -/
theorem Counts.step (hp : p.KeepsArrayHooks base openArrays) {m' : Moment σ}
    (h : m.Counts limit openArrays) (hstep : m.Step p m') : m'.Counts limit openArrays := by
  cases hstep with
  | token hgoing hnext =>
    obtain ⟨stack, ts, current, hm⟩ := h.going hgoing
    rw [hm.cursor] at hnext
    cases ts with
    | nil => cases hnext
    | cons t ts =>
      obtain ⟨ht, rfl⟩ := Prod.mk.inj hnext
      obtain rfl : _ = t := by simpa using ht.symm
      exact hm.counts_token hp
  | halt hgoing hnext hanswer =>
    obtain ⟨stack, ts, current, hm⟩ := h.going hgoing
    rw [hm.cursor] at hnext
    cases ts with
    | nil =>
      obtain ⟨-, rfl⟩ := Prod.mk.inj hnext
      exact ⟨h.counted, h.le_one, fun _ => h.level (by rw [hm.cursor]; rfl), by simp⟩
    | cons t ts => exact absurd (Prod.mk.inj hnext).1.symm (hanswer t)
  | request serial handle =>
    have hsame := hp.request serial handle m.state
    refine ⟨hsame.trans h.counted, h.le_one, h.level, fun hgoing => ?_⟩
    obtain ⟨stack, ts, current, hm⟩ := h.going hgoing
    exact ⟨stack, ts, current, hm.cursor, hm.owes, hm.levels, hsame.trans hm.counted, hm.le_one⟩

theorem Counts.reaches (hp : p.KeepsArrayHooks base openArrays) {m' : Moment σ}
    (h : m.Counts limit openArrays) (hreaches : m.Reaches p m') : m'.Counts limit openArrays := by
  induction hreaches with
  | refl => exact h
  | tail _ hstep ih => exact ih.step hp hstep

/-! ### Pulls come by these moments -/

def ofWalk (w : Walk) (s : Scene σ) (entered : List (List Token)) : Moment σ :=
  ⟨w.keys, s.cursor, s.state, entered, w.finished⟩

def endsWalk (outcome : Except Fault (Option α)) : Bool :=
  match outcome with
  | .ok (some _) => false
  | _ => true

theorem reaches_traverse (p : Policy σ α) (log : List Entry) (keys : List (Option String))
    (c : Cursor) (s : σ) : ∀ entered, ∃ entered',
      let turn := Turn.traverse p log keys c s
      Reaches p ⟨keys, c, s, entered, false⟩
        ⟨turn.keys, turn.cursor, turn.state, entered', endsWalk turn.outcome⟩ := by
  fun_induction Turn.traverse p log keys c s with
  | case1 log keys c s fault c' hnext =>
    exact fun entered => ⟨entered, .single (.halt rfl hnext (by simp))⟩
  | case2 log keys c s c' hnext =>
    exact fun entered => ⟨entered, .single (.halt rfl hnext (by simp))⟩
  | case3 log keys c s t c' hnext turn hnone ih =>
    intro entered
    let m : Moment σ := ⟨keys, c, s, entered, false⟩
    have hended : (m.visited p t c').ended = false := by
      have hvisit : (Turn.visit p t keys c' s).outcome = .ok none := hnone
      simp only [visited, m, hvisit]
    have hstep : Step p m ⟨turn.keys, turn.cursor, turn.state, (m.visited p t c').entered, false⟩ :=
      hended ▸ Step.token rfl hnext
    obtain ⟨entered', hlater⟩ := ih (m.visited p t c').entered
    exact ⟨entered', hlater.head hstep⟩
  | case4 log keys c s t c' hnext turn hne =>
    intro entered
    let m : Moment σ := ⟨keys, c, s, entered, false⟩
    have hended : (m.visited p t c').ended = endsWalk turn.outcome := by
      rcases hturn : turn.outcome with fault | _ | a
      · simp only [visited, m, show (Turn.visit p t keys c' s).outcome = _ from hturn, endsWalk]
      · exact absurd hturn hne
      · simp only [visited, m, show (Turn.visit p t keys c' s).outcome = _ from hturn, endsWalk]
    have hstep : Step p m ⟨turn.keys, turn.cursor, turn.state, (m.visited p t c').entered,
        endsWalk turn.outcome⟩ := hended ▸ Step.token rfl hnext
    exact ⟨(m.visited p t c').entered, .single hstep⟩

theorem reaches_nextHandle (p : Policy σ α) (w : Walk) (s : Scene σ) (entered : List (List Token)) :
    ∃ entered', (ofWalk w s entered).Reaches p
      (ofWalk (w.nextHandle p s).walk (w.nextHandle p s).scene entered') := by
  cases hw : w.finished with
  | true =>
    rw [Walk.nextHandle, if_pos hw]
    exact ⟨entered, .refl⟩
  | false =>
    obtain ⟨entered', hturn⟩ := reaches_traverse p [] w.keys s.cursor s.state entered
    refine ⟨entered', ?_⟩
    rw [Walk.nextHandle, if_neg (by simp [hw])]
    simp only [ofWalk, hw] at hturn ⊢
    rcases houtcome : (Turn.traverse p [] w.keys s.cursor s.state).outcome with fault | _ | a
    · rw [houtcome] at hturn
      cases fault <;> exact hturn
    · rw [houtcome] at hturn
      exact hturn
    · rw [houtcome] at hturn
      simpa only [hw, endsWalk] using hturn

theorem reaches_pull (p : Policy σ α) (w : Walk) (s : Scene σ) (entered : List (List Token)) :
    ∃ entered', (ofWalk w s entered).Reaches p
      (ofWalk (w.pull p s).walk (w.pull p s).scene entered') := by
  obtain ⟨entered', hfound⟩ := reaches_nextHandle p w s entered
  refine ⟨entered', ?_⟩
  unfold Walk.pull
  dsimp only
  cases (w.nextHandle p s).outcome with
  | stopped => exact hfound
  | failed fault => exact hfound
  | item a =>
    cases hwrites : w.writes with
    | false => exact hfound
    | true =>
      have hrequest := hfound.tail (.request (w.nextHandle p s).scene.count a)
      simp only [ofWalk] at hrequest ⊢
      rcases hanswer : p.request (w.nextHandle p s).scene.count a (w.nextHandle p s).scene.state
        with ⟨answer, state⟩
      rw [hanswer] at hrequest
      simp only [↓reduceIte]
      cases answer with
      | error fault => exact hrequest
      | ok request => exact hrequest

theorem reaches_afterPulls (p : Policy σ α) (w : Walk) (s : Scene σ) (entered : List (List Token))
    (n : Nat) : ∃ entered', (ofWalk w s entered).Reaches p
      (ofWalk (Walk.afterPulls p w s n).1 (Walk.afterPulls p w s n).2 entered') := by
  induction n generalizing w s entered with
  | zero => exact ⟨entered, .refl⟩
  | succ n ih =>
    obtain ⟨entered', hpull⟩ := reaches_pull p w s entered
    obtain ⟨entered'', hlater⟩ := ih (w.pull p s).walk (w.pull p s).scene entered'
    exact ⟨entered'', hpull.trans hlater⟩

end Moment

namespace Policy

variable {base : BasePolicy} {openArrays : σ → Nat} {p : Policy σ α}

/-- For a policy with the array hooks of `base` and any decisions on objects, on well-nested tokens:
at every moment of the split the counter is the number of arrays descended into and not yet left,
which is at most one, and zero at the end; the moments between pulls are among these. After any
sequence of hook calls the counter is at most one. -/
theorem counter_counts_open_arrays (hp : p.KeepsArrayHooks base openArrays) {state : σ}
    (hstate : openArrays state = 0) :
    (∀ ts, WellNested ts → ∀ limit,
      let start : Moment σ := ⟨[], .ofFeed (.on limit (.ofTokens ts)), state, [], false⟩
      (∀ m, start.Reaches p m → openArrays m.state = m.openArrays ∧ m.openArrays ≤ 1 ∧
        (m.cursor.pending = [] → m.openArrays = 0)) ∧
      ∀ writes count n, ∃ entered,
        let (w, s) :=
          Walk.afterPulls p { writes } ⟨.ofFeed (.on limit (.ofTokens ts)), state, count⟩ n
        start.Reaches p ⟨w.keys, s.cursor, s.state, entered, w.finished⟩) ∧
    ∀ calls, openArrays (p.afterHooks state calls) ≤ 1 := by
  refine ⟨fun ts hts limit => ⟨fun m hm => ?_, fun writes count n => ?_⟩, fun calls => ?_⟩
  · have hstart : Moment.Going limit openArrays
        ⟨[], .ofFeed (.on limit (.ofTokens ts)), state, [], false⟩ [] ts none :=
      ⟨Cursor.ofFeed_ofTokens limit ts, hts, ⟨rfl, nofun⟩, hstate, Nat.zero_le 1⟩
    have hcounts := hstart.counts.reaches hp hm
    exact ⟨hcounts.counted, hcounts.le_one, hcounts.level⟩
  · exact Moment.reaches_afterPulls p { writes }
      ⟨.ofFeed (.on limit (.ofTokens ts)), state, count⟩ [] n
  · exact hp.afterHooks_le_one (by omega) calls

end Policy

namespace RuleTable

def byKey : RuleTable where
  base := .array
  rules := [⟨.entering, .object, .exactly (some "skipped"), .decide .skip⟩,
    ⟨.entering, .object, .exactly (some "taken"), .decide .process⟩]

theorem counter_byKey :
    let v : Tree := .object [("skipped", .object [("list", .array [])]),
      ("taken", .object []), ("list", .array [.array [], .object [], .scalar .null])]
    (∀ rule ∈ byKey.rules, rule.shape = .object) ∧
      ∀ m, (⟨[], .ofFeed (.ofTokens v.tokens), {}, [], false⟩ : Moment State).Reaches
        byKey.policy m → m.state.openArrays = m.openArrays := by
  intro v
  have hrules : ∀ rule ∈ byKey.rules, rule.shape = .object := by decide
  have hstart : State.openArrays {} = 0 := rfl
  obtain ⟨hsplit, -⟩ := Policy.counter_counts_open_arrays (keepsArrayHooks hrules) hstart
  obtain ⟨hmoments, -⟩ := hsplit v.tokens (WellNested.tokens v) .standard
  exact ⟨hrules, fun m hm => (hmoments m hm).1⟩

end RuleTable

end JsonCleave
