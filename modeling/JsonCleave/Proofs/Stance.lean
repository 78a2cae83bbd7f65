import JsonCleave.Proofs.Boundary
import JsonCleave.Proofs.OpenArrays
/-!
# The array split as a machine over tokens

On arbitrary tokens the array split is a machine with four kinds of states: outside of arrays,
inside one, copying an element, and refused. The last is final; it is entered at an integer over the
digit limit inside an element.
-/

namespace JsonCleave

def Token.IsLeaf (t : Token) : Prop := t.isOpening = false ∧ t.isClosing = false

/-- State of the array split between two tokens, as a machine. `copying` holds the writer of the
element in progress; `refused` is final. -/
inductive Stance where
  | outside
  | inArray
  | copying (w : Writer)
  | refused (excess : DigitExcess)
deriving DecidableEq, Repr

namespace Stance

/-- Transition of the machine, and the text of an element completed by the token. While copying,
closing brackets are counted without regard to their shape. -/
def meet (limit : DigitLimit) : Stance → Token → Stance × Option String
  | .outside, .opening .array => (.inArray, none)
  | .outside, _ => (.outside, none)
  | .inArray, .opening shape => (.copying (.start shape), none)
  | .inArray, .closing .array => (.outside, none)
  | .inArray, _ => (.inArray, none)
  | .copying w, t =>
    match t.excess? limit with
    | some excess => (.refused excess, none)
    | none =>
      if (w.write t).isDone then (.inArray, some (w.write t).text) else (.copying (w.write t), none)
  | .refused excess, _ => (.refused excess, none)

def after (limit : DigitLimit) (stance : Stance) (ts : List Token) : Stance :=
  ts.foldl (fun s t => (s.meet limit t).1) stance

/-- The texts of the elements completed by the tokens. -/
def texts (limit : DigitLimit) : Stance → List Token → List String
  | _, [] => []
  | stance, t :: ts => (stance.meet limit t).2.toList ++ texts limit (stance.meet limit t).1 ts

def reach : Stance → Reach
  | .outside => .between
  | .inArray => .between
  | .copying _ => .inside
  | .refused excess => .beyond excess

def openArrays : Stance → Nat
  | .outside => 0
  | _ => 1

variable {limit : DigitLimit}

@[simp] theorem after_nil (stance : Stance) : stance.after limit [] = stance := rfl

@[simp] theorem after_cons (stance : Stance) (t : Token) (ts : List Token) :
    stance.after limit (t :: ts) = (stance.meet limit t).1.after limit ts := rfl

theorem after_append (stance : Stance) (ts us : List Token) :
    stance.after limit (ts ++ us) = (stance.after limit ts).after limit us := List.foldl_append

theorem texts_append (stance : Stance) (ts us : List Token) :
    stance.texts limit (ts ++ us) =
      stance.texts limit ts ++ (stance.after limit ts).texts limit us := by
  induction ts generalizing stance with
  | nil => rfl
  | cons t ts ih => rw [List.cons_append, texts, ih, texts, after_cons, List.append_assoc]

theorem texts_mono (stance : Stance) {ts us : List Token} (h : ts <+: us) :
    stance.texts limit ts <+: stance.texts limit us := by
  obtain ⟨vs, rfl⟩ := h
  rw [texts_append]
  exact List.prefix_append _ _

theorem snd_meet {stance : Stance} (h : stance.reach = .between) (t : Token) :
    (stance.meet limit t).2 = none := by
  cases stance with
  | copying w => cases h
  | refused excess => rfl
  | outside => rcases t with ⟨⟨⟩⟩ | ⟨⟨⟩⟩ | _ | _ <;> rfl
  | inArray => rcases t with ⟨⟨⟩⟩ | ⟨⟨⟩⟩ | _ | _ <;> rfl

theorem meet_between_on {stance : Stance} (h : stance.reach = .between) (limit limit' : DigitLimit)
    (t : Token) : stance.meet limit t = stance.meet limit' t := by
  cases stance with
  | copying w => cases h
  | refused excess => cases h
  | outside => rcases t with ⟨⟨⟩⟩ | ⟨⟨⟩⟩ | _ | _ <;> rfl
  | inArray => rcases t with ⟨⟨⟩⟩ | ⟨⟨⟩⟩ | _ | _ <;> rfl

theorem meet_between {stance : Stance} (h : stance.reach = .between) (t : Token) :
    (stance.meet limit t).1.reach = .between ∨
      stance = inArray ∧ ∃ shape, t = .opening shape := by
  cases stance with
  | copying w => cases h
  | refused excess => cases h
  | outside => rcases t with ⟨⟨⟩⟩ | ⟨⟨⟩⟩ | _ | _ <;> exact .inl rfl
  | inArray =>
    cases t with
    | opening shape => exact .inr ⟨rfl, shape, rfl⟩
    | closing shape => cases shape <;> exact .inl rfl
    | key name => exact .inl rfl
    | scalar value => exact .inl rfl

/-! ## What the machine preserves -/

/-- A copy in progress has an open container. -/
def IsSound : Stance → Prop
  | .copying w => 0 < w.levels.length
  | _ => True

theorem meet_copying {w : Writer} {t : Token} (ht : t.IsPrintable limit) :
    (copying w).meet limit t =
      if (w.write t).isDone then (inArray, some (w.write t).text)
      else (copying (w.write t), none) := by
  rw [meet, show t.excess? limit = none from ht]

theorem meet_copying_excess {w : Writer} {t : Token} {excess : DigitExcess}
    (ht : t.excess? limit = some excess) :
    (copying w).meet limit t = (refused excess, none) := by
  rw [meet, ht]

theorem isSound_meet {stance : Stance} (h : stance.IsSound) (t : Token) :
    (stance.meet limit t).1.IsSound := by
  cases stance with
  | outside => rcases t with ⟨⟨⟩⟩ | ⟨⟨⟩⟩ | _ | _ <;> trivial
  | inArray => rcases t with ⟨⟨⟩⟩ | ⟨⟨⟩⟩ | _ | _ <;> first | trivial | exact Nat.one_pos
  | refused excess => trivial
  | copying w =>
    cases ht : t.excess? limit with
    | some excess =>
      rw [meet_copying_excess ht]
      trivial
    | none =>
      rw [meet_copying ht]
      cases hdone : (w.write t).isDone with
      | true => trivial
      | false => exact Writer.isDone_eq_false.mp hdone

theorem isSound_after (limit : DigitLimit) {stance : Stance} (h : stance.IsSound)
    (ts : List Token) : (stance.after limit ts).IsSound := by
  induction ts generalizing stance with
  | nil => exact h
  | cons t ts ih => exact ih (isSound_meet h t)

theorem meet_leaf {stance : Stance} (h : stance.IsSound) {t : Token} (ht : t.IsLeaf) :
    (stance.meet limit t).2 = none := by
  cases stance with
  | outside => exact snd_meet rfl t
  | inArray => exact snd_meet rfl t
  | refused excess => rfl
  | copying w =>
    cases hexcess : t.excess? limit with
    | some excess => rw [meet_copying_excess hexcess]
    | none =>
      have hopen : (w.write t).isDone = false := by
        rw [Writer.isDone_eq_false, w.length_levels_write]
        obtain ⟨hopening, hclosing⟩ := ht
        cases t with
        | opening shape => cases hopening
        | closing shape => cases hclosing
        | key name => exact h
        | scalar value => exact h
      simp [meet_copying hexcess, hopen]

theorem texts_leaves {stance : Stance} (h : stance.IsSound) {ts : List Token}
    (hts : ∀ t ∈ ts, t.IsLeaf) : stance.texts limit ts = [] := by
  induction ts generalizing stance with
  | nil => rfl
  | cons t ts ih =>
    rw [texts, meet_leaf h (hts t (by simp)),
      ih (isSound_meet h t) fun u hu => hts u (by simp [hu])]
    rfl

theorem refused_final (limit : DigitLimit) (excess : DigitExcess) (ts : List Token) :
    (refused excess).after limit ts = refused excess ∧ (refused excess).texts limit ts = [] := by
  induction ts with
  | nil => exact ⟨rfl, rfl⟩
  | cons t ts ih => exact ih

/-- A limit only cuts off a tail of the texts. -/
theorem texts_prefix_unlimited (limit : DigitLimit) (stance : Stance) (ts : List Token) :
    stance.texts limit ts <+: stance.texts none ts := by
  induction ts generalizing stance with
  | nil => exact List.prefix_rfl
  | cons t ts ih =>
    cases stance with
    | outside =>
      rw [texts, texts, meet_between_on rfl limit none]
      exact (List.prefix_append_right_inj _).mpr (ih _)
    | inArray =>
      rw [texts, texts, meet_between_on rfl limit none]
      exact (List.prefix_append_right_inj _).mpr (ih _)
    | refused excess => exact (List.prefix_append_right_inj _).mpr (ih _)
    | copying w =>
      cases hexcess : t.excess? limit with
      | none =>
        rw [texts, texts, meet_copying hexcess, meet_copying t.isPrintable_unlimited]
        exact (List.prefix_append_right_inj _).mpr (ih _)
      | some excess =>
        rw [texts, meet_copying_excess hexcess, (refused_final limit excess ts).2]
        exact List.nil_prefix

theorem reach_after_ne_beyond {stance : Stance} {ts : List Token}
    (hstance : ∀ excess, stance.reach ≠ .beyond excess) (hts : ∀ t ∈ ts, t.IsPrintable limit)
    (excess : DigitExcess) : (stance.after limit ts).reach ≠ .beyond excess := by
  induction ts generalizing stance with
  | nil => exact hstance excess
  | cons t ts ih =>
    obtain ⟨ht, hrest⟩ := List.forall_mem_cons.mp hts
    rw [after_cons]
    refine ih (fun excess' => ?_) hrest
    cases stance with
    | refused refusal => exact absurd rfl (hstance refusal)
    | outside => rcases t with ⟨⟨⟩⟩ | ⟨⟨⟩⟩ | _ | _ <;> exact Reach.noConfusion
    | inArray => rcases t with ⟨⟨⟩⟩ | ⟨⟨⟩⟩ | _ | _ <;> exact Reach.noConfusion
    | copying w =>
      rw [meet_copying ht]
      split <;> exact Reach.noConfusion

/-! ## Elements -/

theorem copying_staysOpen {w : Writer} {ts : List Token} (hts : StaysOpen w.levels.length ts)
    (hprint : ∀ t ∈ ts, t.IsPrintable limit) :
    (copying w).after limit ts = copying (w.writeAll ts) ∧ (copying w).texts limit ts = [] := by
  induction ts generalizing w with
  | nil => exact ⟨rfl, rfl⟩
  | cons t ts ih =>
    rw [staysOpen_cons hts.depth_pos, ← w.length_levels_write t] at hts
    have hmeet : (copying w).meet limit t = (copying (w.write t), none) := by
      rw [meet_copying (hprint t (by simp)), Writer.isDone_eq_false.mpr hts.depth_pos]
      rfl
    rw [after_cons, texts, hmeet, Writer.writeAll_cons]
    exact ih hts fun u hu => hprint u (by simp [hu])

theorem copying_excess {w : Writer} {ts : List Token} (hts : StaysOpen w.levels.length ts)
    (hprint : ∀ t ∈ ts, t.IsPrintable limit) {t : Token} {excess : DigitExcess}
    (ht : t.excess? limit = some excess) (us : List Token) :
    (copying w).after limit (ts ++ t :: us) = refused excess ∧
      (copying w).texts limit (ts ++ t :: us) = [] := by
  obtain ⟨hafter, htexts⟩ := copying_staysOpen hts hprint
  obtain ⟨hrest, hnothing⟩ := refused_final limit excess us
  constructor
  · rw [after_append, hafter, after_cons, meet_copying_excess ht, hrest]
  · rw [texts_append, hafter, htexts, texts, meet_copying_excess ht, hnothing]
    rfl

theorem copying_closes {w : Writer} (hw : 0 < w.levels.length) {ts : List Token}
    (hts : Closes w.levels.length ts) (hprint : ∀ t ∈ ts, t.IsPrintable limit) :
    (copying w).after limit ts = inArray ∧
      (copying w).texts limit ts = [(w.writeAll ts).text] := by
  induction ts generalizing w with
  | nil =>
    obtain ⟨depth, hdepth⟩ := Nat.exists_eq_succ_of_ne_zero (Nat.pos_iff_ne_zero.mp hw)
    rw [hdepth] at hts
    exact hts.elim
  | cons t ts ih =>
    have ht := hprint t (by simp)
    rw [closes_cons hw, ← w.length_levels_write t] at hts
    rcases Nat.eq_zero_or_pos (w.write t).levels.length with hzero | hpos
    · rw [hzero, closes_zero] at hts
      subst hts
      have hmeet : (copying w).meet limit t = (inArray, some (w.write t).text) := by
        rw [meet_copying ht, if_pos (by simpa [Writer.isDone] using hzero)]
      rw [after_cons, texts, hmeet]
      exact ⟨rfl, rfl⟩
    · have hmeet : (copying w).meet limit t = (copying (w.write t), none) := by
        rw [meet_copying ht, if_neg (by simp [Writer.isDone_eq_false.mpr hpos])]
      rw [after_cons, texts, hmeet, Writer.writeAll_cons]
      exact ih hpos hts fun u hu => hprint u (by simp [hu])

theorem inArray_container (shape : Shape) {us : List Token} (hus : Closes 1 us)
    (hprint : ∀ t ∈ us, t.IsPrintable limit) (vs : List Token) :
    inArray.after limit (.opening shape :: (us ++ vs)) = inArray.after limit vs ∧
      inArray.texts limit (.opening shape :: (us ++ vs)) =
        ((Writer.start shape).writeAll us).text :: inArray.texts limit vs := by
  obtain ⟨hafter, htexts⟩ := copying_closes (w := .start shape) Nat.one_pos hus hprint
  constructor
  · rw [after_cons, meet, after_append, hafter]
  · rw [texts, meet, texts_append, hafter, htexts]
    rfl

example : inArray.texts .standard
    [.opening .object, .key "a", .closing .array, .closing .object] = ["\x7b\"a\":]"] := by
  decide

theorem inArray_unclosed (shape : Shape) {ts : List Token} (hts : StaysOpen 1 ts)
    (hprint : ∀ t ∈ ts, t.IsPrintable limit) :
    (inArray.after limit (.opening shape :: ts)).reach = .inside ∧
      inArray.texts limit (.opening shape :: ts) = [] := by
  obtain ⟨hafter, htexts⟩ := copying_staysOpen (w := .start shape) hts hprint
  constructor
  · rw [after_cons, meet, hafter]
    rfl
  · rw [texts, meet, htexts]
    rfl

theorem inArray_excess (shape : Shape) {ts : List Token} (hts : StaysOpen 1 ts)
    (hprint : ∀ t ∈ ts, t.IsPrintable limit) {t : Token} {excess : DigitExcess}
    (ht : t.excess? limit = some excess) (us : List Token) :
    (inArray.after limit (.opening shape :: (ts ++ t :: us))).reach = .beyond excess ∧
      inArray.texts limit (.opening shape :: (ts ++ t :: us)) = [] := by
  obtain ⟨hafter, htexts⟩ := copying_excess (w := .start shape) hts hprint ht us
  constructor
  · rw [after_cons, meet, hafter]
    rfl
  · rw [texts, meet, htexts]
    rfl

end Stance

def Reach.endFault? : Reach → Option Fault
  | .between => none
  | .inside => some .unfinishedView
  | .beyond excess => some (.tooManyDigits excess)

namespace Policy

open Cursor (before)
open Turn (visit process)
open Walk (Yields)

variable {limit : DigitLimit}

/-! ## What tokens yield -/

theorem process_array_closes {us : List Token} (hus : Closes 1 us) (vs : List Token) {later : Feed}
    (hprint : ∀ t ∈ us, t.IsPrintable later.limit) (shape : Shape) (keys : List (Option String))
    (openArrays : Nat) :
    ∃ log, process array keys (before (us ++ vs) later (some (.opening shape))) openArrays =
      ⟨.ok (some ⟨((Writer.start shape).writeAll us).text, .json⟩), keys,
        before vs later (lastToken (some (.opening shape)) us), openArrays, log⟩ := by
  have hlevels : Closes (Writer.start shape).levels.length us := hus
  have hcopy : Reader.copyOpen (.start shape)
      ⟨before (us ++ vs) later (some (.opening shape)), [1]⟩ = _ :=
    Reader.copyOpen_before hlevels hprint (by simp [Writer.start]) vs _
  have hbuild : ((array.build openArrays).run
      (Reader.view ⟨before (us ++ vs) later (some (.opening shape)), []⟩)).result =
        (.ok (some ⟨((Writer.start shape).writeAll us).text, .json⟩), openArrays) := by
    simp only [array, Program.run_ofReading, Reading.run_map, Reader.view]
    rw [serialize_run (by rw [Reader.copy_opening rfl, hcopy])]
    rfl
  exact Turn.process_container hus hbuild keys

theorem array_yields_container (shape : Shape) {us : List Token} (hus : Closes 1 us)
    (hprint : ∀ t ∈ us, t.IsPrintable limit) (keys : List (Option String)) :
    Yields array limit (.opening shape :: us) keys 1
      [⟨((Writer.start shape).writeAll us).text, .json⟩] keys 1 := by
  intro vs later current count
  have hown : ∀ t ∈ us, t.IsPrintable (later.on limit).limit := hprint
  obtain ⟨log, hprocess⟩ := process_array_closes hus vs hown shape keys 1
  rw [← visit_array_opening] at hprocess
  exact Walk.quiet_pullAll_before hprocess

theorem array_yields_token {stance : Stance} {t : Token} (hstance : stance.reach = .between)
    (hmeet : (stance.meet limit t).1.reach = .between) (keys : List (Option String)) :
    ∃ keys', Yields array limit [t] keys stance.openArrays [] keys'
      (stance.meet limit t).1.openArrays := by
  cases stance with
  | copying w => cases hstance
  | refused excess => cases hstance
  | outside =>
    cases t with
    | key name => exact ⟨_, .key array limit name keys 0⟩
    | scalar value => exact ⟨_, .scalar array value keys 0⟩
    | opening shape => cases shape <;> exact ⟨_, .descend rfl⟩
    | closing shape => cases shape <;> exact ⟨_, .token fun _ => rfl⟩
  | inArray =>
    cases t with
    | key name => exact ⟨_, .key array limit name keys 1⟩
    | scalar value => exact ⟨_, .scalar array value keys 1⟩
    | opening shape => cases hmeet
    | closing shape => cases shape <;> exact ⟨_, .token fun _ => rfl⟩

/-- The machine describes the array policy on every token sequence. -/
theorem reaches_stance {stance : Stance} (hstance : stance.reach = .between) (ts : List Token)
    (keys : List (Option String)) :
    Reaches limit ts keys stance.openArrays ((stance.texts limit ts).map (⟨·, .json⟩))
      (stance.after limit ts).reach := by
  induction hn : ts.length using Nat.strongRecOn generalizing stance ts keys with
  | ind n ih =>
    subst hn
    cases ts with
    | nil =>
      rw [Stance.after_nil, hstance]
      exact .between (.nil array keys _)
    | cons t ts =>
      rcases Stance.meet_between hstance t with hmeet | ⟨rfl, shape, rfl⟩
      · obtain ⟨keys', ht⟩ := array_yields_token hstance hmeet keys
        have hrest := ih ts.length (Nat.lt_succ_self _) hmeet ts keys' rfl
        rw [Stance.after_cons, Stance.texts, Stance.snd_meet hstance]
        exact .behind ht hrest
      -- an element: it is written and closed, or written and not closed, or not written
      · rcases closes_or_staysOpen_or_excess limit Nat.one_pos ts with
          ⟨us, vs, rfl, hus, hprint⟩ | ⟨hopen, hprint⟩ | ⟨us, u, vs, excess, rfl, hus, hprint, hu⟩
        · obtain ⟨hafter, htexts⟩ := Stance.inArray_container shape hus hprint vs
          have hshorter : vs.length < (Token.opening shape :: (us ++ vs)).length := by
            simp only [List.length_cons, List.length_append]
            omega
          have hrest := ih vs.length hshorter hstance vs keys rfl
          rw [hafter, htexts]
          exact Reaches.behind (array_yields_container shape hus hprint keys) hrest
        · obtain ⟨hafter, htexts⟩ := Stance.inArray_unclosed shape hopen hprint
          rw [hafter, htexts]
          exact .inside (.nil array keys 1) hopen hprint
        · obtain ⟨hafter, htexts⟩ := Stance.inArray_excess shape hus hprint hu vs
          rw [hafter, htexts]
          exact .beyond (.nil array keys 1) hus hprint hu vs

/-! ## Tokens that come to an end -/

theorem array_visit_unfinished {ts : List Token} (hts : StaysOpen 1 ts) {later : Feed}
    (hprint : ∀ t ∈ ts, t.IsPrintable later.limit) (hlater : later.Halts .complete)
    (shape : Shape) (keys : List (Option String)) :
    (visit array (.opening shape) keys (before ts later (some (.opening shape))) 1).outcome =
      .error .unfinishedView := by
  have hone : ∀ d ∈ [1], (Writer.start shape).levels.length ≤ d := by simp [Writer.start]
  obtain ⟨rest, hend⟩ := Cursor.exists_next_before_complete hlater
  exact congrArg Turn.outcome (array_visit_fails rfl
    (Reader.copyOpen_before_ends (w := .start shape) hend hts hprint hone (Nat.le_refl 1) _) keys)

/-- Result of all pulls on tokens with a good ending. -/
theorem array_quiet_pullAll_ends {ts : List Token} {payloads : List Payload} {reach : Reach}
    {later : Feed} (hts : Reaches later.limit ts [] 0 payloads reach)
    (hlater : later.Halts .complete) (count : Nat) :
    ∃ keys cursor state, (Walk.pullAll array {} ⟨before ts later none, 0, count⟩).quiet =
      ⟨payloads.map .handle, some (reach.endFault?.elim (.ok ()) .error),
        { keys, finished := true }, ⟨cursor, state, count + payloads.length⟩, []⟩ := by
  cases hts with
  | between hts =>
    rename_i keys' openArrays'
    have hyields := hts [] later none count
    rw [List.append_nil, Feed.on_limit] at hyields
    obtain ⟨c', hnext⟩ := Cursor.next_before_complete hlater (lastToken none ts)
    have hend := Walk.quiet_pullAll_end (p := array) (w := { keys := keys' })
      (s := ⟨before [] later (lastToken none ts), openArrays', count + payloads.length⟩) rfl hnext
    refine ⟨keys', c', openArrays', ?_⟩
    rw [hyields, hend]
    simp [Walk.Harvest.behind, Reach.endFault?]
  | inside hus hts hprint =>
    rename_i us ts shape keys'
    exact array_quiet_pullAll_stuck hus (array_visit_unfinished hts hprint hlater shape keys') rfl
      count
  | beyond hus hts hprint ht vs =>
    rename_i us ts shape keys' t excess
    have hvisit := array_visit_excess hts hprint ht vs shape keys'
    exact array_quiet_pullAll_stuck hus (congrArg Turn.outcome hvisit) rfl count

end Policy

end JsonCleave
