import Mathlib
import JsonCleave.Session
import JsonCleave.Proofs.OpenArrays
/-!
# Splits that share an array policy

The walks of a splitter share the counter of open arrays. A walk that begins while an array is open
takes its document for an element and hands it out whole; any other walk hands out what it would
hand out alone, whatever pulls of other walks come in between.
-/

namespace JsonCleave

variable {σ α : Type}

/-! ## Uses of a splitter -/

/-- A new source for a splitter, or a pull of one of its walks. -/
inductive Use where
  | split (source : Reads) (writes : Bool)
  | pull (n : Nat)
deriving DecidableEq

namespace Session

def ofPolicy (p : Policy σ α) (state : σ) : Session σ α :=
  { actors := [⟨p, state⟩], splitters := [{ policy := 0 }] }

def use (s : Session σ α) : Use → Option (Outcome (Item α)) × Session σ α
  | .split source writes =>
    let (cursor, s') := s.addCursor (.ofFeed (.ofReads source))
    match s'.addWalk (some 0) cursor writes with
    | .ok (_, s'') => (none, s'')
    | .error _ => (none, s')
  | .pull n =>
    match s.pull n with
    | some (outcome, s') => (some outcome, s')
    | none => (none, s)

def afterUses (s : Session σ α) (uses : List Use) : Session σ α :=
  uses.foldl (fun s u => (s.use u).2) s

/-- The outcomes of one walk among all uses. -/
def outcomesOf (n : Nat) (s : Session σ α) : List Use → List (Outcome α)
  | [] => []
  | u :: uses =>
    let (outcome, s') := s.use u
    let here := if u = .pull n then (outcome.map (·.map Item.content)).toList else []
    here ++ outcomesOf n s' uses

def openArrays (s : Session Nat α) : Nat := (s.actors.head?.map Actor.state).getD 0

/-! ### The array policy -/

def sharing (walks : List (Walk × Cursor)) (openArrays count : Nat) : Session Nat Payload where
  cursors := walks.map Prod.snd
  actors := [⟨.array, openArrays⟩]
  splitters := [{ policy := 0, count }]
  courses := walks.mapIdx fun n x => { walk := x.1, splitter := 0, policy := 0, cursor := n }

theorem ofPolicy_array : ofPolicy .array 0 = sharing [] 0 0 := rfl

theorem use_split (walks : List (Walk × Cursor)) (openArrays count : Nat) (source : Reads)
    (writes : Bool) :
    (sharing walks openArrays count).use (.split source writes) =
      (none, sharing (walks ++ [({ writes := writes }, .ofFeed (.ofReads source))])
        openArrays count) := by
  simp [use, addCursor, addWalk, sharing, List.mapIdx_append]

theorem use_pull {walks : List (Walk × Cursor)} {n : Nat} {w : Walk} {c : Cursor}
    (hn : walks[n]? = some (w, c)) (openArrays count : Nat) :
    (sharing walks openArrays count).use (.pull n) =
      let pulled := w.pull .array ⟨c, openArrays, count⟩
      (some pulled.outcome, sharing (walks.set n (pulled.walk, pulled.scene.cursor))
        pulled.scene.state pulled.scene.count) := by
  simp [use, pull, scene?, putCourse, setState, sharing, hn]

theorem use_pull_absent {walks : List (Walk × Cursor)} {n : Nat} (hn : walks[n]? = none)
    (openArrays count : Nat) :
    (sharing walks openArrays count).use (.pull n) = (none, sharing walks openArrays count) := by
  simp [use, pull, sharing, hn]

/-! ### What every use preserves -/

def OutsideBut (holder : Option Nat) (walks : List (Walk × Cursor)) : Prop :=
  ∀ (n : Nat) (x : Walk × Cursor), walks[n]? = some x → holder ≠ some n → Policy.Outside x.1 x.2

variable {walks : List (Walk × Cursor)} {holder : Option Nat} {openArrays count : Nat}

theorem OutsideBut.of_none (h : OutsideBut none walks) (holder : Option Nat) :
    OutsideBut holder walks := fun n x hx _ => h n x hx (by simp)

theorem OutsideBut.set {holder' : Option Nat} (h : OutsideBut holder walks) {n : Nat}
    {x : Walk × Cursor} (hx : holder' ≠ some n → Policy.Outside x.1 x.2)
    (hholder : ∀ m, n ≠ m → holder = some m → holder' = some m) :
    OutsideBut holder' (walks.set n x) := by
  intro m y hy hm
  by_cases hnm : n = m
  · subst hnm
    rw [List.getElem?_set, if_pos rfl] at hy
    split at hy
    · obtain rfl := Option.some.inj hy
      exact hx hm
    · cases hy
  · rw [List.getElem?_set_ne hnm] at hy
    exact h m y hy fun h' => hm (hholder m hnm h')

theorem OutsideBut.split (h : OutsideBut holder walks) (source : Reads) (writes : Bool) :
    OutsideBut holder (walks ++ [({ writes := writes }, .ofFeed (.ofReads source))]) := by
  intro n x hx hn
  rcases Nat.lt_or_ge n walks.length with hlt | hge
  · rw [List.getElem?_append_left hlt] at hx
    exact h n x hx hn
  · rw [List.getElem?_append_right hge] at hx
    obtain rfl : ({ writes := writes }, Cursor.ofFeed (.ofReads source)) = x := by
      cases hsub : n - walks.length <;> simp_all
    exact .fresh _ source

/-- At most one walk is in the open array, if there is one; all others are outside. -/
def Apart (walks : List (Walk × Cursor)) (openArrays : Nat) : Prop :=
  openArrays = 0 ∧ OutsideBut none walks ∨ openArrays = 1 ∧ ∃ holder, OutsideBut holder walks

theorem Apart.split (h : Apart walks openArrays) (source : Reads) (writes : Bool) :
    Apart (walks ++ [({ writes := writes }, .ofFeed (.ofReads source))]) openArrays := by
  rcases h with ⟨hzero, hall⟩ | ⟨hone, holder, hothers⟩
  · exact .inl ⟨hzero, hall.split source writes⟩
  · exact .inr ⟨hone, holder, hothers.split source writes⟩

theorem Apart.pull (h : Apart walks openArrays) {n : Nat} {w : Walk} {c : Cursor}
    (hn : walks[n]? = some (w, c)) (count : Nat) :
    let pulled := w.pull .array ⟨c, openArrays, count⟩
    Apart (walks.set n (pulled.walk, pulled.scene.cursor)) pulled.scene.state := by
  -- the walk now lies in the open array, or it has ended and none of them does
  have hmoves (hle : openArrays ≤ 1) (hothers : OutsideBut (some n) walks) :
      let pulled := w.pull .array ⟨c, openArrays, count⟩
      Apart (walks.set n (pulled.walk, pulled.scene.cursor)) pulled.scene.state := by
    intro pulled
    rcases Policy.pull_array_cases w c hle count with hone | ⟨hfinished, hstate⟩
    · exact .inr ⟨hone, some n, hothers.set (absurd rfl) fun _ _ => id⟩
    · have hall : OutsideBut none (walks.set n (pulled.walk, pulled.scene.cursor)) :=
        hothers.set (fun _ => .finished hfinished _) fun m hnm hm => absurd (by simpa using hm) hnm
      rcases Nat.le_one_iff_eq_zero_or_eq_one.mp hstate with hzero | hone
      · exact .inl ⟨hzero, hall⟩
      · exact .inr ⟨hone, none, hall⟩
  rcases h with ⟨rfl, hall⟩ | ⟨rfl, holder, hothers⟩
  · exact hmoves (Nat.zero_le 1) (hall.of_none _)
  · by_cases hholder : holder = some n
    · exact hmoves (Nat.le_refl 1) (hholder ▸ hothers)
    · obtain ⟨hstate, houtside⟩ := (hothers n _ hn hholder).keepsOut count
      exact .inr ⟨hstate, holder, hothers.set (fun _ => houtside) fun _ _ => id⟩

/-- Any uses keep the walks apart, and leave a walk that is not pulled as it is. -/
theorem exists_afterUses (h : Apart walks openArrays) (count : Nat) (uses : List Use) :
    ∃ walks' openArrays' count',
      (sharing walks openArrays count).afterUses uses = sharing walks' openArrays' count' ∧
        Apart walks' openArrays' ∧
        ∀ (n : Nat) (x : Walk × Cursor), walks[n]? = some x → .pull n ∉ uses →
          walks'[n]? = some x := by
  induction uses generalizing walks openArrays count with
  | nil => exact ⟨walks, openArrays, count, rfl, h, fun _ _ hx _ => hx⟩
  | cons u uses ih =>
    rw [afterUses, List.foldl_cons]
    cases u with
    | split source writes =>
      obtain ⟨walks', openArrays', count', hafter, hapart, hkept⟩ :=
        ih (h.split source writes) count
      rw [use_split]
      refine ⟨walks', openArrays', count', hafter, hapart, fun n x hx hn => hkept n x ?_ ?_⟩
      · rw [List.getElem?_append_left (List.getElem?_eq_some_iff.mp hx).1, hx]
      · exact fun hmem => hn (List.mem_cons_of_mem _ hmem)
    | pull m =>
      cases hm : walks[m]? with
      | none =>
        obtain ⟨walks', openArrays', count', hafter, hapart, hkept⟩ := ih h count
        rw [use_pull_absent hm]
        exact ⟨walks', openArrays', count', hafter, hapart, fun n x hx hn =>
          hkept n x hx fun hmem => hn (List.mem_cons_of_mem _ hmem)⟩
      | some x =>
        obtain ⟨walks', openArrays', count', hafter, hapart, hkept⟩ :=
          ih (h.pull hm count) (x.1.pull .array ⟨x.2, openArrays, count⟩).scene.count
        rw [use_pull hm]
        refine ⟨walks', openArrays', count', hafter, hapart, fun n y hy hn => hkept n y ?_ ?_⟩
        · have hne : m ≠ n := fun heq => hn (by simp [heq])
          rw [List.getElem?_set_ne hne, hy]
        · exact fun hmem => hn (List.mem_cons_of_mem _ hmem)

/-! ### Outcomes -/

theorem outcomesOf_split (n : Nat) (source : Reads) (writes : Bool) (uses : List Use) :
    outcomesOf n (sharing walks openArrays count) (.split source writes :: uses) =
      outcomesOf n (sharing (walks ++ [({ writes := writes }, .ofFeed (.ofReads source))])
        openArrays count) uses := by
  simp [outcomesOf, use_split]

theorem outcomesOf_pull {n : Nat} {w : Walk} {c : Cursor} (hn : walks[n]? = some (w, c))
    (uses : List Use) :
    outcomesOf n (sharing walks openArrays count) (.pull n :: uses) =
      let pulled := w.pull .array ⟨c, openArrays, count⟩
      pulled.outcome.map Item.content :: outcomesOf n
        (sharing (walks.set n (pulled.walk, pulled.scene.cursor)) pulled.scene.state
          pulled.scene.count) uses := by
  simp [outcomesOf, use_pull hn]

theorem outcomesOf_pull_other {n m : Nat} (hmn : m ≠ n) {w : Walk} {c : Cursor}
    (hm : walks[m]? = some (w, c)) (uses : List Use) :
    outcomesOf n (sharing walks openArrays count) (.pull m :: uses) =
      let pulled := w.pull .array ⟨c, openArrays, count⟩
      outcomesOf n (sharing (walks.set m (pulled.walk, pulled.scene.cursor)) pulled.scene.state
        pulled.scene.count) uses := by
  simp [outcomesOf, use_pull hm, hmn]

theorem outcomesOf_pull_absent {n m : Nat} (hmn : m ≠ n) (hm : walks[m]? = none)
    (uses : List Use) :
    outcomesOf n (sharing walks openArrays count) (.pull m :: uses) =
      outcomesOf n (sharing walks openArrays count) uses := by
  simp [outcomesOf, use_pull_absent hm, hmn]

theorem outcomesOf_pull_alone (w : Walk) (c : Cursor) (openArrays count count' : Nat)
    (uses : List Use) :
    ∃ later, outcomesOf 0 (sharing [(w, c)] openArrays count') (.pull 0 :: uses) =
      let pulled := w.pull .array ⟨c, openArrays, count⟩
      pulled.outcome.map Item.content :: outcomesOf 0
        (sharing [(pulled.walk, pulled.scene.cursor)] pulled.scene.state later) uses := by
  obtain ⟨houtcome, hwalk, hcursor, hstate⟩ :=
    Policy.pull_array_count w c openArrays count count'
  refine ⟨(w.pull .array ⟨c, openArrays, count'⟩).scene.count, ?_⟩
  rw [outcomesOf_pull rfl]
  dsimp only
  rw [houtcome, hwalk, hcursor, hstate]
  rfl

theorem outcomesOf_eq_alone {n : Nat} {w : Walk} {c : Cursor} (hn : walks[n]? = some (w, c))
    (openAlone : Nat)
    (h : w.finished = true ∨ openArrays = 1 ∧ openAlone = 1 ∧ OutsideBut (some n) walks)
    (uses : List Use) (count' : Nat) :
    outcomesOf n (sharing walks openArrays count) uses =
      outcomesOf 0 (sharing [(w, c)] openAlone count')
        (List.replicate (uses.count (.pull n)) (.pull 0)) := by
  have hlt := (List.getElem?_eq_some_iff.mp hn).1
  induction uses generalizing walks openArrays count w c openAlone count' with
  | nil => rfl
  | cons u uses ih =>
    cases u with
    | split source writes =>
      rw [outcomesOf_split, List.count_cons_of_ne (by simp)]
      refine ih ?_ openAlone (h.imp_right fun ⟨hone, halone, hothers⟩ =>
        ⟨hone, halone, hothers.split source writes⟩) count' ?_
      · rw [List.getElem?_append_left hlt, hn]
      · rw [List.length_append]
        omega
    | pull m =>
      by_cases hmn : m = n
      · subst hmn
        rw [List.count_cons_self, List.replicate_succ, outcomesOf_pull hn]
        have hset {x : Walk × Cursor} : (walks.set m x)[m]? = some x := List.getElem?_set_self hlt
        rcases h with hw | ⟨rfl, rfl, hothers⟩
        · have halone : [(w, c)][0]? = some (w, c) := rfl
          rw [outcomesOf_pull halone, Walk.pull_finished _ _ hw, Walk.pull_finished _ _ hw]
          exact congrArg _ (ih hset _ (.inl hw) _ (by rwa [List.length_set]))
        · obtain ⟨later, halone⟩ := outcomesOf_pull_alone w c 1 count count'
            (List.replicate (uses.count (.pull m)) (.pull 0))
          rw [halone]
          refine congrArg _ (ih hset _ ?_ _ (by rwa [List.length_set]))
          rcases Policy.pull_array_cases w c (Nat.le_refl 1) count with hone | ⟨hfinished, -⟩
          · exact .inr ⟨hone, hone, hothers.set (absurd rfl) fun _ _ => id⟩
          · exact .inl hfinished
      · rw [List.count_cons_of_ne (by simpa using hmn)]
        cases hm : walks[m]? with
        | none =>
          rw [outcomesOf_pull_absent hmn hm]
          exact ih hn openAlone h count' hlt
        | some x =>
          rw [outcomesOf_pull_other hmn hm]
          refine ih ?_ openAlone ?_ count' ?_
          · rw [List.getElem?_set_ne hmn, hn]
          · refine h.imp_right fun ⟨hone, halone, hothers⟩ => ?_
            subst hone
            obtain ⟨hstate, houtside⟩ :=
              (hothers m x hm (by simpa using Ne.symm hmn)).keepsOut count
            exact ⟨hstate, halone, hothers.set (fun _ => houtside) fun _ _ => id⟩
          · rwa [List.length_set]

theorem outcomesOf_finished_alone {w : Walk} (hw : w.finished = true) (c : Cursor) (k : Nat) :
    outcomesOf 0 (sharing [(w, c)] openArrays count) (List.replicate k (.pull 0)) =
      List.replicate k .stopped := by
  induction k generalizing count with
  | zero => rfl
  | succ k ih =>
    rw [List.replicate_succ, outcomesOf_pull rfl, Walk.pull_finished _ _ hw, List.replicate_succ]
    exact congrArg _ ih

theorem outcomesOf_fresh {n : Nat} {w : Walk} {c : Cursor} (hn : walks[n]? = some (w, c))
    (h : OutsideBut none walks) (later : List Use) :
    outcomesOf n (sharing walks 0 count) (.pull n :: later) =
      outcomesOf 0 (sharing [(w, c)] 0 0)
        (.pull 0 :: List.replicate (later.count (.pull n)) (.pull 0)) := by
  have hlt := (List.getElem?_eq_some_iff.mp hn).1
  obtain ⟨count', halone⟩ := outcomesOf_pull_alone w c 0 count 0
    (List.replicate (later.count (.pull n)) (.pull 0))
  rw [halone, outcomesOf_pull hn]
  refine congrArg _ (outcomesOf_eq_alone (List.getElem?_set_self hlt) _ ?_ later _)
  rcases Policy.pull_array_cases w c (Nat.zero_le 1) count with hone | ⟨hfinished, -⟩
  · have hothers : OutsideBut (some n) walks := h.of_none _
    exact .inr ⟨hone, hone, hothers.set (absurd rfl) fun _ _ => id⟩
  · exact .inl hfinished

theorem outcomesOf_no_container {n : Nat} {v : Tree} (hv : v.shape? = none) {writes : Bool}
    (hn : walks[n]? = some ({ writes := writes }, .ofFeed (.ofTokens v.tokens)))
    (later : List Use) :
    outcomesOf n (sharing walks openArrays count) (.pull n :: later) =
      outcomesOf 0 (sharing [({ writes := writes }, .ofFeed (.ofTokens v.tokens))] 0 0)
        (.pull 0 :: List.replicate (later.count (.pull n)) (.pull 0)) := by
  have hlt := (List.getElem?_eq_some_iff.mp hn).1
  obtain ⟨houtcome, hfinished⟩ :=
    Policy.pull_array_no_container hv (w := { writes := writes }) rfl .standard openArrays count
  obtain ⟨houtcome', hfinished'⟩ :=
    Policy.pull_array_no_container hv (w := { writes := writes }) rfl .standard 0 0
  rw [← Feed.on_standard_ofTokens] at hn ⊢
  rw [outcomesOf_pull hn, outcomesOf_pull rfl]
  dsimp only
  rw [outcomesOf_eq_alone (List.getElem?_set_self hlt) 0 (.inl hfinished) later 0,
    outcomesOf_finished_alone hfinished, houtcome, houtcome']
  exact congrArg _ (outcomesOf_finished_alone hfinished' _ _).symm

theorem outcomesOf_ne_alone {n : Nat} {v : Tree} {shape : Shape} (hv : v.shape? = some shape)
    (hprint : v.IsPrintable .standard) {writes : Bool}
    (hn : walks[n]? = some ({ writes := writes }, .ofFeed (.ofTokens v.tokens)))
    (later : List Use) :
    outcomesOf n (sharing walks 1 count) (.pull n :: later) ≠
      outcomesOf 0 (sharing [({ writes := writes }, .ofFeed (.ofTokens v.tokens))] 0 0)
        (.pull 0 :: List.replicate (later.count (.pull n)) (.pull 0)) := by
  intro heq
  have hlimit : v.IsPrintable (Feed.finished .standard).limit := hprint
  obtain ⟨current, houtcome, -, -⟩ :=
    Policy.pull_array_whole hv hlimit (w := { writes := writes }) rfl none count
  rw [← Feed.on_standard_ofTokens] at hn heq
  rw [outcomesOf_pull hn, outcomesOf_pull rfl] at heq
  have hfirst := (List.cons.inj heq).1
  rw [Cursor.ofFeed_ofTokens, houtcome, ← Cursor.ofFeed_ofTokens] at hfirst
  exact Policy.pull_array_fresh_ne hprint.of_mem_selection { writes := writes } rfl 0 hfirst.symm

/-- Among any earlier and interleaved uses of the splitter, a new walk over a document brings what a
fresh splitter brings if no array is open at its first pull, or the document is a scalar. The
converse holds for documents whose integers are within the digit limit. -/
theorem outcomesOf_eq_fresh_iff {before mid : List Use} {n : Nat}
    (hn : ((ofPolicy .array 0).afterUses before).courses.length = n) {source : Reads} {v : Tree}
    (hsource : Feed.ofReads source = .ofTokens v.tokens) (writes : Bool)
    (hmid : .pull n ∉ mid) (later : List Use) :
    let s := (ofPolicy .array 0).afterUses (before ++ .split source writes :: mid)
    let outcomes := s.outcomesOf n (.pull n :: later)
    let fresh := (ofPolicy .array 0).outcomesOf 0
      (.split source writes :: .pull 0 :: List.replicate (later.count (.pull n)) (.pull 0))
    (s.openArrays = 0 ∨ v.shape? = none → outcomes = fresh) ∧
      (v.IsPrintable .standard →
        (outcomes = fresh ↔ s.openArrays = 0 ∨ v.shape? = none)) := by
  intro s outcomes fresh
  have hstart : Apart [] 0 := .inl ⟨rfl, by simp [OutsideBut]⟩
  obtain ⟨walks, openArrays, count, hbefore, hapart, -⟩ :=
    exists_afterUses hstart 0 before
  rw [← ofPolicy_array] at hbefore
  obtain rfl : walks.length = n := by simpa [hbefore, sharing] using hn
  obtain ⟨walks', openArrays', count', hafter, hapart', hkept⟩ :=
    exists_afterUses (hapart.split source writes) count mid
  have hs : s = sharing walks' openArrays' count' := by
    simp only [s, afterUses, List.foldl_append, List.foldl_cons] at hbefore ⊢
    rw [hbefore, use_split]
    exact hafter
  have hwalk := hkept walks.length _ List.getElem?_concat_length hmid
  rw [hsource] at hwalk
  have hopen : s.openArrays = openArrays' := by rw [hs]; rfl
  have hfresh : fresh =
      outcomesOf 0 (sharing [({ writes := writes }, .ofFeed (.ofTokens v.tokens))] 0 0)
        (.pull 0 :: List.replicate (later.count (.pull walks.length)) (.pull 0)) := by
    simp only [fresh]
    rw [ofPolicy_array, outcomesOf_split, hsource]
    rfl
  have hequal (h : s.openArrays = 0 ∨ v.shape? = none) : outcomes = fresh := by
    simp only [outcomes]
    rw [hfresh, hs]
    rcases h with hzero | hscalar
    · rw [hopen] at hzero
      rcases hapart' with ⟨rfl, hall⟩ | ⟨rfl, -⟩
      · exact outcomesOf_fresh hwalk hall later
      · cases hzero
    · exact outcomesOf_no_container hscalar hwalk later
  refine ⟨hequal, fun hprint => ⟨fun heq => ?_, hequal⟩⟩
  rcases hapart' with ⟨rfl, -⟩ | ⟨rfl, -⟩
  · exact .inl hopen
  · cases hv : v.shape? with
    | none => exact .inr rfl
    | some shape =>
      simp only [outcomes] at heq
      rw [hfresh, hs] at heq
      exact absurd heq (outcomesOf_ne_alone hv hprint hwalk later)

/-! ### A split that is abandoned -/

def earlierRecords : Reads := .ofBytes (utf8Bytes "[\x7b\"a\":1\x7d,\x7b\"b\":2\x7d]")

def laterRecords : Reads := .ofBytes (utf8Bytes "[\x7b\"c\":3\x7d,\x7b\"d\":4\x7d]")

def laterDocument : Tree :=
  .array [.object [("c", .scalar (.number (.integer 3)))],
    .object [("d", .scalar (.number (.integer 4)))]]

theorem outcomesOf_behind_abandoned :
    outcomesOf 1 (ofPolicy .array 0) [.split earlierRecords false, .pull 0,
        .split laterRecords false, .pull 1] =
      [.item ⟨"[\x7b\"c\":3\x7d,\x7b\"d\":4\x7d]", .json⟩] ∧
    outcomesOf 0 (ofPolicy .array 0) [.split laterRecords false, .pull 0] =
      [.item ⟨"\x7b\"c\":3\x7d", .json⟩] :=
  ⟨by cbv, by cbv⟩

theorem outcomesOf_ne_fresh_behind_abandoned :
    ((ofPolicy .array 0).afterUses [.split earlierRecords false, .pull 0]).courses.length = 1 ∧
      Feed.ofReads laterRecords = .ofTokens laterDocument.tokens ∧
      laterDocument.IsPrintable .standard ∧
      .pull 1 ∉ ([] : List Use) ∧
      outcomesOf 1 (afterUses (ofPolicy .array 0) [.split earlierRecords false, .pull 0,
          .split laterRecords false]) [.pull 1] ≠
        outcomesOf 0 (ofPolicy .array 0) [.split laterRecords false, .pull 0] := by
  have hlength : ((ofPolicy .array 0).afterUses
      [.split earlierRecords false, .pull 0]).courses.length = 1 := by cbv
  have hsource : Feed.ofReads laterRecords = .ofTokens laterDocument.tokens := by cbv
  have hopen : (afterUses (ofPolicy .array 0) [.split earlierRecords false, .pull 0,
      .split laterRecords false]).openArrays = 1 := by cbv
  have hmid : .pull 1 ∉ ([] : List Use) := List.not_mem_nil
  have hprint : laterDocument.IsPrintable .standard := by decide
  obtain ⟨-, hiff⟩ := outcomesOf_eq_fresh_iff hlength hsource false hmid []
  refine ⟨hlength, hsource, hprint, hmid, fun heq => ?_⟩
  rcases (hiff hprint).mp heq with hzero | hscalar
  · rw [List.cons_append, List.cons_append, List.nil_append, hopen] at hzero
    cases hzero
  · cases hscalar

end Session

end JsonCleave
