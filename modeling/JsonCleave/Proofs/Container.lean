import JsonCleave.Reader
import JsonCleave.Proofs.Nesting
import JsonCleave.Proofs.WrittenTree
/-!
# Reading one container

Results of skipping, draining and copying a container. The container is given by its tokens, and
`later` is the feed behind them, which no call inspects. Also the results of a copy when the source
fails first, and at an integer over the digit limit.
-/

namespace JsonCleave

/-- The current token after reading `ts`. -/
def lastToken (current : Option Token) : List Token → Option Token
  | [] => current
  | t :: ts => lastToken (some t) ts

theorem lastToken_append (current : Option Token) (ts us : List Token) :
    lastToken current (ts ++ us) = lastToken (lastToken current ts) us := by
  induction ts generalizing current with
  | nil => rfl
  | cons t ts ih => exact ih _

namespace Feed

def finished (limit : DigitLimit) : Feed := ⟨[], .complete, limit⟩

def behind (ts : List Token) (later : Feed) : Feed :=
  { later with deliveries := ts.map .token ++ later.deliveries }

@[simp] theorem limit_behind (ts : List Token) (later : Feed) :
    (later.behind ts).limit = later.limit := rfl

@[simp] theorem limit_on (limit : DigitLimit) (feed : Feed) : (feed.on limit).limit = limit := rfl

@[simp] theorem deliveries_on (limit : DigitLimit) (feed : Feed) :
    (feed.on limit).deliveries = feed.deliveries := rfl

@[simp] theorem ending_on (limit : DigitLimit) (feed : Feed) :
    (feed.on limit).ending = feed.ending := rfl

@[simp] theorem on_limit (feed : Feed) : feed.on feed.limit = feed := rfl

theorem behind_on (limit : DigitLimit) (ts : List Token) (later : Feed) :
    (later.on limit).behind ts = (later.behind ts).on limit := rfl

theorem on_standard_ofTokens (ts : List Token) :
    (ofTokens ts).on .standard = ofTokens ts := rfl

@[simp] theorem on_finished (limit limit' : DigitLimit) :
    (finished limit').on limit = finished limit := rfl

/-- The next pull on the feed fails with `origin`. -/
def Fails (later : Feed) (origin : Origin) : Prop :=
  later.deliveries.head? = some (.halt (.broken origin)) ∨
    later.deliveries = [] ∧ later.ending = .broken origin

end Feed

namespace Cursor

/-- A cursor with the tokens `ts` in front of it, and the feed `later` behind them. -/
def before (ts : List Token) (later : Feed) (current : Option Token) : Cursor :=
  { pending := ts.map .token ++ later.deliveries, ending := later.ending, limit := later.limit,
    current }

theorem ofFeed_behind (ts : List Token) (later : Feed) :
    ofFeed (later.behind ts) = before ts later none := rfl

theorem ofFeed_ofTokens (limit : DigitLimit) (ts : List Token) :
    ofFeed (.on limit (.ofTokens ts)) = before ts (.finished limit) none := by
  simp [ofFeed, Feed.ofTokens, Feed.on, before, Feed.finished]

@[simp] theorem current_before (ts : List Token) (later : Feed) (current : Option Token) :
    (before ts later current).current = current := rfl

@[simp] theorem limit_before (ts : List Token) (later : Feed) (current : Option Token) :
    (before ts later current).limit = later.limit := rfl

@[simp] theorem next_before_cons (t : Token) (ts : List Token) (later : Feed)
    (current : Option Token) :
    (before (t :: ts) later current).next = (.ok (some t), before ts later (some t)) := rfl

theorem next_before_finished (limit : DigitLimit) (current : Option Token) :
    (before [] (.finished limit) current).next =
      (.ok none, before [] (.finished limit) none) := rfl

end Cursor

/-- The next pull on the feed fails with `fault` and leaves `rest`. -/
def Feed.Raises (later : Feed) (fault : Fault) (rest : Feed) : Prop :=
  ∀ current, (Cursor.before [] later current).next = (.error fault, .before [] rest current)

theorem Feed.Fails.raises {later : Feed} {origin : Origin} (h : later.Fails origin) :
    ∃ rest, later.Raises (.input origin) rest := by
  obtain ⟨deliveries, ending, limit⟩ := later
  rcases h with hhead | ⟨hnil, hending⟩
  · obtain ⟨more, rfl⟩ := List.head?_eq_some_iff.mp hhead
    exact ⟨⟨more, ending, limit⟩, fun current => rfl⟩
  · dsimp only at hnil hending
    subst hnil hending
    exact ⟨_, fun current => rfl⟩

namespace Cursor

theorem next_before_fails {later : Feed} {origin : Origin} (hlater : later.Fails origin)
    (current : Option Token) :
    ∃ c', (before [] later current).next = (.error (.input origin), c') := by
  obtain ⟨rest, hraises⟩ := hlater.raises
  exact ⟨_, hraises current⟩

/-! ## Skips -/

theorem skipOpen_fault {depth : Nat} (hdepth : 0 < depth) {c c' : Cursor} {fault : Fault}
    (hnext : c.next = (.error fault, c')) : skipOpen depth c = (.error fault, c') := by
  rw [skipOpen, if_neg (Nat.pos_iff_ne_zero.mp hdepth)]
  split <;> rename_i heq <;> rw [hnext] at heq <;> simp_all

theorem skipOpen_end {depth : Nat} (hdepth : 0 < depth) {c c' : Cursor}
    (hnext : c.next = (.ok none, c')) : skipOpen depth c = (.ok (), c') := by
  rw [skipOpen, if_neg (Nat.pos_iff_ne_zero.mp hdepth)]
  split <;> rename_i heq <;> rw [hnext] at heq <;> simp_all

theorem skipOpen_before_cons {depth : Nat} (hdepth : 0 < depth) (t : Token) (ts : List Token)
    (later : Feed) (current : Option Token) :
    skipOpen depth (before (t :: ts) later current) =
      skipOpen (t.shift depth) (before ts later (some t)) := by
  rw [skipOpen, if_neg (Nat.pos_iff_ne_zero.mp hdepth)]
  simp only [next_before_cons]

theorem skipOpen_before {depth : Nat} {ts : List Token} (hts : Closes depth ts)
    (us : List Token) (later : Feed) (current : Option Token) :
    skipOpen depth (before (ts ++ us) later current) =
      (.ok (), before us later (lastToken current ts)) := by
  induction ts generalizing depth current with
  | nil =>
    cases depth with
    | zero =>
      rw [skipOpen]
      rfl
    | succ depth => exact hts.elim
  | cons t ts ih =>
    cases depth with
    | zero => simp at hts
    | succ depth =>
      rw [List.cons_append, skipOpen_before_cons (Nat.succ_pos depth)]
      exact ih hts _

theorem skipChildren_before {shape : Shape} {ts : List Token} (hts : Closes 1 ts)
    (us : List Token) (later : Feed) :
    (before (ts ++ us) later (some (.opening shape))).skipChildren =
      (.ok (), before us later (lastToken (some (.opening shape)) ts)) :=
  skipOpen_before hts us later _

end Cursor

namespace Reader

open Cursor

/-! ## Pulls through open views -/

theorem pullThrough_before_cons {β : Type} (closed : Except Fault β)
    (project : Option Token → β) {depths : List Nat} (hdepths : ∀ d ∈ depths, 0 < d)
    (t : Token) (ts : List Token) (later : Feed) (current : Option Token) :
    pullThrough closed project depths (before (t :: ts) later current) =
      (.ok (project (some t)), depths.map t.shift, before ts later (some t)) := by
  induction depths with
  | nil => rfl
  | cons depth inner ih =>
    have hdepth : depth ≠ 0 := Nat.pos_iff_ne_zero.mp (hdepths depth (by simp))
    rw [pullThrough, if_neg hdepth, ih (fun d hd => hdepths d (by simp [hd]))]
    rfl

theorem next_before_cons {depths : List Nat} (hdepths : ∀ d ∈ depths, 0 < d)
    (t : Token) (ts : List Token) (later : Feed) (current : Option Token) :
    (Reader.mk (before (t :: ts) later current) depths).next =
      (.ok (some t), ⟨before ts later (some t), depths.map t.shift⟩) := by
  rw [next, pull, pullThrough_before_cons _ _ hdepths]
  rfl

theorem pullThrough_before_fails {β : Type} (closed : Except Fault β)
    (project : Option Token → β) {depths : List Nat} (hdepths : ∀ d ∈ depths, 0 < d)
    {later : Feed} {origin : Origin} (hlater : later.Fails origin) (current : Option Token) :
    ∃ depths' c', pullThrough closed project depths (before [] later current) =
      (.error (.input origin), depths', c') := by
  induction depths with
  | nil =>
    obtain ⟨c', hc'⟩ := next_before_fails hlater current
    exact ⟨[], c', by rw [pullThrough, hc']⟩
  | cons depth inner ih =>
    have hdepth : depth ≠ 0 := Nat.pos_iff_ne_zero.mp (hdepths depth (by simp))
    obtain ⟨depths', c', hinner⟩ := ih fun d hd => hdepths d (by simp [hd])
    exact ⟨depth :: depths', c', by rw [pullThrough, if_neg hdepth, hinner]⟩

theorem next_before_fails {depths : List Nat} (hdepths : ∀ d ∈ depths, 0 < d) {later : Feed}
    {origin : Origin} (hlater : later.Fails origin) (current : Option Token) :
    ∃ r', (Reader.mk (before [] later current) depths).next = (.error (.input origin), r') := by
  obtain ⟨depths', c', hpull⟩ :=
    pullThrough_before_fails (.error .closedView) id hdepths hlater current
  exact ⟨⟨c', depths'⟩, by rw [next, pull, hpull]⟩

theorem pos_of_mem {depth : Nat} (hdepth : 0 < depth) {depths : List Nat}
    (hdepths : ∀ d ∈ depths, depth ≤ d) : ∀ d ∈ depths, 0 < d := by
  intro d hd
  have hle := hdepths d hd
  omega

theorem le_shift_of_mem_map {t : Token} {depth : Nat} {depths : List Nat}
    (hdepths : ∀ d ∈ depths, depth ≤ d) : ∀ d ∈ depths.map t.shift, t.shift depth ≤ d := by
  intro d hd
  obtain ⟨d', hd', rfl⟩ := List.mem_map.mp hd
  have hle := hdepths d' hd'
  cases t with
  | opening shape => simpa using hle
  | closing shape => exact Nat.sub_le_sub_right hle 1
  | key name => exact hle
  | scalar value => exact hle

theorem map_shift_sub {t : Token} {depth : Nat} (hdepth : 0 < depth) {depths : List Nat}
    (hdepths : ∀ d ∈ depths, depth ≤ d) :
    (depths.map t.shift).map (· - t.shift depth) = depths.map (· - depth) := by
  rw [List.map_map]
  apply List.map_congr_left
  intro d hd
  have hle := hdepths d hd
  cases t with
  | opening shape => simp
  | closing shape =>
    simp only [Function.comp_apply, Token.shift_closing]
    omega
  | key name => rfl
  | scalar value => rfl

theorem depthAfter_le_of_mem_map {ts : List Token} {depth : Nat} {depths : List Nat}
    (hdepths : ∀ d ∈ depths, depth ≤ d) :
    ∀ d ∈ depths.map (depthAfter · ts), depthAfter depth ts ≤ d := by
  induction ts generalizing depth depths with
  | nil => simpa using hdepths
  | cons t ts ih =>
    have hrest := ih (le_shift_of_mem_map (t := t) hdepths)
    rwa [List.map_map] at hrest

theorem pos_depthAfter_of_mem {ts : List Token} {depth : Nat} (hts : StaysOpen depth ts)
    {depths : List Nat} (hdepths : ∀ d ∈ depths, depth ≤ d) :
    ∀ d ∈ depths.map (depthAfter · ts), 0 < d :=
  pos_of_mem hts.depthAfter_pos (depthAfter_le_of_mem_map hdepths)

theorem isDone_writeAll {w : Writer} {ts : List Token} (hts : StaysOpen w.levels.length ts) :
    (w.writeAll ts).isDone = false := by
  rw [Writer.isDone_eq_false, Writer.length_levels_writeAll]
  exact hts.depthAfter_pos

/-! ## Copies -/

theorem copy_opening {r : Reader} {shape : Shape} (hr : r.current = some (.opening shape)) :
    copy r = copyOpen (.start shape) r := by
  rw [copy, hr]

theorem copy_scalar {r : Reader} {value : Scalar} (hr : r.current = some (.scalar value))
    (hvalue : value.excess? r.cursor.limit = none) : copy r = (⟨.ok (), value.written⟩, r) := by
  rw [copy, hr]
  dsimp only
  rw [hvalue]

theorem copy_scalar_excess {r : Reader} {value : Scalar} {excess : DigitExcess}
    (hr : r.current = some (.scalar value)) (hvalue : value.excess? r.cursor.limit = some excess) :
    copy r = (⟨.error (.tooManyDigits excess), ""⟩, r) := by
  rw [copy, hr]
  dsimp only
  rw [hvalue]

theorem reader_copy_scalar {r : Reader} {value : Scalar} (hr : r.current = some (.scalar value)) :
    (copy r).2 = r := by
  rw [copy, hr]
  dsimp only
  split <;> rfl

theorem copyOpen_done {w : Writer} (hw : w.isDone = true) (r : Reader) :
    copyOpen w r = (⟨.ok (), w.text⟩, r) := by
  rw [copyOpen, if_pos hw]

theorem copyOpen_some {w : Writer} (hw : w.isDone = false) {r r' : Reader} {t : Token}
    (hnext : r.next = (.ok (some t), r')) :
    copyOpen w r =
      match t.excess? r.cursor.limit with
      | some excess => (⟨.error (.tooManyDigits excess), (w.separate false).text⟩, r')
      | none => copyOpen (w.write t) r' := by
  rw [copyOpen, if_neg (by simp [hw])]
  split <;> rename_i heq <;> rw [hnext] at heq
  · simp at heq
  · simp at heq
  · obtain ⟨ht, rfl⟩ := Prod.mk.inj heq
    obtain rfl : t = _ := by simpa using ht
    rfl

theorem copyOpen_token {w : Writer} (hw : w.isDone = false) {r r' : Reader} {t : Token}
    (hnext : r.next = (.ok (some t), r')) (ht : t.IsPrintable r.cursor.limit) :
    copyOpen w r = copyOpen (w.write t) r' := by
  rw [copyOpen_some hw hnext, show t.excess? r.cursor.limit = none from ht]

theorem copyOpen_excess {w : Writer} (hw : w.isDone = false) {r r' : Reader} {t : Token}
    {excess : DigitExcess} (hnext : r.next = (.ok (some t), r'))
    (ht : t.excess? r.cursor.limit = some excess) :
    copyOpen w r = (⟨.error (.tooManyDigits excess), (w.separate false).text⟩, r') := by
  rw [copyOpen_some hw hnext, ht]

theorem copyOpen_fault {w : Writer} (hw : w.isDone = false) {r r' : Reader} {fault : Fault}
    (hnext : r.next = (.error fault, r')) : copyOpen w r = (⟨.error fault, w.text⟩, r') := by
  rw [copyOpen, if_neg (by simp [hw])]
  split <;> rename_i heq <;> rw [hnext] at heq <;> simp_all

theorem copyOpen_none {w : Writer} (hw : w.isDone = false) {r r' : Reader}
    (hnext : r.next = (.ok none, r')) :
    copyOpen w r = (⟨.error .unfinishedCopy, w.text⟩, r') := by
  rw [copyOpen, if_neg (by simp [hw])]
  split <;> rename_i heq <;> rw [hnext] at heq <;> simp_all

/-- A copy writes the tokens that close the writer's containers, and stops there. -/
theorem copyOpen_before {w : Writer} {ts : List Token} (hts : Closes w.levels.length ts)
    {later : Feed} (hprint : ∀ t ∈ ts, t.IsPrintable later.limit) {depths : List Nat}
    (hdepths : ∀ d ∈ depths, w.levels.length ≤ d) (us : List Token) (current : Option Token) :
    copyOpen w ⟨before (ts ++ us) later current, depths⟩ =
      (⟨.ok (), (w.writeAll ts).text⟩,
        ⟨before us later (lastToken current ts), depths.map (· - w.levels.length)⟩) := by
  induction ts generalizing w depths current with
  | nil =>
    have hlevels : w.levels = [] := by
      cases hlevels : w.levels with
      | nil => rfl
      | cons level outer =>
        rw [hlevels] at hts
        exact hts.elim
    rw [copyOpen_done (by simp [Writer.isDone, hlevels])]
    simp [hlevels, lastToken]
  | cons t ts ih =>
    have hpos := hts.depth_pos
    have hopen := pos_of_mem hpos hdepths
    have hmap := le_shift_of_mem_map (t := t) hdepths
    have hsub := map_shift_sub (t := t) hpos hdepths
    rw [closes_cons hpos] at hts
    rw [← w.length_levels_write t] at hts hmap hsub
    rw [List.cons_append, copyOpen_token (Writer.isDone_eq_false.mpr hpos)
      (next_before_cons hopen t _ later current) (hprint t (by simp)),
      ih hts (fun u hu => hprint u (by simp [hu])) hmap, hsub]
    rfl

theorem copyOpen_append {w : Writer} {ts : List Token} (hts : StaysOpen w.levels.length ts)
    {later : Feed} (hprint : ∀ t ∈ ts, t.IsPrintable later.limit) {depths : List Nat}
    (hdepths : ∀ d ∈ depths, w.levels.length ≤ d) (us : List Token) (current : Option Token) :
    copyOpen w ⟨before (ts ++ us) later current, depths⟩ =
      copyOpen (w.writeAll ts)
        ⟨before us later (lastToken current ts), depths.map (depthAfter · ts)⟩ := by
  induction ts generalizing w depths current with
  | nil => simp [lastToken]
  | cons t ts ih =>
    have hpos := hts.depth_pos
    have hopen := pos_of_mem hpos hdepths
    have hmap := le_shift_of_mem_map (t := t) hdepths
    rw [staysOpen_cons hpos] at hts
    rw [← w.length_levels_write t] at hts hmap
    rw [List.cons_append, copyOpen_token (Writer.isDone_eq_false.mpr hpos)
      (next_before_cons hopen t _ later current) (hprint t (by simp)),
      ih hts (fun u hu => hprint u (by simp [hu])) hmap, List.map_map]
    rfl

theorem copyOpen_before_fails {w : Writer} {ts : List Token}
    (hts : StaysOpen w.levels.length ts) {later : Feed} {origin : Origin}
    (hprint : ∀ t ∈ ts, t.IsPrintable later.limit) {depths : List Nat}
    (hdepths : ∀ d ∈ depths, w.levels.length ≤ d) (hlater : later.Fails origin)
    (current : Option Token) :
    ∃ r', copyOpen w ⟨before ts later current, depths⟩ =
      (⟨.error (.input origin), (w.writeAll ts).text⟩, r') := by
  obtain ⟨r', hnext⟩ :=
    next_before_fails (pos_depthAfter_of_mem hts hdepths) hlater (lastToken current ts)
  have happend := copyOpen_append hts hprint hdepths [] current
  rw [List.append_nil] at happend
  exact ⟨r', by rw [happend, copyOpen_fault (isDone_writeAll hts) hnext]⟩

/-- A copy fails at an integer over the limit, after the comma in front of it. -/
theorem copyOpen_before_excess {w : Writer} {ts : List Token}
    (hts : StaysOpen w.levels.length ts) {later : Feed}
    (hprint : ∀ t ∈ ts, t.IsPrintable later.limit) {depths : List Nat}
    (hdepths : ∀ d ∈ depths, w.levels.length ≤ d) {t : Token} {excess : DigitExcess}
    (ht : t.excess? later.limit = some excess) (us : List Token) (current : Option Token) :
    copyOpen w ⟨before (ts ++ t :: us) later current, depths⟩ =
      (⟨.error (.tooManyDigits excess), ((w.writeAll ts).separate false).text⟩,
        ⟨before us later (some t), depths.map (depthAfter · (ts ++ [t]))⟩) := by
  rw [copyOpen_append hts hprint hdepths,
    copyOpen_excess (isDone_writeAll hts)
      (next_before_cons (pos_depthAfter_of_mem hts hdepths) t us later _) ht,
    List.map_map]
  simp [Function.comp_def]

theorem pull_of_next_none {β : Type} (closed : Except Fault β) (project : Option Token → β)
    {depth : Nat} (hdepth : 0 < depth) {c : Cursor} {rest : Feed}
    (hend : c.next = (.ok none, before [] rest none)) :
    pull closed project ⟨c, [depth]⟩ =
      (.error .unfinishedView, ⟨before [] rest none, [depth]⟩) := by
  have hne : depth ≠ 0 := Nat.pos_iff_ne_zero.mp hdepth
  simp [pull, pullThrough, hne, hend]

/-- The fault of a copy that finds no more tokens, on a cursor and on a view. -/
def copyFault : List Nat → Fault
  | [] => .unfinishedCopy
  | _ :: _ => .unfinishedView

theorem copyOpen_before_ends {later rest : Feed}
    (hend : ∀ current, (before [] later current).next = (.ok none, before [] rest none))
    {w : Writer} {ts : List Token} (hts : StaysOpen w.levels.length ts)
    (hprint : ∀ t ∈ ts, t.IsPrintable later.limit) {depths : List Nat}
    (hdepths : ∀ d ∈ depths, w.levels.length ≤ d) (hlength : depths.length ≤ 1)
    (current : Option Token) :
    copyOpen w ⟨before ts later current, depths⟩ =
      (⟨.error (copyFault depths), (w.writeAll ts).text⟩,
        ⟨before [] rest none, depths.map (depthAfter · ts)⟩) := by
  have happend := copyOpen_append hts hprint hdepths [] current
  rw [List.append_nil] at happend
  rw [happend]
  have hpos := pos_depthAfter_of_mem hts hdepths
  match depths with
  | [] => exact copyOpen_none (isDone_writeAll hts) (by simp [next, pull, pullThrough, hend])
  | [depth] =>
    exact copyOpen_fault (isDone_writeAll hts)
      (pull_of_next_none _ _ (hpos _ (List.mem_singleton_self _)) (hend _))

theorem writeAll_start {shape : Shape} {v : Tree} {ts : List Token}
    (hv : v.tokens = .opening shape :: ts) : ((Writer.start shape).writeAll ts).text = v.text := by
  have hstart : Writer.start shape = Writer.write ⟨[], ""⟩ (.opening shape) := by
    simp [Writer.start, Writer.write, Writer.put, Writer.separate]
  rw [hstart, ← Writer.writeAll_cons, ← hv, Tree.writeAll_tokens]
  simp [Writer.put, Writer.separate]

/-- Copying a container writes its compact text and reads up to its closing bracket. -/
theorem copy_before {v : Tree} {shape : Shape} (hv : v.shape? = some shape) {later : Feed}
    (hprint : v.IsPrintable later.limit) {depths : List Nat} (hdepths : ∀ d ∈ depths, 1 ≤ d)
    (us : List Token) :
    copy ⟨before (v.laterTokens ++ us) later v.tokens.head?, depths⟩ =
      (⟨.ok (), v.text⟩,
        ⟨before us later (lastToken v.tokens.head? v.laterTokens), depths.map (· - 1)⟩) := by
  have hcurrent : v.tokens.head? = some (.opening shape) := by
    rw [Tree.tokens_of_shape hv, List.head?_cons]
  have hcloses : Closes (Writer.start shape).levels.length v.laterTokens :=
    Tree.closes_laterTokens hv
  rw [hcurrent, copy_opening rfl, copyOpen_before hcloses hprint.laterTokens hdepths,
    writeAll_start (Tree.tokens_of_shape hv)]
  rfl

/-! ## Drains -/

theorem drain_closed {r : Reader} (hr : r.isOpen = false) : drain r = (.ok (), r) := by
  rw [drain, if_neg (by simp [hr])]

theorem drain_token {r r' : Reader} {t : Token} (hr : r.isOpen = true)
    (hnext : r.next = (.ok (some t), r')) : drain r = drain r' := by
  rw [drain, if_pos hr]
  split <;> rename_i heq <;> rw [hnext] at heq
  · simp at heq
  · simp at heq
  · simp_all

theorem drain_fault {r r' : Reader} {fault : Fault} (hr : r.isOpen = true)
    (hnext : r.next = (.error fault, r')) : drain r = (.error fault, r') := by
  rw [drain, if_pos hr]
  split <;> rename_i heq <;> rw [hnext] at heq <;> simp_all

/-- Draining a view reads up to the closing bracket of its container. -/
theorem drain_before {depth : Nat} {ts : List Token} (hts : Closes depth ts) (us : List Token)
    (later : Feed) (current : Option Token) :
    drain ⟨before (ts ++ us) later current, [depth]⟩ =
      (.ok (), ⟨before us later (lastToken current ts), [0]⟩) := by
  induction ts generalizing depth current with
  | nil =>
    obtain rfl : depth = 0 := by
      cases depth with
      | zero => rfl
      | succ depth => exact hts.elim
    exact drain_closed rfl
  | cons t ts ih =>
    have hpos := hts.depth_pos
    have hopen : Reader.isOpen ⟨before (t :: (ts ++ us)) later current, [depth]⟩ = true := by
      simpa [Reader.isOpen] using Nat.pos_iff_ne_zero.mp hpos
    rw [closes_cons hpos] at hts
    rw [List.cons_append,
      drain_token hopen (next_before_cons (by simpa using hpos) t _ later current)]
    exact ih hts _

end Reader

def Tree.view (limit : DigitLimit) (v : Tree) : Reader :=
  Reader.view ⟨.before v.laterTokens (.finished limit) v.tokens.head?, []⟩

end JsonCleave
