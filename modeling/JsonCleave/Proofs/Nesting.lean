import JsonCleave.Proofs.Tree
/-!
# Nesting: where open containers are closed

Every loop over the tokens of a container ends where the number of open containers comes down to
zero. `Closes` says that a token sequence ends exactly there, and `StaysOpen` that it ends before.
Neither asks for matching brackets, only for their number. The brackets of a document do match, and
such tokens are neutral to both.
-/

namespace JsonCleave

/-- The last token closes `depth` open containers, and no earlier token does. -/
def Closes : Nat → List Token → Prop
  | 0, ts => ts = []
  | _ + 1, [] => False
  | depth + 1, t :: ts => Closes (t.shift (depth + 1)) ts

/-- At least one of `depth` open containers is open throughout the tokens. -/
def StaysOpen : Nat → List Token → Prop
  | 0, _ => False
  | _ + 1, [] => True
  | depth + 1, t :: ts => StaysOpen (t.shift (depth + 1)) ts

@[simp] theorem closes_zero {ts : List Token} : Closes 0 ts ↔ ts = [] := by
  cases ts <;> simp [Closes]

theorem closes_cons {depth : Nat} (hdepth : 0 < depth) {t : Token} {ts : List Token} :
    Closes depth (t :: ts) ↔ Closes (t.shift depth) ts := by
  cases depth with
  | zero => omega
  | succ depth => rfl

theorem Closes.depth_pos {depth : Nat} {t : Token} {ts : List Token}
    (h : Closes depth (t :: ts)) : 0 < depth := by
  cases depth with
  | zero => simp at h
  | succ depth => omega

theorem staysOpen_cons {depth : Nat} (hdepth : 0 < depth) {t : Token} {ts : List Token} :
    StaysOpen depth (t :: ts) ↔ StaysOpen (t.shift depth) ts := by
  cases depth with
  | zero => omega
  | succ depth => rfl

theorem StaysOpen.depth_pos {depth : Nat} {ts : List Token} (h : StaysOpen depth ts) :
    0 < depth := by
  cases depth with
  | zero => cases ts <;> exact h.elim
  | succ depth => omega

/-- Number of open containers behind the tokens. -/
def depthAfter (depth : Nat) (ts : List Token) : Nat := ts.foldl (fun d t => t.shift d) depth

@[simp] theorem depthAfter_nil (depth : Nat) : depthAfter depth [] = depth := rfl

@[simp] theorem depthAfter_cons (depth : Nat) (t : Token) (ts : List Token) :
    depthAfter depth (t :: ts) = depthAfter (t.shift depth) ts := rfl

@[simp] theorem depthAfter_append (depth : Nat) (ts us : List Token) :
    depthAfter depth (ts ++ us) = depthAfter (depthAfter depth ts) us := by
  simp [depthAfter]

theorem StaysOpen.depthAfter_pos {depth : Nat} {ts : List Token} (h : StaysOpen depth ts) :
    0 < depthAfter depth ts := by
  induction ts generalizing depth with
  | nil => exact h.depth_pos
  | cons t ts ih => exact ih ((staysOpen_cons h.depth_pos).mp h)

theorem StaysOpen.of_append {depth : Nat} {us vs : List Token} (h : StaysOpen depth (us ++ vs)) :
    StaysOpen depth us := by
  induction us generalizing depth with
  | nil =>
    have hpos := h.depth_pos
    cases depth with
    | zero => omega
    | succ depth => trivial
  | cons t us ih =>
    have hpos := h.depth_pos
    rw [List.cons_append, staysOpen_cons hpos] at h
    exact (staysOpen_cons hpos).mpr (ih h)

theorem StaysOpen.suffix {depth : Nat} {us vs : List Token} (h : StaysOpen depth (us ++ vs)) :
    StaysOpen (depthAfter depth us) vs := by
  induction us generalizing depth with
  | nil => exact h
  | cons t us ih => exact ih ((staysOpen_cons h.depth_pos).mp h)

theorem Token.shift_add (t : Token) {m : Nat} (hm : 0 < m) (n : Nat) :
    t.shift (m + n) = t.shift m + n := by
  cases t <;> simp <;> omega

theorem Closes.exists_append {m n : Nat} {ts : List Token} (h : Closes (m + n) ts) :
    ∃ us vs, ts = us ++ vs ∧ Closes m us ∧ Closes n vs := by
  induction ts generalizing m with
  | nil =>
    cases m with
    | zero => exact ⟨[], [], rfl, rfl, by simpa using h⟩
    | succ m =>
      rw [Nat.succ_add] at h
      exact h.elim
  | cons t ts ih =>
    cases m with
    | zero => exact ⟨[], t :: ts, rfl, rfl, by simpa using h⟩
    | succ m =>
      rw [closes_cons (by omega), t.shift_add (Nat.succ_pos m)] at h
      obtain ⟨us, vs, rfl, hus, hvs⟩ := ih h
      exact ⟨t :: us, vs, rfl, hus, hvs⟩

theorem Closes.staysOpen {depth : Nat} {us vs : List Token} (h : Closes depth (us ++ vs))
    (hvs : vs ≠ []) : StaysOpen depth us := by
  induction us generalizing depth with
  | nil =>
    cases depth with
    | zero => exact absurd (by simpa using h) hvs
    | succ depth => trivial
  | cons t us ih =>
    cases depth with
    | zero => simp at h
    | succ depth =>
      show StaysOpen (t.shift (depth + 1)) us
      exact ih h

/-- The tokens have a prefix that closes `depth` containers, or leave one open. -/
theorem exists_closes_or_staysOpen {depth : Nat} (hdepth : 0 < depth) (ts : List Token) :
    (∃ us vs, ts = us ++ vs ∧ Closes depth us) ∨ StaysOpen depth ts := by
  induction ts generalizing depth with
  | nil =>
    cases depth with
    | zero => omega
    | succ depth => exact .inr trivial
  | cons t ts ih =>
    rcases Nat.eq_zero_or_pos (t.shift depth) with hzero | hpos
    · refine .inl ⟨[t], ts, rfl, ?_⟩
      rw [closes_cons hdepth, hzero]
      exact closes_zero.mpr rfl
    · rcases ih hpos with ⟨us, vs, rfl, hus⟩ | hopen
      · exact .inl ⟨t :: us, vs, rfl, (closes_cons hdepth).mpr hus⟩
      · exact .inr ((staysOpen_cons hdepth).mpr hopen)

/-! ## Integers beyond the limit -/

theorem Token.isPrintable_unlimited (t : Token) : t.IsPrintable none := by
  rcases t with _ | _ | _ | ⟨_ | _ | ⟨_ | _ | _⟩ | _⟩ <;> rfl

theorem printable_or_exists_excess (limit : DigitLimit) (ts : List Token) :
    (∀ t ∈ ts, t.IsPrintable limit) ∨ ∃ us t vs excess, ts = us ++ t :: vs ∧
      (∀ u ∈ us, u.IsPrintable limit) ∧ t.excess? limit = some excess := by
  induction ts with
  | nil => exact .inl (by simp)
  | cons t ts ih =>
    cases ht : t.excess? limit with
    | some excess => exact .inr ⟨[], t, ts, excess, rfl, by simp, ht⟩
    | none =>
      rcases ih with hts | ⟨us, t', vs, excess, rfl, hus, ht'⟩
      · exact .inl (List.forall_mem_cons.mpr ⟨ht, hts⟩)
      · exact .inr ⟨t :: us, t', vs, excess, rfl, List.forall_mem_cons.mpr ⟨ht, hus⟩, ht'⟩

/-- What a copy of `depth` open containers meets first: their end, the end of the tokens, or an
integer over the limit. -/
theorem closes_or_staysOpen_or_excess (limit : DigitLimit) {depth : Nat} (hdepth : 0 < depth)
    (ts : List Token) :
    (∃ us vs, ts = us ++ vs ∧ Closes depth us ∧ ∀ u ∈ us, u.IsPrintable limit) ∨
      (StaysOpen depth ts ∧ ∀ t ∈ ts, t.IsPrintable limit) ∨
      ∃ us t vs excess, ts = us ++ t :: vs ∧ StaysOpen depth us ∧
        (∀ u ∈ us, u.IsPrintable limit) ∧ t.excess? limit = some excess := by
  rcases exists_closes_or_staysOpen hdepth ts with ⟨us, vs, rfl, hus⟩ | hopen
  · rcases printable_or_exists_excess limit us with hprint | ⟨ws, t, us', excess, rfl, hws, ht⟩
    · exact .inl ⟨us, vs, rfl, hus, hprint⟩
    · have hopen := hus.staysOpen (List.cons_ne_nil t us')
      exact .inr (.inr ⟨ws, t, us' ++ vs, excess, by simp, hopen, hws, ht⟩)
  · rcases printable_or_exists_excess limit ts with hprint | ⟨ws, t, vs, excess, rfl, hws, ht⟩
    · exact .inr (.inl ⟨hopen, hprint⟩)
    · exact .inr (.inr ⟨ws, t, vs, excess, rfl, hopen.of_append, hws, ht⟩)

/-- The integer `10 ^ 4300`, one digit over the standard limit. -/
def Token.tooLong : Token := .scalar (.number (.integer (Nat.pow 10 digitLimit)))

theorem Token.excess_tooLong : tooLong.excess? .standard = some ⟨digitLimit, none⟩ := by
  have hlimit : 0 < digitLimit := by decide
  rw [tooLong, excess?, Scalar.excess?, DigitLimit.standard, Number.excess?_integer hlimit,
    Int.natAbs_natCast, if_neg (Nat.lt_irrefl _)]

def Tree.tooLong : Tree := .object [("a", .scalar (.number (.integer (Nat.pow 10 digitLimit))))]

/-! ## Brackets that match -/

/-- Token sequences with matching brackets. -/
inductive WellNested : List Token → Prop
  | nil : WellNested []
  | key (name : String) {ts : List Token} (hts : WellNested ts) : WellNested (.key name :: ts)
  | scalar (value : Scalar) {ts : List Token} (hts : WellNested ts) :
      WellNested (.scalar value :: ts)
  | container (shape : Shape) {inside rest : List Token} (hinside : WellNested inside)
      (hrest : WellNested rest) : WellNested (.opening shape :: (inside ++ .closing shape :: rest))

namespace WellNested

theorem append {ts us : List Token} (hts : WellNested ts) (hus : WellNested us) :
    WellNested (ts ++ us) := by
  induction hts with
  | nil => exact hus
  | key name _ ih => exact ih.key name
  | scalar value _ ih => exact ih.scalar value
  | container shape hinside _ _ ih => simpa using hinside.container shape ih

mutual
theorem tokens : ∀ v : Tree, WellNested v.tokens
  | .scalar value => nil.scalar value
  | .object members => (memberTokens members).container .object nil
  | .array elements => (elementTokens elements).container .array nil

theorem memberTokens : ∀ members : List (String × Tree), WellNested (Tree.memberTokens members)
  | [] => nil
  | (name, value) :: rest => ((tokens value).append (memberTokens rest)).key name

theorem elementTokens : ∀ elements : List Tree, WellNested (Tree.elementTokens elements)
  | [] => nil
  | value :: rest => (tokens value).append (elementTokens rest)
end

theorem closes_append {ts us : List Token} (hts : WellNested ts) {depth : Nat}
    (hdepth : 0 < depth) : Closes depth (ts ++ us) ↔ Closes depth us := by
  induction hts generalizing depth us with
  | nil => exact Iff.rfl
  | key name _ ih => exact (closes_cons hdepth).trans (ih hdepth)
  | scalar value _ ih => exact (closes_cons hdepth).trans (ih hdepth)
  | container shape _ _ ihinside ihrest =>
    rw [List.cons_append, List.append_assoc, closes_cons hdepth, Token.shift_opening,
      ihinside (Nat.succ_pos depth), List.cons_append, closes_cons (Nat.succ_pos depth),
      Token.shift_closing, Nat.succ_sub_one, ihrest hdepth]

theorem closes {inside : List Token} (hinside : WellNested inside) (shape : Shape) :
    Closes 1 (inside ++ [.closing shape]) :=
  (hinside.closes_append Nat.one_pos).mpr rfl

theorem exists_container {ts : List Token} (hts : WellNested ts) {front back : List Token}
    {shape : Shape} (h : ts = front ++ .opening shape :: back) :
    ∃ inside rest, WellNested inside ∧ back = inside ++ .closing shape :: rest := by
  induction hts generalizing front back with
  | nil => simp at h
  | key name _ ih =>
    cases front with
    | nil => simp at h
    | cons t front => exact ih (List.cons.inj h).2
  | scalar value _ ih =>
    cases front with
    | nil => simp at h
    | cons t front => exact ih (List.cons.inj h).2
  | container shape' hinside _ ihinside ihrest =>
    cases front with
    | nil =>
      obtain ⟨hshape, rfl⟩ := List.cons.inj h
      obtain rfl : shape' = shape := by simpa using hshape
      exact ⟨_, _, hinside, rfl⟩
    | cons t front =>
      -- the bracket stands in the first container or behind it
      rcases List.append_eq_append_iff.mp (List.cons.inj h).2 with
        ⟨front', -, hrest⟩ | ⟨us, hus, hback⟩
      · cases front' with
        | nil => simp at hrest
        | cons t' front' => exact ihrest (List.cons.inj hrest).2
      · cases us with
        | nil => simp at hback
        | cons u us =>
          obtain ⟨rfl, rfl⟩ := List.cons.inj hback
          obtain ⟨inside, rest, hwell, rfl⟩ := ihinside hus
          exact ⟨inside, _, hwell, List.append_assoc _ _ _⟩

end WellNested

theorem Tree.closes_laterTokens {v : Tree} {shape : Shape} (hv : v.shape? = some shape) :
    Closes 1 v.laterTokens := by
  cases v with
  | scalar value => simp [shape?] at hv
  | object members => exact (WellNested.memberTokens members).closes .object
  | array elements => exact (WellNested.elementTokens elements).closes .array

end JsonCleave
