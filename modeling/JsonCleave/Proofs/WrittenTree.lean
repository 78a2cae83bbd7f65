import JsonCleave.Proofs.Nesting
/-!
# The writer writes compact text

Given the tokens of a tree, the writer appends the compact text of the tree, in any context. It
places commas by counting entries.
-/

namespace JsonCleave

namespace Writer

def writeAll (w : Writer) (ts : List Token) : Writer := ts.foldl write w

@[simp] theorem writeAll_nil (w : Writer) : w.writeAll [] = w := rfl

@[simp] theorem writeAll_cons (w : Writer) (t : Token) (ts : List Token) :
    w.writeAll (t :: ts) = (w.write t).writeAll ts := rfl

@[simp] theorem writeAll_append (w : Writer) (ts us : List Token) :
    w.writeAll (ts ++ us) = (w.writeAll ts).writeAll us := by
  simp [writeAll]

theorem length_levels_separate (w : Writer) (isKey : Bool) :
    (w.separate isKey).levels.length = w.levels.length := by
  unfold separate
  split
  · rfl
  · rename_i heq
    split <;> simp [heq]

/-- The levels of a writer are its open containers. -/
theorem length_levels_write (w : Writer) (t : Token) :
    (w.write t).levels.length = t.shift w.levels.length := by
  cases t with
  | opening shape => simp [write, put, length_levels_separate]
  | closing shape => simp [write]
  | key name => simp [write, put, length_levels_separate]
  | scalar value => simp [write, put, length_levels_separate]

theorem length_levels_writeAll (w : Writer) (ts : List Token) :
    (w.writeAll ts).levels.length = depthAfter w.levels.length ts := by
  induction ts generalizing w with
  | nil => rfl
  | cons t ts ih => rw [writeAll_cons, ih, length_levels_write, depthAfter_cons]

theorem isDone_eq_false {w : Writer} : w.isDone = false ↔ 0 < w.levels.length := by
  rw [isDone, List.isEmpty_eq_false_iff, List.length_pos_iff]

theorem separate_array {w : Writer} {written : Nat} {outer : List (Shape × Nat)}
    (hlevels : w.levels = (.array, written) :: outer) :
    w.separate false =
      ⟨(.array, written + 1) :: outer, if written = 0 then w.text else w.text ++ ","⟩ := by
  simp [separate, hlevels, countsIn]

theorem separate_name {w : Writer} {written : Nat} {outer : List (Shape × Nat)}
    (hlevels : w.levels = (.object, written) :: outer) :
    w.separate true =
      ⟨(.object, written + 1) :: outer, if written = 0 then w.text else w.text ++ ","⟩ := by
  simp [separate, hlevels, countsIn]

theorem separate_memberValue {w : Writer} {written : Nat} {outer : List (Shape × Nat)}
    (hlevels : w.levels = (.object, written) :: outer) : w.separate false = w := by
  simp [separate, hlevels, countsIn]

end Writer

/-! ## Commas -/

def separated (written : Nat) : List String → String
  | [] => ""
  | entry :: rest => (if written = 0 then entry else "," ++ entry) ++ separated (written + 1) rest

theorem separated_succ (written : Nat) (entry : String) (rest : List String) :
    entry ++ separated (written + 1) rest = ",".intercalate (entry :: rest) := by
  induction rest generalizing written entry with
  | nil => simp [separated]
  | cons next rest ih =>
    rw [separated, if_neg (Nat.succ_ne_zero written), String.append_assoc, ih,
      String.intercalate_cons_cons, String.append_assoc]

theorem separated_zero (entries : List String) :
    separated 0 entries = ",".intercalate entries := by
  cases entries with
  | nil => rfl
  | cons entry rest => exact separated_succ 0 entry rest

/-! ## Trees -/

namespace Tree

open Writer

mutual
/-- Writing the tokens of a value appends its text as one entry. -/
theorem writeAll_tokens : ∀ (v : Tree) (w : Writer),
    w.writeAll v.tokens = (w.separate false).put v.text
  | .scalar value, w => rfl
  | .object members, w => by
    have hmembers := writeAll_memberTokens members
      ⟨(.object, 0) :: (w.separate false).levels, (w.separate false).text ++ "\x7b"⟩ rfl
    simp only [tokens, writeAll_cons, write, put, Shape.opener, writeAll_append]
    rw [hmembers]
    simp [Shape.closer, text, separated_zero, String.append_assoc]
  | .array elements, w => by
    have helements := writeAll_elementTokens elements
      ⟨(.array, 0) :: (w.separate false).levels, (w.separate false).text ++ "["⟩ rfl
    simp only [tokens, writeAll_cons, write, put, Shape.opener, writeAll_append]
    rw [helements]
    simp [Shape.closer, text, separated_zero, String.append_assoc]

theorem writeAll_memberTokens : ∀ (members : List (String × Tree)) (w : Writer)
    {written : Nat} {outer : List (Shape × Nat)}, w.levels = (.object, written) :: outer →
    w.writeAll (memberTokens members) =
      ⟨(.object, written + members.length) :: outer,
        w.text ++ separated written (memberTexts members)⟩
  | [], w, _, _, hlevels => by
    cases w
    simp_all [memberTokens, memberTexts, separated]
  | (name, value) :: rest, w, written, outer, hlevels => by
    have hvalue := writeAll_tokens value (w.write (.key name))
    have hname : (w.write (.key name)).levels = (.object, written + 1) :: outer := by
      simp [write, put, separate_name hlevels]
    have hrest := writeAll_memberTokens rest ((w.write (.key name)).put value.text) hname
    have htext : (w.write (.key name)).text =
        (if written = 0 then w.text else w.text ++ ",") ++ literal name ++ ":" := by
      simp [write, put, separate_name hlevels]
    rw [separate_memberValue hname] at hvalue
    rw [memberTokens, writeAll_cons, writeAll_append, hvalue, hrest, put, htext, memberTexts,
      separated, List.length_cons, Nat.add_assoc, Nat.add_comm 1]
    by_cases hwritten : written = 0 <;> simp [hwritten, String.append_assoc]

theorem writeAll_elementTokens : ∀ (elements : List Tree) (w : Writer)
    {written : Nat} {outer : List (Shape × Nat)}, w.levels = (.array, written) :: outer →
    w.writeAll (elementTokens elements) =
      ⟨(.array, written + elements.length) :: outer,
        w.text ++ separated written (elementTexts elements)⟩
  | [], w, _, _, hlevels => by
    cases w
    simp_all [elementTokens, elementTexts, separated]
  | value :: rest, w, written, outer, hlevels => by
    have hvalue := writeAll_tokens value w
    rw [separate_array hlevels] at hvalue
    have hrest := writeAll_elementTokens rest
      (put ⟨(.array, written + 1) :: outer, if written = 0 then w.text else w.text ++ ","⟩
        value.text) rfl
    rw [elementTokens, writeAll_append, hvalue, hrest, put, elementTexts, separated,
      List.length_cons, Nat.add_assoc, Nat.add_comm 1]
    by_cases hwritten : written = 0 <;> simp [hwritten, String.append_assoc]
end

end Tree

end JsonCleave
