import JsonCleave.Scan.Feed
import JsonCleave.Proofs.Scanning
import JsonCleave.Proofs.Tree
/-!
# Compact text is read as the document it was written for

The scanner reads the compact text of a tree as the tokens of the tree, but for decimals of exponent
zero, which come back as integers.
-/

namespace JsonCleave

namespace Tree

/-! ## What is read again -/

mutual
def isExact : Tree → Bool
  | .scalar value => value.isExact
  | .object members => areExactMembers members
  | .array elements => areExact elements

def areExactMembers : List (String × Tree) → Bool
  | [] => true
  | (_, value) :: rest => isExact value && areExactMembers rest

def areExact : List Tree → Bool
  | [] => true
  | value :: rest => isExact value && areExact rest
end

mutual
def reread : Tree → Tree
  | .scalar value => .scalar value.reread
  | .object members => .object (rereadMembers members)
  | .array elements => .array (rereadElements elements)

def rereadMembers : List (String × Tree) → List (String × Tree)
  | [] => []
  | (name, value) :: rest => (name, reread value) :: rereadMembers rest

def rereadElements : List Tree → List Tree
  | [] => []
  | value :: rest => reread value :: rereadElements rest
end

/-! ## Scans of compact text -/

open Scanner

theorem stepBetween_closer (shape : Shape) (outer : List Shape) :
    stepBetween ⟨⟨shape :: outer, .separator⟩, none⟩ (closerByte shape) =
      ⟨[.closing shape], some ⟨⟨outer, .separator⟩, none⟩⟩ := by
  cases shape <;> simp [closerByte] <;> rfl

theorem stepBetween_comma (shape : Shape) (outer : List Shape) :
    stepBetween ⟨⟨shape :: outer, .separator⟩, none⟩ ','.toUInt8 =
      ⟨[], some ⟨⟨shape :: outer, Grammar.behindComma shape⟩, none⟩⟩ := rfl

/-! ## Entries of a container -/

/-- Texts of the entries of a container, with the tokens they deliver. -/
inductive Entries (shape : Shape) (outer : List Shape) : List String → List Token → Prop where
  | nil : Entries shape outer [] []
  | cons {first : String} {texts : List String} {ts us : List Token}
      (hfirst : ∀ expects, expects = Grammar.atStart shape ∨ expects = Grammar.behindComma shape →
        Delivers ⟨shape :: outer, expects⟩ (utf8Bytes first) ts ⟨shape :: outer, .separator⟩)
      (hrest : Entries shape outer texts us) : Entries shape outer (first :: texts) (ts ++ us)

theorem Entries.runs {shape : Shape} {outer : List Shape} {texts : List String} {ts : List Token}
    (h : Entries shape outer texts ts) (hne : texts ≠ []) {expects : Expectation}
    (hexpects : expects = Grammar.atStart shape ∨ expects = Grammar.behindComma shape) :
    Runs ⟨⟨shape :: outer, expects⟩, none⟩
      (utf8Bytes (",".intercalate texts) ++ [closerByte shape]) (ts ++ [.closing shape])
      ⟨⟨outer, .separator⟩, none⟩ := by
  induction h generalizing expects with
  | nil => exact absurd rfl hne
  | @cons first texts ts us hfirst hrest ih =>
    cases texts with
    | nil =>
      cases hrest
      rw [String.intercalate_singleton, List.append_nil]
      exact hfirst expects hexpects _ _ _ (endsNumber_closer shape) (stepBetween_closer shape outer)
    | cons second texts =>
      have hcomma := hfirst expects hexpects _ _ _ endsNumber_comma (stepBetween_comma shape outer)
      have hentries := hcomma.append (ih (by simp) (.inr rfl))
      rw [List.append_nil, ← List.append_assoc, ← List.append_assoc] at hentries
      rw [String.intercalate_cons_cons, utf8Bytes_append, utf8Bytes_append]
      exact hentries

theorem Entries.runs_container {shape : Shape} {g : Grammar} {texts : List String}
    {ts : List Token} (h : Entries shape g.enclosing texts ts) (hg : g.wantsValue) :
    Runs ⟨g, none⟩ (utf8Bytes (shape.opener ++ ",".intercalate texts ++ shape.closer))
      (.opening shape :: (ts ++ [.closing shape])) ⟨{ g with expects := .separator }, none⟩ := by
  have haccept : g.accept? (.opening shape) =
      some (some (.opening shape), ⟨shape :: g.enclosing, Grammar.atStart shape⟩) := by
    rw [Grammar.accept?, if_pos hg]
  have hopening : Runs ⟨g, none⟩ (utf8Bytes shape.opener) [.opening shape]
      ⟨⟨shape :: g.enclosing, Grammar.atStart shape⟩, none⟩ := by
    cases shape with
    | object =>
      apply Runs.step
      show finishSign ⟨g, none⟩ (.opening .object) = _
      exact finishSign_eq haccept none
    | array =>
      apply Runs.step
      show finishSign ⟨g, none⟩ (.opening .array) = _
      exact finishSign_eq haccept none
  have hinside : Runs ⟨⟨shape :: g.enclosing, Grammar.atStart shape⟩, none⟩
      (utf8Bytes (",".intercalate texts) ++ [closerByte shape]) (ts ++ [.closing shape])
      ⟨⟨g.enclosing, .separator⟩, none⟩ := by
    cases h with
    | nil => cases shape <;> exact .step rfl
    | cons hfirst hrest => exact Entries.runs (.cons hfirst hrest) (by simp) (.inl rfl)
  have hcloser : utf8Bytes shape.closer = [closerByte shape] := by cases shape <;> rfl
  rw [utf8Bytes_append, utf8Bytes_append, hcloser, List.append_assoc]
  exact hopening.append hinside

theorem delivers_member {name : String} {outer : List Shape} {bytes : List UInt8}
    {ts : List Token} {expects : Expectation} (hexpects : expects = .firstKey ∨ expects = .key)
    (hvalue : Delivers ⟨.object :: outer, .value⟩ bytes ts ⟨.object :: outer, .separator⟩) :
    Delivers ⟨.object :: outer, expects⟩ (utf8Bytes (literal name ++ ":") ++ bytes)
      (.key name :: ts) ⟨.object :: outer, .separator⟩ := by
  have hname : Runs ⟨⟨.object :: outer, expects⟩, none⟩ (utf8Bytes (literal name)) [.key name]
      ⟨⟨.object :: outer, .colon⟩, none⟩ := runs_literal (accept?_name hexpects name)
  have hcolon : Runs ⟨⟨.object :: outer, .colon⟩, none⟩ [':'.toUInt8] []
      ⟨⟨.object :: outer, .value⟩, none⟩ := .step rfl
  intro b us s' hb hstep
  have hmember := (hname.append hcolon).append (hvalue b us s' hb hstep)
  rw [utf8Bytes_append, List.append_assoc]
  exact hmember

mutual
/-- The compact text of a value delivers its tokens. -/
theorem delivers_text : ∀ (v : Tree), v.isExact → ∀ {g : Grammar}, g.wantsValue →
    Delivers g (utf8Bytes v.text) v.reread.tokens { g with expects := .separator }
  | .scalar _, hv, _, hg => delivers_scalar hv hg
  | .object members, hv, _, hg => ((entries_members members hv _).runs_container hg).delivers
  | .array elements, hv, _, hg => ((entries_elements elements hv _).runs_container hg).delivers

theorem entries_members : ∀ (members : List (String × Tree)), areExactMembers members →
    ∀ (outer : List Shape),
    Entries .object outer (memberTexts members) (memberTokens (rereadMembers members))
  | [], _, _ => .nil
  | (name, value) :: rest, hexact, outer => by
    rw [areExactMembers, Bool.and_eq_true] at hexact
    have hvalue := delivers_text value hexact.1 (g := ⟨.object :: outer, .value⟩) rfl
    show Entries .object outer _
      ((.key name :: value.reread.tokens) ++ memberTokens (rereadMembers rest))
    apply Entries.cons
    · intro expects hexpects
      rw [utf8Bytes_append]
      exact delivers_member hexpects hvalue
    · exact entries_members rest hexact.2 outer

theorem entries_elements : ∀ (elements : List Tree), areExact elements →
    ∀ (outer : List Shape),
    Entries .array outer (elementTexts elements) (elementTokens (rereadElements elements))
  | [], _, _ => .nil
  | value :: rest, hexact, outer => by
    rw [areExact, Bool.and_eq_true] at hexact
    refine .cons ?_ (entries_elements rest hexact.2 outer)
    rintro expects (rfl | rfl)
    · exact delivers_text value hexact.1 rfl
    · exact delivers_text value hexact.1 rfl
end

theorem runs_text {v : Tree} {shape : Shape} (hv : v.shape? = some shape) (hexact : v.isExact)
    {g : Grammar} (hg : g.wantsValue) :
    Runs ⟨g, none⟩ (utf8Bytes v.text) v.reread.tokens ⟨{ g with expects := .separator }, none⟩ := by
  cases v with
  | scalar value => simp [shape?] at hv
  | object members => exact (entries_members members hexact _).runs_container hg
  | array elements => exact (entries_elements elements hexact _).runs_container hg

end Tree

/-! ## Sources of a whole document -/

namespace Reads

/-- The chunks are nonempty and make up `bytes`, and no read fails. -/
structure Carries (r : Reads) (bytes : List UInt8) : Prop where
  flatten_chunks : r.chunks.flatten = bytes
  ne_nil : ∀ chunk ∈ r.chunks, chunk ≠ []
  failure : r.failure = none

end Reads

namespace Feed

theorem ofChunks_of_scan {chunks : List (List UInt8)} (hchunks : ∀ chunk ∈ chunks, chunk ≠ [])
    {s s' : Scanner} {ts : List Token} (hscan : s.scan chunks.flatten = ⟨ts, some s'⟩) :
    ofChunks (some s) chunks = (ts.map .token, some s') := by
  induction chunks generalizing s ts with
  | nil =>
    obtain ⟨rfl, rfl⟩ : [] = ts ∧ s = s' := by simpa [Scanner.scan, Scanner.scanFrom] using hscan
    rfl
  | cons chunk rest ih =>
    have hchunk : chunk.isEmpty = false := by
      rw [List.isEmpty_eq_false_iff]
      exact hchunks chunk (by simp)
    rw [List.flatten_cons, Scanner.scan_append, Scan.followedBy] at hscan
    cases hfirst : s.scan chunk with
    | mk us next =>
      cases next with
      | none => simp [hfirst] at hscan
      | some between =>
        simp only [hfirst, Scan.mk.injEq] at hscan
        have hrest : between.scan rest.flatten = ⟨(between.scan rest.flatten).tokens, some s'⟩ := by
          rw [← hscan.2]
        rw [ofChunks, ofChunk, hchunk, if_neg (by simp)]
        simp only [hfirst]
        rw [ih (fun c hc => hchunks c (by simp [hc])) hrest, ← hscan.1]
        simp [ofScan]

theorem trimmed_tokens (ts : List Token) :
    trimmed (ts.map .token ++ [.halt .complete]) .complete = .ofTokens ts := by
  have htokens : (ts.map Delivery.token).reverse.dropWhile (· = .halt .complete) =
      (ts.map Delivery.token).reverse := by
    rw [← List.map_reverse]
    cases ts.reverse with
    | nil => rfl
    | cons t rest => rfl
  rw [trimmed, List.reverse_append, List.reverse_singleton, List.singleton_append,
    List.dropWhile_cons_of_pos (by simp), htokens, List.reverse_reverse]
  rfl

/-- The compact text of a container delivers its tokens and a good ending. -/
theorem ofReads_text {v : Tree} {shape : Shape} (hv : v.shape? = some shape) (hexact : v.isExact)
    {r : Reads} (hr : r.Carries (utf8Bytes v.text)) : ofReads r = .ofTokens v.reread.tokens := by
  have hscan : Scanner.start.scan r.chunks.flatten =
      ⟨v.reread.tokens, some ⟨⟨[], .separator⟩, none⟩⟩ := by
    rw [hr.flatten_chunks]
    exact Tree.runs_text hv hexact rfl
  have hchunks := ofChunks_of_scan hr.ne_nil hscan
  rw [ofReads, hr.failure, hchunks]
  exact trimmed_tokens v.reread.tokens

end Feed

end JsonCleave
