import JsonCleave.Scan.Feed
import JsonCleave.Proofs.Container
import JsonCleave.Proofs.Scanning
/-!
# Byte sources deliver prefixes of documents

The tokens in front of the first halt of a byte source are a prefix of the tokens of a document, and
all of them if it halts as complete. The grammar is tracked by the tokens that would complete it:
for each open container the rest of its entries and its closing bracket, up to the root.
-/

namespace JsonCleave

namespace Grammar

/-! ## What the grammar demands -/

/-- The tokens complete the enclosing containers, innermost first. -/
def Completes : List Shape → List Token → Prop
  | [], us => us = []
  | .array :: outer, us => ∃ elements rest,
      us = Tree.elementTokens elements ++ .closing .array :: rest ∧ Completes outer rest
  | .object :: outer, us => ∃ members rest,
      us = Tree.memberTokens members ++ .closing .object :: rest ∧ Completes outer rest

/-- The tokens complete a document from the state of the grammar. -/
def Demands (g : Grammar) (us : List Token) : Prop :=
  match g.expects with
  | .separator | .firstElement | .firstKey => Completes g.enclosing us
  | .value | .colon => ∃ (v : Tree) (rest : List Token),
      us = v.tokens ++ rest ∧ Completes g.enclosing rest
  | .key => ∃ (name : String) (v : Tree) (rest : List Token),
      us = .key name :: (v.tokens ++ rest) ∧ Completes g.enclosing rest

/-- The expectation is possible for the innermost container. -/
def IsSound (g : Grammar) : Prop :=
  match g.expects with
  | .firstElement => g.enclosing.head? = some .array
  | .firstKey | .key | .colon => g.enclosing.head? = some .object
  | .value | .separator => True

theorem demands_start {us : List Token} : start.Demands us ↔ ∃ v : Tree, us = v.tokens := by
  constructor
  · rintro ⟨v, rest, rfl, rfl⟩
    exact ⟨v, List.append_nil _⟩
  · rintro ⟨v, rfl⟩
    exact ⟨v, [], (List.append_nil _).symm, rfl⟩

theorem demands_of_isComplete {g : Grammar} (hg : g.isComplete) : g.Demands [] := by
  obtain ⟨enclosing, expects⟩ := g
  obtain ⟨rfl, rfl⟩ : enclosing = [] ∧ expects = .separator := by simpa [isComplete] using hg
  rfl

def IsSpent (g : Grammar) : Prop := g.IsSound ∧ ∀ us, g.Demands us → us = []

theorem isSpent_of_isComplete {g : Grammar} (hg : g.isComplete) : g.IsSpent := by
  obtain ⟨enclosing, expects⟩ := g
  obtain ⟨rfl, rfl⟩ : enclosing = [] ∧ expects = .separator := by simpa [isComplete] using hg
  exact ⟨trivial, fun us hus => hus⟩

theorem exists_completes : ∀ enclosing : List Shape, ∃ us, Completes enclosing us
  | [] => ⟨[], rfl⟩
  | .array :: outer => by
    obtain ⟨us, hus⟩ := exists_completes outer
    exact ⟨.closing .array :: us, [], us, rfl, hus⟩
  | .object :: outer => by
    obtain ⟨us, hus⟩ := exists_completes outer
    exact ⟨.closing .object :: us, [], us, rfl, hus⟩

theorem exists_demands (g : Grammar) : ∃ us, g.Demands us := by
  obtain ⟨us, hus⟩ := exists_completes g.enclosing
  obtain ⟨enclosing, expects⟩ := g
  cases expects with
  | separator => exact ⟨us, hus⟩
  | firstElement => exact ⟨us, hus⟩
  | firstKey => exact ⟨us, hus⟩
  | value => exact ⟨_, .scalar .null, us, rfl, hus⟩
  | colon => exact ⟨_, .scalar .null, us, rfl, hus⟩
  | key => exact ⟨_, "", .scalar .null, us, rfl, hus⟩

/-! ## What a sign contributes -/

theorem Completes.element {outer : List Shape} {us : List Token}
    (hus : Completes (.array :: outer) us) (v : Tree) :
    Completes (.array :: outer) (v.tokens ++ us) := by
  obtain ⟨elements, rest, rfl, hrest⟩ := hus
  exact ⟨v :: elements, rest, by rw [Tree.elementTokens, List.append_assoc], hrest⟩

theorem Completes.member {outer : List Shape} {us : List Token}
    (hus : Completes (.object :: outer) us) (name : String) (v : Tree) :
    Completes (.object :: outer) (.key name :: (v.tokens ++ us)) := by
  obtain ⟨members, rest, rfl, hrest⟩ := hus
  exact ⟨(name, v) :: members, rest, by
    rw [Tree.memberTokens, List.cons_append, List.append_assoc], hrest⟩

theorem Completes.closing {outer : List Shape} {us : List Token} (hus : Completes outer us)
    (shape : Shape) : Completes (shape :: outer) (.closing shape :: us) := by
  cases shape with
  | object => exact ⟨[], us, rfl, hus⟩
  | array => exact ⟨[], us, rfl, hus⟩

theorem demands_value {g : Grammar} (hsound : g.IsSound) (hg : g.wantsValue) {us : List Token}
    (hus : Completes g.enclosing us) (v : Tree) : g.Demands (v.tokens ++ us) := by
  obtain ⟨enclosing, expects⟩ := g
  cases expects <;> simp [wantsValue] at hg
  · exact ⟨v, us, rfl, hus⟩
  · obtain ⟨outer, rfl⟩ : ∃ outer, enclosing = .array :: outer :=
      List.head?_eq_some_iff.mp hsound
    exact hus.element v

theorem demands_key {g : Grammar} (hsound : g.IsSound) (hg : g.wantsKey) {us : List Token}
    (name : String) (hus : Demands { g with expects := .colon } us) :
    g.Demands (.key name :: us) := by
  obtain ⟨enclosing, expects⟩ := g
  obtain ⟨v, rest, rfl, hrest⟩ := hus
  cases expects <;> simp [wantsKey] at hg
  · obtain ⟨outer, rfl⟩ : ∃ outer, enclosing = .object :: outer :=
      List.head?_eq_some_iff.mp hsound
    exact hrest.member name v
  · exact ⟨name, v, rest, rfl, hrest⟩

/-- Reading `ts` leads from `g` to `g'`: what completes `g'` completes `g` after `ts`. -/
def Leads (g : Grammar) (ts : List Token) (g' : Grammar) : Prop :=
  g.IsSound → g'.IsSound ∧ ∀ us, g'.Demands us → g.Demands (ts ++ us)

theorem Leads.refl (g : Grammar) : Leads g [] g := fun hsound => ⟨hsound, fun _ => id⟩

theorem Leads.trans {g g' g'' : Grammar} {ts us : List Token} (hts : Leads g ts g')
    (hus : Leads g' us g'') : Leads g (ts ++ us) g'' := by
  intro hsound
  obtain ⟨hsound', hdemands⟩ := hts hsound
  obtain ⟨hsound'', hdemands'⟩ := hus hsound'
  refine ⟨hsound'', fun vs hvs => ?_⟩
  rw [List.append_assoc]
  exact hdemands _ (hdemands' vs hvs)

theorem Leads.of_isSpent {g g' : Grammar} {ts : List Token} (h : Leads g ts g') (hg : g.IsSpent) :
    ts = [] ∧ g'.IsSpent := by
  obtain ⟨hsound, hdemands⟩ := h hg.1
  obtain ⟨us, hus⟩ := g'.exists_demands
  obtain ⟨rfl, -⟩ := List.append_eq_nil_iff.mp (hg.2 _ (hdemands us hus))
  exact ⟨rfl, hsound, fun us hus => hg.2 us (hdemands us hus)⟩

theorem leads_accept? {g g' : Grammar} {sign : Sign} {token : Option Token}
    (haccept : g.accept? sign = some (token, g')) : Leads g token.toList g' := by
  intro hsound
  cases sign with
  | opening shape =>
    simp only [accept?, Option.ite_none_right_eq_some, Option.some.injEq, Prod.mk.injEq] at haccept
    obtain ⟨hg, rfl, rfl⟩ := haccept
    cases shape with
    | object =>
      refine ⟨rfl, ?_⟩
      rintro us ⟨members, rest, rfl, hrest⟩
      have hvalue := demands_value hsound hg hrest (.object members)
      simpa [Tree.tokens] using hvalue
    | array =>
      refine ⟨rfl, ?_⟩
      rintro us ⟨elements, rest, rfl, hrest⟩
      have hvalue := demands_value hsound hg hrest (.array elements)
      simpa [Tree.tokens] using hvalue
  | closing shape =>
    simp only [accept?, Option.ite_none_right_eq_some, Option.some.injEq, Prod.mk.injEq] at haccept
    obtain ⟨⟨hg, hhead⟩, rfl, rfl⟩ := haccept
    obtain ⟨enclosing, expects⟩ := g
    obtain ⟨outer, rfl⟩ : ∃ outer, enclosing = shape :: outer := List.head?_eq_some_iff.mp hhead
    refine ⟨trivial, fun us hus => ?_⟩
    have hclosing := Completes.closing hus shape
    cases expects <;> simp [mayClose] at hg <;> exact hclosing
  | comma =>
    obtain ⟨enclosing, expects⟩ := g
    cases expects <;> simp [accept?] at haccept
    cases enclosing with
    | nil => simp at haccept
    | cons shape outer =>
      obtain ⟨rfl, rfl⟩ := by simpa using haccept
      cases shape with
      | object =>
        refine ⟨rfl, ?_⟩
        rintro us ⟨name, v, rest, rfl, hrest⟩
        exact hrest.member name v
      | array =>
        refine ⟨trivial, ?_⟩
        rintro us ⟨v, rest, rfl, hrest⟩
        exact hrest.element v
  | colon =>
    simp only [accept?, Option.ite_none_right_eq_some, Option.some.injEq, Prod.mk.injEq] at haccept
    obtain ⟨hg, rfl, rfl⟩ := haccept
    obtain ⟨enclosing, expects⟩ := g
    obtain rfl : expects = .colon := hg
    exact ⟨trivial, fun us hus => hus⟩
  | scalar value =>
    by_cases hg : g.wantsValue
    · rw [Scanner.accept?_scalar hg] at haccept
      obtain ⟨rfl, rfl⟩ := by simpa using haccept
      exact ⟨trivial, fun us hus => demands_value hsound hg hus (.scalar value)⟩
    · cases value <;> simp [accept?, hg] at haccept
      obtain ⟨hkey, rfl, rfl⟩ := haccept
      refine ⟨?_, fun us hus => demands_key hsound hkey _ hus⟩
      obtain ⟨enclosing, expects⟩ := g
      cases expects <;> simp [wantsKey] at hkey <;> exact hsound

end Grammar

/-! ## Scans -/

namespace Scan

open Grammar

def Leads (g : Grammar) (scan : Scan) : Prop :=
  ∃ g', Grammar.Leads g scan.tokens g' ∧ ∀ s, scan.next = some s → s.grammar = g'

theorem leads_refused (g : Grammar) : refused.Leads g := ⟨g, .refl g, by simp [refused]⟩

theorem leads_silent (s : Scanner) : (silent s).Leads s.grammar :=
  ⟨s.grammar, .refl _, by simp [silent]⟩

theorem Leads.ite {g : Grammar} {c : Prop} [Decidable c] {scan scan' : Scan}
    (hscan : scan.Leads g) (hscan' : scan'.Leads g) : (if c then scan else scan').Leads g := by
  split
  · exact hscan
  · exact hscan'

theorem Leads.followedBy {g : Grammar} {scan : Scan} (hscan : scan.Leads g)
    {later : Scanner → Scan} (hlater : ∀ s, (later s).Leads s.grammar) :
    (scan.followedBy later).Leads g := by
  obtain ⟨g', hleads, hnext⟩ := hscan
  unfold Scan.followedBy
  split
  · exact ⟨g', hleads, hnext⟩
  · rename_i s hs
    obtain ⟨g'', hleads', hnext'⟩ := hlater s
    rw [hnext s hs] at hleads'
    exact ⟨g'', hleads.trans hleads', hnext'⟩

end Scan

namespace Scanner

open Scan

theorem leads_finishSign (s : Scanner) (sign : Sign) : (s.finishSign sign).Leads s.grammar := by
  unfold finishSign
  split
  · rename_i token grammar haccept
    exact ⟨grammar, Grammar.leads_accept? haccept, by rintro s ⟨⟩; rfl⟩
  · exact leads_refused _

theorem leads_within (s : Scanner) (l : Lexeme) : (s.within l).Leads s.grammar :=
  leads_silent { s with lexeme := some l }

theorem leads_stepBetween (s : Scanner) (b : UInt8) : (s.stepBetween b).Leads s.grammar := by
  have hsign := leads_finishSign s
  have hlexeme := leads_within s
  refine .ite (leads_silent s) (.ite (hsign _) (.ite (hsign _) (.ite (hsign _) (.ite (hsign _)
    (.ite (hsign _) (.ite (hsign _) (.ite (hlexeme _) (.ite (hlexeme _) (.ite (hlexeme _)
      (.ite (hlexeme _) ?_))))))))))
  split
  · exact hlexeme _
  · exact leads_refused _

theorem leads_step (s : Scanner) (b : UInt8) : (s.step b).Leads s.grammar := by
  unfold step
  split
  · exact s.leads_stepBetween b
  · unfold stepLiteral
    repeat' split
    all_goals first
      | exact leads_finishSign s _
      | exact leads_within s _
      | exact leads_refused _
  · unfold stepNumber
    repeat' split
    · exact leads_within s _
    · exact leads_refused _
    · exact (leads_finishSign s _).followedBy fun s' => s'.leads_stepBetween b
  · unfold stepString
    split
    · exact leads_within s _
    · exact leads_finishSign s _
    · exact leads_refused _

theorem leads_scan (s : Scanner) (bytes : List UInt8) : (s.scan bytes).Leads s.grammar := by
  induction bytes generalizing s with
  | nil => exact leads_silent s
  | cons b rest ih =>
    rw [scan_cons]
    exact (s.leads_step b).followedBy ih

/-- The end of the input is accepted exactly when the document is complete. -/
theorem leads_finish (s : Scanner) : s.finish.Leads s.grammar := by
  refine (s.leads_step endMark).followedBy fun s' => ?_
  split
  · exact leads_silent s'
  · exact leads_refused _

theorem isComplete_of_finish {s s' : Scanner} (h : s.finish.next = some s') :
    s'.grammar.isComplete := by
  unfold finish Scan.followedBy at h
  split at h
  · simp_all
  · dsimp only at h
    split at h
    · rename_i s'' _ hcomplete
      obtain rfl : s'' = s' := by simpa [silent] using h
      exact hcomplete
    · simp [refused] at h

end Scanner

/-! ## Feeds -/

namespace Feed

open Grammar (Leads)

def Halts (later : Feed) (ending : Ending) : Prop :=
  later.deliveries.head? = some (.halt ending) ∨ later.deliveries = [] ∧ later.ending = ending

/-- A good ending comes behind a whole document, any other behind a prefix of one. -/
def Suits (g : Grammar) (ts : List Token) (ending : Ending) : Prop :=
  (ending = .complete ∧ g.Demands ts) ∨
    (∃ origin, ending = .broken origin) ∧ ∃ us, g.Demands (ts ++ us)

theorem suits_broken {g g' : Grammar} {ts : List Token} (hg : g.IsSound) (hleads : Leads g ts g')
    (origin : Origin) : Suits g ts (.broken origin) := by
  obtain ⟨us, hus⟩ := g'.exists_demands
  exact .inr ⟨⟨origin, rfl⟩, us, (hleads hg).2 us hus⟩

theorem Suits.behind {g g' : Grammar} {ts us : List Token} {ending : Ending} (hg : g.IsSound)
    (hleads : Leads g ts g') (h : Suits g' us ending) : Suits g (ts ++ us) ending := by
  rcases h with ⟨hending, hus⟩ | ⟨hending, vs, hvs⟩
  · exact .inl ⟨hending, (hleads hg).2 us hus⟩
  · exact .inr ⟨hending, vs, by rw [List.append_assoc]; exact (hleads hg).2 _ hvs⟩

def RunsDry (deliveries : List Delivery) (next : Option Scanner) : Prop :=
  (∀ t, .token t ∉ deliveries) ∧ ∀ s, next = some s → s.grammar.IsSpent

theorem runsDry_ofScan {g : Grammar} (hg : g.IsSpent) {scan : Scan} (h : scan.Leads g) :
    RunsDry (ofScan scan) scan.next := by
  obtain ⟨g', hleads, hnext⟩ := h
  obtain ⟨hts, hg'⟩ := hleads.of_isSpent hg
  refine ⟨fun t => ?_, fun s hs => hnext s hs ▸ hg'⟩
  rw [ofScan, hts]
  split <;> simp

theorem runsDry_ofChunk {next : Option Scanner} (h : ∀ s, next = some s → s.grammar.IsSpent)
    (chunk : List UInt8) : RunsDry (ofChunk next chunk).1 (ofChunk next chunk).2 := by
  cases next with
  | none => exact ⟨by simp [ofChunk], by simp [ofChunk]⟩
  | some s =>
    have hfinish := runsDry_ofScan (h s rfl) s.leads_finish
    simp only [ofChunk]
    split
    · refine ⟨?_, hfinish.2⟩
      split
      · simp
      · exact hfinish.1
    · exact runsDry_ofScan (h s rfl) (s.leads_scan chunk)

theorem runsDry_ofChunks {next : Option Scanner} (h : ∀ s, next = some s → s.grammar.IsSpent)
    (chunks : List (List UInt8)) : RunsDry (ofChunks next chunks).1 (ofChunks next chunks).2 := by
  induction chunks generalizing next with
  | nil => exact ⟨by simp [ofChunks], h⟩
  | cons chunk rest ih =>
    obtain ⟨hnone, hnext⟩ := runsDry_ofChunk h chunk
    obtain ⟨hnone', hnext'⟩ := ih hnext
    exact ⟨fun t => List.not_mem_append (hnone t) (hnone' t), hnext'⟩

def HaltsWith (g : Grammar) (deliveries : List Delivery) (next : Option Scanner) : Prop :=
  ∃ ts ending more, deliveries = ts.map .token ++ .halt ending :: more ∧ Suits g ts ending ∧
    RunsDry more next

theorem HaltsWith.behind {g g' : Grammar} {ts : List Token} {deliveries : List Delivery}
    {next : Option Scanner} (hg : g.IsSound) (hleads : Leads g ts g')
    (h : HaltsWith g' deliveries next) : HaltsWith g (ts.map .token ++ deliveries) next := by
  obtain ⟨us, ending, more, rfl, hsuits, hmore⟩ := h
  exact ⟨ts ++ us, ending, more, by simp, hsuits.behind hg hleads, hmore⟩

theorem HaltsWith.append {g : Grammar} {deliveries rest : List Delivery}
    {next next' : Option Scanner} (h : HaltsWith g deliveries next)
    (hrest : (∀ s, next = some s → s.grammar.IsSpent) → RunsDry rest next') :
    HaltsWith g (deliveries ++ rest) next' := by
  obtain ⟨ts, ending, more, rfl, hsuits, hmore, hnext⟩ := h
  obtain ⟨hnone, hnext'⟩ := hrest hnext
  exact ⟨ts, ending, more ++ rest, by simp, hsuits,
    fun t => List.not_mem_append (hmore t) (hnone t), hnext'⟩

def RunsOn (g : Grammar) (deliveries : List Delivery) (next : Option Scanner) : Prop :=
  ∃ ts s, deliveries = ts.map .token ∧ next = some s ∧ Leads g ts s.grammar

theorem ofScan_cases {g : Grammar} (hg : g.IsSound) {scan : Scan} (h : scan.Leads g) :
    RunsOn g (ofScan scan) scan.next ∨ HaltsWith g (ofScan scan) scan.next := by
  obtain ⟨g', hleads, hnext⟩ := h
  unfold ofScan
  cases hs : scan.next with
  | none =>
    exact .inr ⟨scan.tokens, malformed, [], by simp, suits_broken hg hleads _, by simp, by simp⟩
  | some s => exact .inl ⟨scan.tokens, s, by simp, rfl, hnext s hs ▸ hleads⟩

theorem ofChunk_cases {s : Scanner} (hs : s.grammar.IsSound) (chunk : List UInt8) :
    RunsOn s.grammar (ofChunk (some s) chunk).1 (ofChunk (some s) chunk).2 ∨
      HaltsWith s.grammar (ofChunk (some s) chunk).1 (ofChunk (some s) chunk).2 := by
  unfold ofChunk
  dsimp only
  split
  · split
    · rename_i hfinish
      obtain ⟨s', hs'⟩ := Option.isSome_iff_exists.mp hfinish.2
      obtain ⟨g', hleads, hnext⟩ := s.leads_finish
      rw [List.isEmpty_iff.mp hfinish.1, ← hnext s' hs'] at hleads
      have hdemands := Grammar.demands_of_isComplete (Scanner.isComplete_of_finish hs')
      refine .inr ⟨[], .complete, [], rfl, .inl ⟨rfl, (hleads hs).2 [] hdemands⟩, by simp, ?_⟩
      exact fun s'' hs'' => Grammar.isSpent_of_isComplete (Scanner.isComplete_of_finish hs'')
    · exact ofScan_cases hs s.leads_finish
  · exact ofScan_cases hs (s.leads_scan chunk)

theorem ofChunks_cases {s : Scanner} (hs : s.grammar.IsSound) (chunks : List (List UInt8)) :
    RunsOn s.grammar (ofChunks (some s) chunks).1 (ofChunks (some s) chunks).2 ∨
      HaltsWith s.grammar (ofChunks (some s) chunks).1 (ofChunks (some s) chunks).2 := by
  induction chunks generalizing s with
  | nil => exact .inl ⟨[], s, rfl, rfl, .refl _⟩
  | cons chunk rest ih =>
    rw [ofChunks]
    dsimp only
    rcases ofChunk_cases hs chunk with ⟨ts, s', hts, hs', hleads⟩ | hhalts
    · rw [hts, hs']
      rcases ih (hleads hs).1 with ⟨us, s'', hus, hs'', hleads'⟩ | hhalts
      · exact .inl ⟨ts ++ us, s'', by rw [hus, List.map_append], hs'', hleads.trans hleads'⟩
      · exact .inr (hhalts.behind hs hleads)
    · exact .inr (hhalts.append fun hnext => runsDry_ofChunks hnext rest)

theorem dropWhile_halts_tokens (ts : List Token) (ending : Ending) :
    (ts.map Delivery.token).dropWhile (· = .halt ending) = ts.map .token := by
  cases ts <;> simp

theorem trimmed_behind (ts : List Token) (deliveries : List Delivery) (ending : Ending) :
    trimmed (ts.map .token ++ deliveries) ending = (trimmed deliveries ending).behind ts := by
  have hts := dropWhile_halts_tokens ts.reverse ending
  rw [List.map_reverse] at hts
  rw [trimmed, trimmed, behind, List.reverse_append, List.dropWhile_append, hts]
  split
  · rename_i hall
    simp [List.isEmpty_iff.mp hall]
  · simp

theorem trimmed_halts (halt ending : Ending) (more : List Delivery) :
    (trimmed (.halt halt :: more) ending).Halts halt := by
  rw [trimmed, List.reverse_cons, List.dropWhile_append]
  split
  · by_cases hending : halt = ending
    · exact .inr ⟨by simp [hending], hending.symm⟩
    · exact .inl (by simp [hending])
  · exact .inl (by simp)

/-- The feed delivers tokens and then an ending that suits them, and no token behind it. -/
def IsOrderly (feed : Feed) : Prop :=
  ∃ (ts : List Token) (later : Feed) (ending : Ending), feed = later.behind ts ∧
    (∀ t, .token t ∉ later.deliveries) ∧ later.Halts ending ∧ Suits .start ts ending

theorem not_mem_trimmed {t : Token} {deliveries : List Delivery} (h : .token t ∉ deliveries)
    (ending : Ending) : .token t ∉ (trimmed deliveries ending).deliveries := by
  intro ht
  rw [trimmed, List.mem_reverse] at ht
  exact h (List.mem_reverse.mp ((List.dropWhile_sublist _).subset ht))

theorem HaltsWith.isOrderly {deliveries : List Delivery} {next : Option Scanner}
    (h : HaltsWith .start deliveries next) (ending : Ending) :
    (trimmed deliveries ending).IsOrderly := by
  obtain ⟨ts, halt, more, rfl, hsuits, hmore, -⟩ := h
  rw [trimmed_behind]
  exact ⟨ts, _, halt, rfl, fun t => not_mem_trimmed (by simpa using hmore t) _,
    trimmed_halts halt ending more, hsuits⟩

theorem isOrderly_tokens {ts : List Token} {ending : Ending} (h : Suits .start ts ending) :
    (trimmed (ts.map .token) ending).IsOrderly := by
  rw [← List.append_nil (ts.map Delivery.token), trimmed_behind]
  exact ⟨ts, _, ending, rfl, fun t => by simp [trimmed], .inr ⟨rfl, rfl⟩, h⟩

theorem isOrderly_ofReads (r : Reads) : (ofReads r).IsOrderly := by
  have hstart : Scanner.start.grammar.IsSound := trivial
  have hchunks := ofChunks_cases hstart r.chunks
  unfold ofReads
  dsimp only
  split
  · rcases hchunks with ⟨ts, s, hts, -, hleads⟩ | hhalts
    · rw [hts]
      exact isOrderly_tokens (suits_broken hstart hleads _)
    · exact hhalts.isOrderly _
  · rcases hchunks with ⟨ts, s, hts, hs, hleads⟩ | hhalts
    · rw [hts, hs]
      rcases ofChunk_cases (hleads hstart).1 [] with ⟨us, s', hus, hs', hleads'⟩ | hhalts
      · -- the end of the input has completed a number, and with it the document
        have hnext : s.finish.next = some s' := hs'
        have hcomplete := Scanner.isComplete_of_finish hnext
        have hdemands := ((hleads.trans hleads') hstart).2 []
          (Grammar.demands_of_isComplete hcomplete)
        rw [List.append_nil] at hdemands
        rw [hus, hs', ← List.map_append]
        exact isOrderly_tokens (.inl ⟨rfl, hdemands⟩)
      · exact (hhalts.behind hstart hleads).isOrderly _
    · exact (hhalts.append fun hnext => runsDry_ofChunk hnext []).isOrderly _

def TellsOf (feed : Feed) (v : Tree) : Prop :=
  ∃ (ts : List Token) (later : Feed), feed = later.behind ts ∧
    ((ts = v.tokens ∧ later.Halts .complete) ∨ ts <+: v.tokens ∧ ∃ origin, later.Fails origin)

theorem IsOrderly.exists_tellsOf {feed : Feed} (h : feed.IsOrderly) : ∃ v, feed.TellsOf v := by
  obtain ⟨ts, later, ending, rfl, -, hhalts, ⟨rfl, hts⟩ | ⟨⟨origin, rfl⟩, us, hus⟩⟩ := h
  · obtain ⟨v, rfl⟩ := Grammar.demands_start.mp hts
    exact ⟨v, v.tokens, later, rfl, .inl ⟨rfl, hhalts⟩⟩
  · obtain ⟨v, hv⟩ := Grammar.demands_start.mp hus
    exact ⟨v, ts, later, rfl, .inr ⟨⟨us, hv⟩, origin, hhalts⟩⟩

theorem limit_ofReads (r : Reads) : (ofReads r).limit = .standard := by
  unfold ofReads
  dsimp only
  split <;> rfl

/-- Every byte source delivers the tokens of a document and a good ending, or a prefix of them and a
fault. -/
theorem exists_ofReads_tellsOf (r : Reads) : ∃ v, (ofReads r).TellsOf v :=
  (isOrderly_ofReads r).exists_tellsOf

end Feed

end JsonCleave
