import JsonCleave.Stream
import JsonCleave.Proofs.Document
import JsonCleave.Proofs.Lookahead
/-!
# Honest sources

A source is honest if a pull fails wherever its tokens leave a container open, and if it delivers no
token behind an ending. Both engines turn all bytes into honest sources, and pulls keep them honest
until the walk is finished.
-/

namespace JsonCleave

def ClosesAll (ts : List Token) : Prop :=
  ∀ front shape back, ts = front ++ .opening shape :: back →
    ∃ us vs, back = us ++ vs ∧ Closes 1 us

theorem WellNested.closesAll {ts : List Token} (hts : WellNested ts) : ClosesAll ts := by
  intro front shape back hback
  obtain ⟨inside, rest, hinside, rfl⟩ := hts.exists_container hback
  exact ⟨inside ++ [.closing shape], rest, by simp, hinside.closes shape⟩

theorem closesAll_nil : ClosesAll [] := fun front _ _ h => by cases front <;> cases h

theorem ClosesAll.of_append (us : List Token) {vs : List Token} (h : ClosesAll (us ++ vs)) :
    ClosesAll vs := by
  rintro front shape back rfl
  exact h (us ++ front) shape back (List.append_assoc _ _ _).symm

namespace Cursor

/-- An open cursor whose source fails, and does not end well, inside an unclosed container. -/
def IsHonest (c : Cursor) : Prop :=
  ∃ ts later current, c = before ts later current ∧ later.IsSilent ∧
    (ClosesAll ts ∨ ∃ fault rest, later.Raises fault rest)

variable {c c' : Cursor}

theorem IsHonest.opening (hc : c.IsHonest) {shape : Shape}
    (hnext : c.next = (.ok (some (.opening shape)), c')) :
    ∃ ts later, c' = before ts later (some (.opening shape)) ∧ later.IsSilent ∧
      ((∃ us vs, ts = us ++ vs ∧ Closes 1 us) ∨
        StaysOpen 1 ts ∧ ∃ fault rest, later.Raises fault rest) := by
  obtain ⟨ts, later, current, rfl, hlater, hend⟩ := hc
  cases ts with
  | nil => exact absurd hnext (isOver_before hlater current _ _)
  | cons t ts =>
    rw [next_before_cons] at hnext
    cases hnext
    refine ⟨ts, later, rfl, hlater, ?_⟩
    rcases exists_closes_or_staysOpen Nat.one_pos ts with hcloses | hopen
    · exact .inl hcloses
    · rcases hend with hcloses | hraises
      · exact .inl (hcloses [] shape ts rfl)
      · exact .inr ⟨hopen, hraises⟩

theorem IsHonest.visit {σ α : Type} {p : Policy σ α} (hc : c.IsHonest) {t : Token}
    (hnext : c.next = (.ok (some t), c')) {keys : List (Option String)} {state : σ}
    {handle : Option α} (hvisit : (Turn.visit p t keys c' state).outcome = .ok handle) :
    (Turn.visit p t keys c' state).cursor.IsHonest := by
  obtain ⟨ts, later, current, rfl, hlater, hend⟩ := hc
  cases ts with
  | nil => exact absurd hnext (isOver_before hlater current t c')
  | cons t' ts =>
    rw [next_before_cons] at hnext
    cases hnext
    rcases Turn.visit_ok hlater hvisit with
      ⟨turn, us, vs, rfl, hlocal⟩ | ⟨rest, current', hrest, hcursor⟩
    · have hhere := hlocal (later.behind vs)
      rw [← Feed.behind_on, Feed.on_limit, ← before_append, ← before_append,
        List.nil_append] at hhere
      rw [hhere]
      refine ⟨vs, later, lastToken (some t) us, rfl, hlater, ?_⟩
      exact hend.imp_left (ClosesAll.of_append (t :: us))
    · exact ⟨[], rest, current', hcursor, hlater.of_rest hrest, .inl closesAll_nil⟩

theorem IsHonest.traverse {σ α : Type} {p : Policy σ α} (hc : c.IsHonest) {log : List Entry}
    {keys : List (Option String)} {state : σ} {a : α}
    (h : (Turn.traverse p log keys c state).outcome = .ok (some a)) :
    (Turn.traverse p log keys c state).cursor.IsHonest := by
  fun_induction Turn.traverse p log keys c state with
  | case1 => cases h
  | case2 => cases h
  | case3 log keys c state t c' hnext turn hnone ih => exact ih (hc.visit hnext hnone) h
  | case4 log keys c state t c' hnext turn hne => exact hc.visit hnext h

end Cursor

/-- A pull that does not finish the walk leaves the source honest. -/
theorem Walk.isHonest_pull {σ α : Type} {p : Policy σ α} {w : Walk} {s : Scene σ}
    (hc : w.finished = false → s.cursor.IsHonest) (hgo : (w.pull p s).walk.finished = false) :
    (w.pull p s).scene.cursor.IsHonest := by
  obtain ⟨hw, a, hfound⟩ := traverse_of_unfinished hgo
  rw [cursor_pull, scene_nextHandle hw]
  exact (hc hw).traverse hfound

/-! ## The exact engine -/

theorem Feed.IsOrderly.isHonest {feed : Feed} (h : feed.IsOrderly) :
    (Cursor.ofFeed feed).IsHonest := by
  obtain ⟨ts, later, ending, rfl, hlater, hhalts, hsuits⟩ := h
  refine ⟨ts, later, none, Cursor.ofFeed_behind ts later, hlater, ?_⟩
  rcases hsuits with ⟨-, hts⟩ | ⟨⟨origin, rfl⟩, -⟩
  · obtain ⟨v, rfl⟩ := Grammar.demands_start.mp hts
    exact .inl (WellNested.tokens v).closesAll
  · exact .inr ⟨_, Feed.Fails.raises hhalts⟩

/-! ## The loose engine -/

def LooseScan.Leads (g : Grammar) (scan : LooseScan) : Prop :=
  match scan.next with
  | .ok s => Grammar.Leads g scan.tokens s.grammar
  | .error ending => ending ≠ .complete

namespace LooseScan

theorem leads_refused (g : Grammar) : refused.Leads g := by simp [Leads, refused, Feed.malformed]

theorem leads_silent (s : LooseScanner) : (silent s).Leads s.grammar := .refl _

theorem Leads.followedBy {g : Grammar} {scan : LooseScan} (h : scan.Leads g)
    {later : LooseScanner → LooseScan} (hlater : ∀ s, (later s).Leads s.grammar) :
    (scan.followedBy later).Leads g := by
  unfold LooseScan.followedBy
  cases hs : scan.next with
  | error ending => exact h
  | ok s =>
    simp only [Leads, hs] at h
    have hrest := hlater s
    simp only [Leads] at hrest ⊢
    cases hnext : (later s).next with
    | error ending => simpa only [hnext] using hrest
    | ok s' =>
      simp only [hnext] at hrest
      exact h.trans hrest

theorem exists_of_next_followedBy {scan : LooseScan} {later : LooseScanner → LooseScan}
    {s' : LooseScanner} (h : (scan.followedBy later).next = .ok s') :
    ∃ s, (later s).next = .ok s' := by
  unfold LooseScan.followedBy at h
  cases hs : scan.next with
  | error ending => simp [hs] at h
  | ok s =>
    simp only [hs] at h
    exact ⟨s, h⟩

end LooseScan

namespace LooseScanner

open LooseScan

theorem leads_finishSign (s : LooseScanner) (sign : Sign) :
    (s.finishSign sign).Leads s.grammar := by
  unfold finishSign
  split
  · rename_i token grammar haccept
    exact Grammar.leads_accept? haccept
  · exact leads_refused _

theorem leads_finishText (s : LooseScanner) (text : List Char) :
    (s.finishText text).Leads s.grammar := by
  unfold finishText
  split
  · exact s.leads_finishSign _
  · exact leads_refused _

theorem leads_finishString (s : LooseScanner) (inside : List Char) :
    (s.finishString inside).Leads s.grammar := by
  unfold finishString
  split
  · split
    · exact s.leads_finishSign _
    · simp [LooseScan.Leads]
  · exact leads_refused _

theorem leads_stepBetween (s : LooseScanner) (c : Char) :
    (s.stepBetween c).Leads s.grammar := by
  unfold stepBetween
  repeat' split
  all_goals first
    | exact leads_silent s
    | exact s.leads_finishSign _

theorem leads_step (s : LooseScanner) (c : Char) : (s.step c).Leads s.grammar := by
  unfold step
  split
  · exact s.leads_stepBetween c
  · exact (s.leads_finishText _).followedBy fun s' => s'.leads_stepBetween c
  · split
    · exact leads_silent { s with lexeme := some (.word (c :: _)) }
    · exact (s.leads_finishText _).followedBy fun s' => s'.leads_stepBetween c
  · split
    · exact s.leads_finishString _
    · exact leads_silent { s with lexeme := some (.string _ (c :: _)) }

theorem leads_finish (s : LooseScanner) : s.finish.Leads s.grammar := by
  unfold finish
  refine LooseScan.Leads.followedBy ?_ fun s' => ?_
  · split
    · exact leads_silent s
    · exact s.leads_finishText _
    · exact s.leads_finishText _
    · exact leads_refused _
  · split
    · exact leads_silent s'
    · exact leads_refused _

theorem isComplete_of_finish {s s' : LooseScanner} (h : s.finish.next = .ok s') :
    s'.grammar.isComplete := by
  obtain ⟨s'', hlast⟩ := exists_of_next_followedBy h
  split at hlast
  · rename_i hcomplete
    obtain rfl : s'' = s' := Except.ok.inj hlast
    exact hcomplete
  · cases hlast

theorem leads_scanFrom {g : Grammar} (reversed : List Token) {s : LooseScanner}
    (h : Grammar.Leads g reversed.reverse s.grammar) (text : List Char) :
    (scanFrom reversed s text).Leads g := by
  induction text generalizing reversed s with
  | nil => exact h
  | cons c rest ih =>
    have hstep := s.leads_step c
    rw [scanFrom]
    cases hnext : (s.step c).next with
    | error ending => simpa only [LooseScan.Leads, hnext] using hstep
    | ok s' =>
      simp only [LooseScan.Leads, hnext] at hstep
      apply ih
      rw [List.reverse_append, List.reverse_reverse]
      exact h.trans hstep

theorem demands_readChunks (failure : Option String) (d : Utf8Decoder) {s : LooseScanner}
    (hs : s.grammar.IsSound) (chunks : List (List UInt8))
    (h : (readChunks failure d s chunks).2 = .complete) :
    s.grammar.Demands (readChunks failure d s chunks).1 := by
  induction chunks generalizing d s with
  | nil =>
    unfold readChunks at h ⊢
    cases failure with
    | some message => cases h
    | none =>
      have hfinish := s.leads_finish
      rcases hscan : s.finish with ⟨ts, ending | s'⟩
      · simp only [hscan, LooseScan.Leads] at h hfinish
        exact absurd h hfinish
      · simp only [hscan, LooseScan.Leads] at hfinish ⊢
        have hcomplete := isComplete_of_finish (s := s) (by rw [hscan])
        have hdemands := (hfinish hs).2 [] (Grammar.demands_of_isComplete hcomplete)
        rwa [List.append_nil] at hdemands
  | cons chunk rest ih =>
    unfold readChunks at h ⊢
    split at h
    · cases h
    · rename_i chars d' hdecode
      have hscan := leads_scanFrom [] (.refl s.grammar) chars
      rcases hchars : scanFrom [] s chars with ⟨ts, ending | s'⟩
      · simp only [hchars, LooseScan.Leads] at h hscan
        exact absurd h hscan
      · simp only [hchars, LooseScan.Leads] at h hscan ⊢
        exact (hscan hs).2 _ (ih d' (hscan hs).1 h)

end LooseScanner

theorem Cursor.isHonest_loose (r : Reads) : (ofFeed (LooseScanner.feed r)).IsHonest := by
  have hdemands := LooseScanner.demands_readChunks r.failure? {} (s := .start) trivial r.leading
  rcases hread : LooseScanner.readChunks r.failure? {} .start r.leading with ⟨ts, ending⟩
  rw [hread] at hdemands
  have hfeed : LooseScanner.feed r = (Feed.trimmed [.halt ending] .complete).behind ts := by
    rw [LooseScanner.feed, hread]
    exact Feed.trimmed_behind ts _ _
  have hlater : (Feed.trimmed [.halt ending] .complete).IsSilent :=
    fun t => Feed.not_mem_trimmed (by simp) _
  refine ⟨ts, _, none, by rw [hfeed, ofFeed_behind], hlater, ?_⟩
  cases ending with
  | complete =>
    obtain ⟨v, rfl⟩ := Grammar.demands_start.mp (hdemands rfl)
    exact .inl (WellNested.tokens v).closesAll
  | broken origin => exact .inr ⟨_, Feed.Fails.raises (Feed.trimmed_halts _ _ _)⟩
  | undecodable flaw place => exact .inr ⟨.undecodable flaw place, .finished _, fun current => rfl⟩

/-- Every byte source is honest, for both engines. -/
theorem Cursor.isHonest_ofBytes (engine : Engine) (r : Reads) :
    (ofFeed (engine.feed r)).IsHonest := by
  cases engine with
  | exact => exact (Feed.isOrderly_ofReads r).isHonest
  | loose => exact isHonest_loose r

end JsonCleave
