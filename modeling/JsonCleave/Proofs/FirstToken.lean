import JsonCleave.Proofs.Cut
import JsonCleave.Proofs.Directory
import JsonCleave.Proofs.History
/-!
# The detected structure and the first token

Structure detection inspects the first byte that is not a blank. The scanner reads the same bytes:
an opening bracket is delivered at once, and any other byte begins a scalar or is refused.
-/

namespace JsonCleave

/-! ## Scans that begin inside a sign -/

namespace Scan

def InsideSign (scan : Scan) : Prop :=
  match scan.tokens with
  | [] => ∀ s, scan.next = some s → s.lexeme ≠ none
  | t :: _ => t.IsLeaf

theorem insideSign_refused : refused.InsideSign := fun _ hnext => nomatch hnext

theorem insideSign_silent {s : Scanner} (hs : s.lexeme ≠ none) : (silent s).InsideSign := by
  intro s' hnext
  obtain rfl := Option.some.inj hnext
  exact hs

theorem insideSign_within (s : Scanner) (l : Lexeme) : (s.within l).InsideSign :=
  insideSign_silent (Option.some_ne_none l)

theorem InsideSign.followedBy {scan : Scan} (h : scan.InsideSign) {later : Scanner → Scan}
    (hlater : ∀ s, s.lexeme ≠ none → (later s).InsideSign) :
    (scan.followedBy later).InsideSign := by
  obtain ⟨ts, next⟩ := scan
  cases next with
  | none => exact h
  | some s =>
    cases ts with
    | nil => exact hlater s (h s rfl)
    | cons t ts => exact h

theorem head?_followedBy {scan : Scan} {t : Token} (h : scan.tokens.head? = some t)
    (later : Scanner → Scan) : (scan.followedBy later).tokens.head? = some t := by
  unfold Scan.followedBy
  split
  · exact h
  · rw [List.head?_append_of_ne_nil]
    · exact h
    · rintro hnil
      rw [hnil] at h
      cases h

theorem InsideSign.isLeaf {scan : Scan} (h : scan.InsideSign) {t : Token}
    (ht : scan.tokens.head? = some t) : t.IsLeaf := by
  obtain ⟨ts, next⟩ := scan
  obtain ⟨rest, rfl⟩ := List.head?_eq_some_iff.mp ht
  exact h

def ofInput (bytes : List UInt8) : Scan := (Scanner.start.scan bytes).followedBy Scanner.finish

end Scan

namespace Scanner

open Scan

theorem finishSign_scalar_cases (s : Scanner) (value : Scalar) :
    s.finishSign (.scalar value) = .refused ∨
      ∃ t s', s.finishSign (.scalar value) = ⟨[t], some s'⟩ ∧ t.IsLeaf := by
  unfold finishSign
  cases haccept : s.grammar.accept? (.scalar value) with
  | none => exact .inl rfl
  | some accepted =>
    obtain ⟨token, g⟩ := accepted
    cases token with
    | none =>
      simp only [Grammar.accept?] at haccept
      split at haccept
      · simp at haccept
      · split at haccept <;> simp at haccept
    | some t => exact .inr ⟨t, ⟨g, none⟩, rfl, accept?_scalar_isLeaf haccept⟩

theorem insideSign_finishScalar (s : Scanner) (value : Scalar) :
    (s.finishSign (.scalar value)).InsideSign := by
  rcases s.finishSign_scalar_cases value with hrefused | ⟨t, s', hscan, ht⟩
  · rw [hrefused]
    exact insideSign_refused
  · rw [hscan]
    exact ht

theorem insideSign_stepNumber (s : Scanner) (l : NumberLexeme) (b : UInt8) :
    (s.stepNumber l b).InsideSign := by
  unfold stepNumber
  split
  · exact insideSign_within s _
  · split
    · exact insideSign_refused
    · -- what the byte is by itself comes behind the number
      rename_i n _
      rcases s.finishSign_scalar_cases (.number n) with hrefused | ⟨t, s', hscan, ht⟩
      · rw [hrefused]
        exact insideSign_refused
      · rw [hscan]
        exact ht

theorem insideSign_step {s : Scanner} (hs : s.lexeme ≠ none) (b : UInt8) :
    (s.step b).InsideSign := by
  unfold step
  split
  · rename_i hnone
    exact absurd hnone hs
  · unfold stepLiteral
    repeat' split
    all_goals first
      | exact insideSign_refused
      | exact insideSign_finishScalar s _
      | exact insideSign_within s _
  · exact insideSign_stepNumber s _ b
  · unfold stepString
    split
    · exact insideSign_within s _
    · exact insideSign_finishScalar s _
    · exact insideSign_refused

theorem insideSign_scan {s : Scanner} (hs : s.lexeme ≠ none) (bytes : List UInt8) :
    (s.scan bytes).InsideSign := by
  induction bytes generalizing s with
  | nil => exact insideSign_silent hs
  | cons b rest ih =>
    rw [scan_cons]
    exact (insideSign_step hs b).followedBy fun s' hs' => ih hs'

theorem insideSign_finish {s : Scanner} (hs : s.lexeme ≠ none) : s.finish.InsideSign := by
  refine (insideSign_step hs endMark).followedBy fun s' hs' => ?_
  split
  · exact insideSign_silent hs'
  · exact insideSign_refused

theorem insideSign_stepBetween {b : UInt8} (hblank : ¬isBlank b) (harray : b ≠ '['.toUInt8)
    (hobject : b ≠ '\x7b'.toUInt8) : (start.stepBetween b).InsideSign := by
  unfold stepBetween
  repeat' split
  all_goals first
    | contradiction
    | exact insideSign_refused
    | exact insideSign_within start _

end Scanner

/-! ## The first token of an input -/

namespace Beginning

/-- The structure that was detected is the one of the first token. -/
def Fits : Beginning → Option Token → Prop
  | .array, first => first = some (.opening .array)
  | .object, first => first = some (.opening .object)
  | .unknown, first => ∀ t, first = some t → t.IsLeaf

theorem fits_ofInput (bytes : List UInt8) :
    (ofBytes bytes).Fits (Scan.ofInput bytes).tokens.head? := by
  induction bytes with
  | nil => exact fun t ht => nomatch ht
  | cons b rest ih =>
    by_cases hblank : isBlank b
    · have hsame : ofBytes (b :: rest) = ofBytes rest := by
        rw [ofBytes, ofBytes, List.dropWhile_cons_of_pos hblank]
      have hstep : Scanner.start.step b = .silent .start := by
        show Scanner.start.stepBetween b = _
        rw [Scanner.stepBetween, if_pos hblank]
      rw [hsame, Scan.ofInput, Scanner.scan_cons, hstep]
      exact ih
    · have hbyte : ofBytes (b :: rest) =
          if b = '['.toUInt8 then .array else if b = '\x7b'.toUInt8 then .object else .unknown := by
        rw [ofBytes, List.dropWhile_cons_of_neg hblank]
      rw [hbyte, Scan.ofInput, Scanner.scan_cons]
      by_cases harray : b = '['.toUInt8
      · subst harray
        rw [if_pos rfl]
        exact Scan.head?_followedBy (Scan.head?_followedBy rfl _) _
      · rw [if_neg harray]
        by_cases hobject : b = '\x7b'.toUInt8
        · subst hobject
          rw [if_pos rfl]
          exact Scan.head?_followedBy (Scan.head?_followedBy rfl _) _
        · rw [if_neg hobject]
          have hstep := Scanner.insideSign_stepBetween hblank harray hobject
          have hscan := (hstep.followedBy fun s hs => Scanner.insideSign_scan hs rest).followedBy
            fun s hs => Scanner.insideSign_finish hs
          exact fun t ht => hscan.isLeaf ht

end Beginning

/-! ## The first pull from a source -/

/-- The chunks in front of the first empty one are `bytes`, and no read among them fails. -/
structure Reads.MakeUp (reads : Reads) (bytes : List UInt8) : Prop where
  flatten_leading : reads.leading.flatten = bytes
  failure?_eq : reads.failure? = none

theorem Reads.makeUp_ofBytes (bytes : List UInt8) : (ofBytes bytes).MakeUp bytes := by
  cases bytes with
  | nil => exact ⟨rfl, rfl⟩
  | cons b rest => exact ⟨List.append_nil _, rfl⟩

namespace Tree

theorem eq_scalar_of_isLeaf {v : Tree} {t : Token} {ts : List Token} (hv : t :: ts <+: v.tokens)
    (ht : t.IsLeaf) : ∃ value, t = .scalar value := by
  obtain ⟨us, hus⟩ := hv
  cases v with
  | scalar value => exact ⟨value, (List.cons.inj hus).1⟩
  | object members =>
    obtain ⟨rfl, -⟩ := List.cons.inj hus
    cases ht.1
  | array elements =>
    obtain ⟨rfl, -⟩ := List.cons.inj hus
    cases ht.1

end Tree

theorem Scan.ofInput_document (bytes : List UInt8) :
    ∃ v : Tree, (ofInput bytes).tokens <+: v.tokens ∧
      ((ofInput bytes).next ≠ none → (ofInput bytes).tokens = v.tokens) := by
  have hstart : Scanner.start.grammar.IsSound := trivial
  have hinput : (ofInput bytes).Leads .start :=
    (Scanner.start.leads_scan bytes).followedBy fun s => s.leads_finish
  obtain ⟨g, hleads, hnext⟩ := hinput
  cases hlast : (ofInput bytes).next with
  | none =>
    obtain ⟨us, hus⟩ := g.exists_demands
    obtain ⟨v, hv⟩ := Grammar.demands_start.mp ((hleads hstart).2 us hus)
    exact ⟨v, ⟨us, hv⟩, fun h => absurd rfl h⟩
  | some s =>
    have hcomplete : s.grammar.isComplete := by
      unfold ofInput Scan.followedBy at hlast
      split at hlast
      · simp_all
      · exact Scanner.isComplete_of_finish hlast
    have hdemands := Grammar.demands_of_isComplete hcomplete
    rw [hnext s hlast] at hdemands
    obtain ⟨v, hv⟩ := Grammar.demands_start.mp ((hleads hstart).2 [] hdemands)
    rw [List.append_nil] at hv
    exact ⟨v, hv ▸ List.prefix_rfl, fun _ => hv⟩

namespace Feed

theorem ofChunks_append (s : Option Scanner) (as bs : List (List UInt8)) :
    ofChunks s (as ++ bs) =
      ((ofChunks s as).1 ++ (ofChunks (ofChunks s as).2 bs).1,
        (ofChunks (ofChunks s as).2 bs).2) := by
  induction as generalizing s with
  | nil => rfl
  | cons chunk rest ih =>
    rw [List.cons_append, ofChunks, ofChunks]
    dsimp only
    rw [ih, List.append_assoc]

theorem exists_ofReads_eq {reads : Reads} {bytes : List UInt8} (h : reads.MakeUp bytes) :
    let read := ofChunks (some .start) reads.leading
    ∃ (more : List Delivery) (ending : Ending),
      ofReads reads = trimmed (read.1 ++ ((ofChunk read.2 []).1 ++ more)) ending := by
  intro read
  have hchunks : reads.leading ++ reads.chunks.dropWhile (!·.isEmpty) = reads.chunks :=
    List.takeWhile_append_dropWhile
  unfold ofReads
  cases hrest : reads.chunks.dropWhile (!·.isEmpty) with
  | nil =>
    -- no read is empty, so the end of the input comes behind them all
    refine ⟨[], ?_⟩
    rw [hrest, List.append_nil] at hchunks
    have hfull : reads.chunks.any (·.isEmpty) = false := by
      rw [List.dropWhile_eq_nil_iff] at hrest
      simpa using hrest
    have hfailure := h.failure?_eq
    rw [Reads.failure?, hfull, if_neg Bool.false_ne_true] at hfailure
    rw [hfailure, List.append_nil, ← hchunks]
    exact ⟨_, rfl⟩
  | cons chunk rest =>
    have hempty : chunk = [] := by
      have hhead := List.head?_dropWhile_not (!·.isEmpty) reads.chunks
      rw [hrest] at hhead
      simpa using hhead
    subst hempty
    rw [hrest] at hchunks
    rw [← hchunks, ofChunks_append, ofChunks]
    dsimp only
    split
    · exact ⟨_, _, rfl⟩
    · rw [List.append_assoc, List.append_assoc]
      exact ⟨_, _, rfl⟩

theorem exists_ofChunk_nil (s : Scanner) :
    ∃ rest, (ofChunk (some s) []).1 = s.finish.tokens.map .token ++ rest ∧
      (s.finish.next = none → rest = [.halt malformed]) := by
  simp only [ofChunk, List.isEmpty_nil, ↓reduceIte]
  split
  · rename_i hsilent
    refine ⟨[.halt .complete], ?_, fun hnext => ?_⟩
    · rw [List.isEmpty_iff.mp hsilent.1]
      rfl
    · rw [hnext] at hsilent
      cases hsilent.2
  · exact ⟨_, rfl, fun hnext => by rw [hnext]; rfl⟩

theorem exists_ofReads_behind {reads : Reads} {bytes : List UInt8} (h : reads.MakeUp bytes) :
    ∃ later : Feed, ofReads reads = later.behind (Scan.ofInput bytes).tokens ∧
      ((Scan.ofInput bytes).next = none → later.Fails (.malformed none)) := by
  obtain ⟨more, ending, hfeed⟩ := exists_ofReads_eq h
  have hne : ∀ chunk ∈ reads.leading, chunk ≠ [] := by
    intro chunk hchunk
    simpa using List.mem_takeWhile_imp hchunk
  rw [hfeed, Scan.ofInput, ← h.flatten_leading]
  cases hscan : Scanner.start.scan reads.leading.flatten with
  | mk ts next =>
    cases next with
    | none =>
      obtain ⟨rest, hrest⟩ := ofChunks_of_refused hne hscan
      rw [hrest, List.append_assoc, trimmed_behind]
      exact ⟨_, rfl, fun _ => trimmed_halts malformed ending _⟩
    | some s =>
      obtain ⟨rest, hlast, hrest⟩ := exists_ofChunk_nil s
      rw [ofChunks_of_scan hne hscan, hlast, ← List.append_assoc, ← List.append_assoc,
        ← List.map_append, List.append_assoc, trimmed_behind]
      refine ⟨_, rfl, fun hnext => ?_⟩
      rw [hrest hnext]
      exact trimmed_halts malformed ending more

end Feed

/-- The first pull delivers the first token of the input, and fails if there is none. -/
theorem Cursor.next_ofReads {reads : Reads} {bytes : List UInt8} (h : reads.MakeUp bytes) :
    (ofFeed (.ofReads reads)).next.1 =
      match (Scan.ofInput bytes).tokens.head? with
      | some t => .ok (some t)
      | none => .error (.input (.malformed none)) := by
  obtain ⟨later, hfeed, hlater⟩ := Feed.exists_ofReads_behind h
  rw [hfeed, ofFeed_behind]
  cases htokens : (Scan.ofInput bytes).tokens with
  | cons t rest => rfl
  | nil =>
    have hnext : (Scan.ofInput bytes).next = none := by
      obtain ⟨v, -, hwhole⟩ := Scan.ofInput_document bytes
      by_contra hsome
      exact v.tokens_ne_nil ((hwhole hsome).symm.trans htokens)
    obtain ⟨c', hfails⟩ := next_before_fails (hlater hnext) none
    rw [hfails]
    rfl

namespace Beginning

/-- The detected structure is determined by the first pull. -/
theorem ofBytes_eq_iff {reads : Reads} {bytes : List UInt8} (h : reads.MakeUp bytes) :
    let first := (Cursor.ofFeed (.ofReads reads)).next.1
    (ofBytes bytes = .array ↔ first = .ok (some (.opening .array))) ∧
      (ofBytes bytes = .object ↔ first = .ok (some (.opening .object))) ∧
      (ofBytes bytes = .unknown ↔
        (∃ value, first = .ok (some (.scalar value))) ∨ ∃ fault, first = .error fault) := by
  intro first
  have hfirst : first = _ := Cursor.next_ofReads h
  have hfits := fits_ofInput bytes
  obtain ⟨v, hprefix, -⟩ := Scan.ofInput_document bytes
  cases hbytes : ofBytes bytes with
  | array =>
    rw [hbytes, Fits] at hfits
    rw [hfits] at hfirst
    simp [hfirst]
  | object =>
    rw [hbytes, Fits] at hfits
    rw [hfits] at hfirst
    simp [hfirst]
  | unknown =>
    rw [hbytes] at hfits
    cases htokens : (Scan.ofInput bytes).tokens with
    | nil =>
      rw [htokens] at hfirst
      simp [hfirst]
    | cons t rest =>
      rw [htokens] at hprefix hfits hfirst
      obtain ⟨value, rfl⟩ := Tree.eq_scalar_of_isLeaf hprefix (hfits t rfl)
      simp [hfirst]

end Beginning

/-! ## Warnings of a batch -/

namespace Bench

def IsCalm (b : Bench) : Prop := ∀ entry ∈ b.reversedLog, entry.level ≠ .warning

variable {b : Bench}

theorem level_ne_warning {entry : Entry} (h : entry.speaker = .splitter) :
    entry.level ≠ .warning := by
  cases entry <;> simp_all [Entry.speaker, Entry.level]

theorem IsCalm.step (h : b.IsCalm) (settings : BatchSettings) (w : Worker) :
    (b.step settings w).2.IsCalm := by
  cases w with
  | ready =>
    have hpull := Policy.speaker_pull_array b.walk b.scene
    have hlog : b.pullStep.2.IsCalm := by
      unfold pullStep
      dsimp only
      split <;> exact List.forall_mem_append.mpr
        ⟨fun entry hentry => level_ne_warning (hpull entry (List.mem_reverse.mp hentry)), h⟩
    exact hlog
  | holding request =>
    show (b.writeStep settings request).2.IsCalm
    unfold writeStep
    split
    · exact h
    · dsimp only
      split <;> exact h
  | written =>
    show (b.drawStep settings).2.IsCalm
    unfold drawStep
    dsimp only
    split
    · exact h
    · split
      · exact List.forall_mem_cons.mpr ⟨nofun, h⟩
      · exact h
  | ended => exact h
  | failed fault => exact h

theorem IsCalm.finish (h : b.IsCalm) (settings : BatchSettings) (w : Worker) :
    (b.finish settings w).2.IsCalm := by
  fun_induction Bench.finish settings w b with
  | case1 => exact h
  | case2 w b hdone ih => exact ih (h.step settings w)

theorem IsCalm.finishAll (h : b.IsCalm) (settings : BatchSettings) (n : Nat) :
    (b.finishAll settings n).2.IsCalm := by
  induction n generalizing b with
  | zero => exact h
  | succ n ih => exact ih (h.finish settings .ready)

end Bench

theorem Cursor.entry_of_ofStream {argument environment : Option String} {reads : Reads}
    {cursor : Cursor} {entry : Entry}
    (h : ofStream argument environment (some reads) = .ok (cursor, entry)) :
    ∃ engine : Engine, entry = .reading engine.label := by
  rw [ofStream] at h
  cases hengine : Engine.choose argument environment with
  | error fault =>
    rw [hengine] at h
    cases h
  | ok engine =>
    rw [hengine] at h
    cases h
    exact ⟨engine, rfl⟩

namespace BatchJob

theorem calm_split (job : BatchJob) (target : Option Location) (bytes : List UInt8)
    (storage : Storage) :
    ∀ entry ∈ (job.split target bytes storage).log, entry.level ≠ .warning := by
  unfold split
  split
  · exact List.forall_mem_nil _
  · rename_i cursor entry hcursor
    have hreading : entry.level ≠ .warning := by
      obtain ⟨engine, rfl⟩ := Cursor.entry_of_ofStream hcursor
      exact nofun
    let bench : Bench := { walk := { writes := true }, scene := ⟨cursor, 0, 0⟩, storage }
    have hstart : bench.IsCalm := List.forall_mem_nil _
    have hcalm := hstart.finishAll { target, interval := job.interval } (max job.workers.toNat 1)
    dsimp only [Crew.finishAll]
    generalize bench.finishAll { target, interval := job.interval }
      (max job.workers.toNat 1) = finished at hcalm ⊢
    have hlog : ∀ entry' ∈ entry :: finished.2.reversedLog.reverse, entry'.level ≠ .warning :=
      List.forall_mem_cons.mpr
        ⟨hreading, fun entry' hentry' => hcalm entry' (List.mem_reverse.mp hentry')⟩
    split
    · exact hlog
    · exact List.forall_mem_append.mpr ⟨hlog, by simp [Entry.level]⟩

theorem calm_splitFile (job : BatchJob) (storage : Storage) :
    ∀ entry ∈ (job.splitFile storage).log, entry.level ≠ .warning := by
  unfold splitFile
  split
  · exact List.forall_mem_nil _
  · exact job.calm_split _ _ storage

/-- A batch logs one warning, if the file does not begin with an array. -/
theorem warnings_run {job : BatchJob} {storage : Storage} {beginning : Beginning}
    (h : Beginning.ofFile storage job.path = .ok (beginning, [])) :
    (job.run storage).log.filter (·.level = .warning) =
      if beginning = .array then [] else [.noLeadingArray job.path.text beginning.label] := by
  let first : List Entry :=
    if beginning = .array then [] else [.noLeadingArray job.path.text beginning.label]
  have hfirst : first.filter (·.level = .warning) = first := by
    simp only [first]
    split <;> rfl
  have hlog : (job.run storage).log = first ∨
      ∃ storage', (job.run storage).log = first ++ (job.splitFile storage').log := by
    unfold run
    rw [h]
    dsimp only [first]
    rw [List.nil_append]
    split
    · exact .inl rfl
    · exact .inr ⟨_, rfl⟩
  rcases hlog with hlog | ⟨storage', hlog⟩
  · rw [hlog, hfirst]
  · have hsplit : (job.splitFile storage').log.filter (·.level = .warning) = [] := by
      rw [List.filter_eq_nil_iff]
      intro entry hentry
      simpa using job.calm_splitFile storage' entry hentry
    rw [hlog, List.filter_append, hfirst, hsplit, List.append_nil]

end BatchJob

/-! ## The look and the scan -/

theorem Destination.read_make {output : Destination} {storage storage' : Storage} {path : Path}
    {bytes : List UInt8} (hread : storage.read path = .ok bytes)
    (hmake : output.make storage = (.ok (), storage')) : storage'.read path = .ok bytes := by
  cases output with
  | nowhere =>
    obtain ⟨-, rfl⟩ := Prod.mk.inj hmake
    exact hread
  | directory p => exact (Storage.made_makeDirectory hmake).1.read hread
  | unnamed => cases hmake

/-- For a readable file, the detected structure agrees with the first pull of a cursor over its
bytes, however they are read: array, object, or unknown for a scalar or a failure. A batch warns
exactly when its split does not begin with an array. -/
theorem look_agrees_with_first_pull {storage : Storage} {path : Path} {bytes : List UInt8}
    (hread : storage.read path = .ok bytes) {reads : Reads} (hreads : reads.MakeUp bytes) :
    ∃ beginning cursor entry, Beginning.ofFile storage path = .ok (beginning, []) ∧
      Cursor.ofStream none none (some reads) = .ok (cursor, entry) ∧
      (beginning = .array ↔ cursor.next.1 = .ok (some (.opening .array))) ∧
      (beginning = .object ↔ cursor.next.1 = .ok (some (.opening .object))) ∧
      (beginning = .unknown ↔ (∃ value, cursor.next.1 = .ok (some (.scalar value))) ∨
        ∃ fault, cursor.next.1 = .error fault) ∧
      (Cursor.ofFeed (.ofBytes bytes)).next.1 = cursor.next.1 ∧
      ∀ job : BatchJob, job.path = path →
        (∀ storage', job.output.make storage = (.ok (), storage') →
          storage'.read path = .ok bytes) ∧
        (cursor.next.1 = .ok (some (.opening .array)) →
          (job.run storage).log.filter (·.level = .warning) = []) ∧
        (cursor.next.1 ≠ .ok (some (.opening .array)) →
          (job.run storage).log.filter (·.level = .warning) =
            [.noLeadingArray path.text beginning.label]) := by
  have hlook : Beginning.ofFile storage path = .ok (.ofBytes bytes, []) := by
    rw [Beginning.ofFile, hread]
  obtain ⟨harray, hobject, hunknown⟩ := Beginning.ofBytes_eq_iff hreads
  refine ⟨.ofBytes bytes, .ofFeed (.ofReads reads), .reading Engine.standard.label, hlook, rfl,
    harray, hobject, hunknown, ?_, ?_⟩
  · exact (Cursor.next_ofReads (Reads.makeUp_ofBytes bytes)).trans
      (Cursor.next_ofReads hreads).symm
  rintro job rfl
  have hwarnings := BatchJob.warnings_run hlook
  refine ⟨fun storage' hmake => Destination.read_make hread hmake, fun hfirst => ?_,
    fun hfirst => ?_⟩
  · rw [hwarnings, if_pos (harray.mpr hfirst)]
  · rw [hwarnings, if_neg (mt harray.mp hfirst)]

theorem look_agrees_behind_blanks :
    let bytes : List UInt8 := [11, 12, 123, 125]
    let storage : Storage := { nodes := [(["in"], .file bytes)] }
    let path : Path := ⟨.here, ["in"]⟩
    let reads : Reads := ⟨[[11], [12, 123], [125]], none⟩
    storage.read path = .ok bytes ∧ reads.MakeUp bytes ∧
      (Cursor.ofFeed (.ofReads reads)).next.1 = .ok (some (.opening .object)) ∧
      (BatchJob.run { path, output := .nowhere } storage).log.filter (·.level = .warning) =
        [.noLeadingArray path.text "object"] := by
  intro bytes storage path reads
  have hread : storage.read path = .ok bytes := by
    have hlocate : storage.locate path = .ok ["in"] := by decide +kernel
    rw [Storage.read, hlocate]
    rfl
  have hreads : reads.MakeUp bytes := ⟨by decide, by decide⟩
  obtain ⟨beginning, cursor, entry, hlook, hcursor, -, hobject, -, -, hjobs⟩ :=
    look_agrees_with_first_pull hread hreads
  have hcursor : Cursor.ofFeed (.ofReads reads) = cursor := by
    cases hcursor
    rfl
  have hbeginning : .object = beginning := by
    rw [Beginning.ofFile, hread] at hlook
    cases hlook
    rfl
  subst hcursor hbeginning
  have hfirst := hobject.mp rfl
  obtain ⟨-, -, hwarns⟩ := hjobs { path, output := .nowhere } rfl
  exact ⟨hread, hreads, hfirst, hwarns (by simp [hfirst])⟩

end JsonCleave
