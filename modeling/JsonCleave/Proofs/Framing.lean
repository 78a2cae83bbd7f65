import Mathlib
import JsonCleave.Proofs.CompactText
import JsonCleave.Proofs.Cut
import JsonCleave.Proofs.NormalForm
import JsonCleave.Proofs.Upload
/-!
# Lines are records

A response body cut at its newlines is the list of its documents, each a JSON text of an object or
array, since compact text has no newlines.
-/

namespace JsonCleave

/-- The text cut at its newlines. -/
def records (text : String) : List String := (text.toList.splitOn '\n').map String.ofList

theorem records_join_line {documents : List Payload}
    (hdocuments : ∀ p ∈ documents, IsCompact p.content) :
    records (String.join (documents.map LineStream.line)) =
      documents.map (·.content) ++ [""] := by
  induction documents with
  | nil => rfl
  | cons p rest ih =>
    obtain ⟨hp, hrest⟩ := List.forall_mem_cons.mp hdocuments
    have hnewline : ∀ c ∈ p.content.toList, (c == '\n') = false := by
      intro c hc
      rw [beq_eq_false_iff_ne]
      rintro rfl
      exact hp.newline_not_mem hc
    have hfirst := List.splitOnP_append_cons_of_forall_mem hnewline '\n' (by decide)
      (String.join (rest.map LineStream.line)).toList
    have hlist : (String.join ((p :: rest).map LineStream.line)).toList =
        p.content.toList ++ '\n' :: (String.join (rest.map LineStream.line)).toList := by
      simp [LineStream.line, String.join_cons]
    rw [records, hlist, List.splitOn, hfirst, List.map_cons, String.ofList_toList]
    exact congrArg (p.content :: ·) (ih hrest)

/-! ## What a source is split into -/

namespace Tree

theorem shape?_reread (v : Tree) : v.reread.shape? = v.shape? := by cases v <;> rfl

theorem tokens_subset_of_mem_spans {v : Tree} {ts : List Token} (hts : ts <+: v.tokens)
    {span : Span} (hspan : span ∈ v.spans 0) (hstop : span.stop ≤ ts.length) :
    span.container.tokens ⊆ ts := by
  obtain ⟨us, vs, htokens, hstart⟩ := liesIn_of_mem_spans v hspan
  have hfront : us ++ span.container.tokens <+: v.tokens := ⟨vs, by rw [htokens]; simp⟩
  have hread : us ++ span.container.tokens <+: ts := by
    refine List.prefix_of_prefix_length_le hfront hts ?_
    rw [Span.stop, hstart] at hstop
    rw [List.length_append]
    omega
  exact List.Subset.trans (List.subset_append_right _ _) hread.subset

end Tree

namespace Reads

theorem exists_container_of_mem_alone {reads : Reads} {p : Payload}
    (hp : p ∈ reads.alone.contents) :
    ∃ w : Tree, w.isContainer ∧ w.isExact ∧ w.payload = p := by
  obtain ⟨v, ts, later, hfeed, hends⟩ := Feed.exists_ofReads_tellsOf reads
  have hpart : ts <+: v.tokens := by
    rcases hends with ⟨rfl, -⟩ | ⟨hpart, -⟩
    · exact List.prefix_rfl
    · exact hpart
  have hlater : later.Ends := hends.imp (·.2) (·.2)
  obtain ⟨us, hcut⟩ := hpart
  have houtside : Stance.outside.reach = .between := rfl
  have hreaches : Reaches later.limit ts [] 0 _ _ := Policy.reaches_stance houtside ts []
  -- without a limit the texts are those of spans, and a limit only leaves some of them out
  have hcharts : Reaches none ts [] 0 _ _ :=
    v.charts_tokens 0 [] ts us hcut.symm fun t _ => t.isPrintable_unlimited
  have hspans := Policy.payloads_eq_texts hcharts
  rw [alone, Walk.Harvest.contents, hfeed, Policy.items_of_reaches hreaches hlater 0,
    List.map_map] at hp
  obtain ⟨_, hwritten, rfl⟩ := List.mem_map.mp hp
  have hpayload := ((Stance.outside.texts_prefix_unlimited later.limit ts).map _).subset hwritten
  rw [← hspans] at hpayload
  obtain ⟨span, hclosed, rfl⟩ := List.mem_map.mp hpayload
  obtain ⟨hspan, hstop⟩ := List.mem_filter.mp hclosed
  have hread : span.container.tokens ⊆ ts :=
    Tree.tokens_subset_of_mem_spans ⟨us, hcut⟩ hspan (by simpa [Span.isClosedAt] using hstop)
  refine ⟨span.container, v.isContainer_of_mem_selection (Tree.container_mem_selection hspan),
    span.container.isExact_of_tokens fun t ht => Feed.areExact_ofReads reads t ?_, rfl⟩
  rw [hfeed, Feed.behind]
  exact List.mem_append_left _ (List.mem_map_of_mem (hread ht))

theorem contents_alone_prefix {reads : Reads} {v : Tree} {later : Feed}
    (hfeed : Feed.ofReads reads = later.behind v.tokens) (hlater : later.Halts .complete) :
    reads.alone.contents <+: v.selection.map Tree.payload := by
  have houtside : Stance.outside.reach = .between := rfl
  have hreaches : Reaches later.limit v.tokens [] 0 _ _ :=
    Policy.reaches_stance houtside v.tokens []
  have hselection : Reaches none v.tokens [] 0 _ _ :=
    .between (Policy.array_yields_tokens v (fun w _ t _ => t.isPrintable_unlimited) [])
  rw [alone, Walk.Harvest.contents, hfeed, Policy.items_of_reaches hreaches (.inl hlater) 0,
    List.map_map, Policy.payloads_eq_texts hselection]
  have hprefix := Stance.outside.texts_prefix_unlimited later.limit v.tokens
  simpa [Function.comp_def, Item.content] using hprefix.map _

end Reads

/-! ## Answers -/

variable {settings : ServiceSettings} {upload : Upload} {bytes : List UInt8}

/-- Serialized text is compact for every reader, and is the compact text of the container if its
integers are within the digit limit. The response body cut at its newlines is the list of document
texts and an empty last piece, for all lines or the first few. Each text is compact and reads back
as one object or array. If the bytes are a document, the texts are a prefix of its selection, and
all of it, without a fault, if the selected integers are within the limit. -/
theorem Arrives.lines_are_records (h : Arrives settings upload bytes) (s : Service) :
    let documents := (Reads.ofBytes bytes).alone.contents
    let answer := (Service.splitStream settings upload s).1
    (∀ v : Tree, v.isContainer → ∀ depths : List Nat, (∀ d ∈ depths, 1 ≤ d) →
      ∀ (us : List Token) (later : Feed), v.IsPrintable later.limit →
        (Reading.serialize.run
          ⟨.before (v.laterTokens ++ us) later v.tokens.head?, depths⟩).result = .ok v.text) ∧
    (∀ (r : Reader) (text : String), (Reading.serialize.run r).result = .ok text →
      IsCompact text) ∧
    (∀ stream, answer = .ok stream → ∀ (s' : Service) (limit : Option Nat),
      records (String.join (stream.deliver s' limit).lines) =
        (documents.take (limit.getD documents.length)).map (·.content) ++ [""]) ∧
    (∀ p ∈ documents, IsCompact p.content ∧ ∃ v : Tree, v.isContainer ∧
      ∀ source : Reads, source.Carries (utf8Bytes p.content) →
        Feed.ofReads source = .ofTokens v.tokens) ∧
    ∀ (v : Tree) (later : Feed), Feed.ofReads (.ofBytes bytes) = later.behind v.tokens →
      later.Halts .complete → documents <+: v.selection.map Tree.payload ∧
        ((∀ w ∈ v.selection, w.IsPrintable later.limit) →
          documents = v.selection.map Tree.payload ∧
            ∃ stream, answer = .ok stream ∧ ∀ s', (stream.deliver s' none).fault = none) := by
  intro documents answer
  have hcompact : ∀ p ∈ documents, IsCompact p.content := by
    intro p hp
    obtain ⟨w, -, -, rfl⟩ := Reads.exists_container_of_mem_alone hp
    exact w.isCompact_text
  refine ⟨fun v hv depths hopen us later hprint => ?_, fun r text => Reader.isCompact_serialize,
    fun stream hstream s' limit => ?_, fun p hp => ⟨hcompact p hp, ?_⟩,
    fun v later hfeed hlater => ⟨Reads.contents_alone_prefix hfeed hlater, fun hprint => ?_⟩⟩
  · obtain ⟨shape, hshape⟩ := Option.isSome_iff_exists.mp hv
    rw [Policy.serialize_run (Reader.copy_before hshape hprint hopen us)]
  · obtain ⟨-, ⟨stream', hstream', hhandsOut, -⟩ | ⟨fault, hrefused, -⟩⟩ :=
      Service.splitStream_arrives h s
    · obtain rfl : stream' = stream := by simpa using hstream'.symm.trans hstream
      rw [(hhandsOut s' limit).1]
      exact records_join_line fun p hp => hcompact p (List.mem_of_mem_take hp)
    · cases hrefused.symm.trans hstream
  · obtain ⟨w, hcontainer, hexact, rfl⟩ := Reads.exists_container_of_mem_alone hp
    refine ⟨w.reread, ?_, fun source => Feed.ofReads_whole_text hexact⟩
    rw [Tree.isContainer, Tree.shape?_reread]
    exact hcontainer
  · obtain ⟨hcontents, hfaults⟩ := Reads.alone_of_document hfeed hlater hprint
    obtain ⟨stream, hstream, hhandsOut⟩ := Service.splitStream_accepts h s (.inr hfaults)
    refine ⟨hcontents, stream, hstream, fun s' => ?_⟩
    rw [(hhandsOut s' none).2.1, hfaults]
    simp

theorem Arrives.lines_of_unusual_strings :
    let bytes := utf8Bytes "[ \x7b\"a\\n\": \"\u2028\u0085\"\x7d,\n 1, [\"\\u000B\\\"\"]\n]"
    let v : Tree := .array [.object [("a\n", .scalar (.string "\u2028\u0085"))],
      .scalar (.number (.integer 1)), .array [.scalar (.string "\u000b\"")]]
    let upload : Upload := ⟨none, .whole bytes⟩
    Arrives {} upload bytes ∧
      Feed.ofReads (.ofBytes bytes) = (Feed.finished .standard).behind v.tokens ∧
      (∀ w ∈ v.selection, w.IsPrintable .standard) ∧
      ∃ stream, (Service.splitStream {} upload {}).1 = .ok stream ∧
        (stream.deliver {} none).fault = none ∧
        records (String.join (stream.deliver {} none).lines) =
          ["\x7b\"a\\n\":\"\u2028\u0085\"\x7d", "[\"\\u000b\\\"\"]", ""] := by
  intro bytes v upload
  have harrives : Arrives {} upload bytes :=
    ⟨defaultChunkSize, ⟨rfl, by decide, rfl, rfl, rfl⟩, rfl⟩
  have hfeed : Feed.ofReads (.ofBytes bytes) = (Feed.finished .standard).behind v.tokens := by
    decide +kernel
  have hprint : ∀ w ∈ v.selection, w.IsPrintable .standard := by decide
  have htexts : (v.selection.map Tree.payload).map (·.content) ++ [""] =
      ["\x7b\"a\\n\":\"\u2028\u0085\"\x7d", "[\"\\u000b\\\"\"]", ""] := by decide +kernel
  obtain ⟨-, -, hrecords, -, hwhole⟩ := harrives.lines_are_records {}
  obtain ⟨-, hwritten⟩ := hwhole v (.finished .standard) hfeed (.inr ⟨rfl, rfl⟩)
  obtain ⟨hdocuments, stream, hstream, hfault⟩ := hwritten hprint
  refine ⟨harrives, hfeed, hprint, stream, hstream, hfault {}, ?_⟩
  rw [hrecords stream hstream {} none, Option.getD_none, List.take_length, hdocuments, htexts]

end JsonCleave
