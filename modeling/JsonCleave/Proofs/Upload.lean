import JsonCleave.Service
import JsonCleave.Proofs.Interleaving
/-!
# Responses to an upload

An upload that arrives is split from its temporary file. Listing and lines are determined by the
documents and the ending of this split; the first document is pulled before the lines begin.
-/

namespace JsonCleave

open Policy (array)

/-! ## The documents of a walk -/

def Item.address? {α : Type} : Item α → Option Address
  | .request written => some written.address
  | .handle _ => none

namespace Walk

variable {w : Walk} {s : Scene Nat}

theorem pullAll_ends (w : Walk) (s : Scene Nat) :
    (w.pullAll array s).faults = [] ∧ (w.pullAll array s).outcome = some (.ok ()) ∨
      ∃ fault, (w.pullAll array s).faults = [fault] ∧
        (w.pullAll array s).outcome = some (.error fault) := by
  induction w, s using pullAll.induct array with
  | case1 w s pulled i hitem ih =>
    rw [(reads_item hitem).2, pullAll_item hitem]
    exact ih
  | case2 w s pulled hstopped =>
    exact .inl ⟨(reads_stopped hstopped).2, by rw [pullAll_stopped hstopped]⟩
  | case3 w s pulled fault hfailed =>
    exact .inr ⟨fault, (reads_failed hfailed).2, by rw [pullAll_failed hfailed]⟩

theorem outcome_pullAll_congr {w' : Walk} {s' : Scene Nat}
    (h : (w'.pullAll array s').faults = (w.pullAll array s).faults) :
    (w'.pullAll array s').outcome = (w.pullAll array s).outcome := by
  rcases pullAll_ends w s with ⟨hfaults, houtcome⟩ | ⟨fault, hfaults, houtcome⟩ <;>
    rcases pullAll_ends w' s' with ⟨hfaults', houtcome'⟩ | ⟨fault', hfaults', houtcome'⟩ <;>
    rw [hfaults, hfaults'] at h
  · rw [houtcome, houtcome']
  · cases h
  · cases h
  · rw [houtcome, houtcome', List.singleton_inj.mp h]

theorem length_contents_pullAll_le (w : Walk) (s : Scene Nat) :
    (w.pullAll array s).contents.length ≤ s.cursor.pending.length := by
  induction w, s using pullAll.induct array with
  | case1 w s pulled i hitem ih =>
    have hlt := length_pending_pull_lt hitem
    rw [(reads_item hitem).1, List.length_cons]
    exact Nat.lt_of_le_of_lt ih hlt
  | case2 w s pulled hstopped => simp [(reads_stopped hstopped).1]
  | case3 w s pulled fault hfailed => simp [(reads_failed hfailed).1]

theorem addresses_pullAll (hwrites : w.writes = true) (s : Scene Nat) :
    (w.pullAll array s).items.filterMap Item.address? =
        (List.range' s.count (w.pullAll array s).items.length).map .fresh ∧
      (w.pullAll array s).scene.count = s.count + (w.pullAll array s).items.length := by
  induction w, s using pullAll.induct array with
  | case1 w s pulled i hitem ih =>
    obtain ⟨hwrites', ⟨payload, hpayload, hcount⟩ | ⟨hno, -⟩⟩ :=
      Policy.pull_array_outcome hwrites s
    · obtain rfl : i = .request (.document s.count payload) := by
        simpa using hitem.symm.trans hpayload
      obtain ⟨haddresses, hscene⟩ := ih hwrites'
      rw [hcount] at haddresses hscene
      rw [pullAll_item hitem]
      simp only [List.length_cons]
      rw [List.range'_succ, List.map_cons, ← haddresses, Nat.add_comm _ 1, ← Nat.add_assoc]
      exact ⟨rfl, hscene⟩
    · exact absurd hitem (by rcases hno with hstopped | ⟨fault, hfailed⟩ <;> simp_all [pulled])
  | case2 w s pulled hstopped =>
    obtain ⟨-, ⟨payload, hpayload, -⟩ | ⟨-, -, hcount⟩⟩ := Policy.pull_array_outcome hwrites s
    · exact absurd (hstopped.symm.trans hpayload) (by simp)
    · rw [pullAll_stopped hstopped]
      exact ⟨rfl, hcount⟩
  | case3 w s pulled fault hfailed =>
    obtain ⟨-, ⟨payload, hpayload, -⟩ | ⟨-, -, hcount⟩⟩ := Policy.pull_array_outcome hwrites s
    · exact absurd (hfailed.symm.trans hpayload) (by simp)
    · rw [pullAll_failed hfailed]
      exact ⟨rfl, hcount⟩

theorem pull_array_handles (hwrites : w.writes = false) (s : Scene Nat) :
    (w.pull array s).walk.writes = false ∧
      ∀ i, (w.pull array s).outcome = .item i → ∃ payload, i = .handle payload := by
  cases hw : w.finished with
  | true =>
    rw [pull_finished array s hw]
    exact ⟨hwrites, by simp⟩
  | false =>
    rw [Policy.pull_array_eq hw]
    dsimp only
    split
    · exact ⟨hwrites, fun i hi => ⟨_, by simpa [hwrites, Item.wrap] using hi.symm⟩⟩
    · exact ⟨hwrites, by simp⟩
    · exact ⟨hwrites, by simp⟩

end Walk

theorem Reads.written (reads : Reads) :
    let written := Walk.pullAll array { writes := true } ⟨.ofFeed (.ofReads reads), 0, 0⟩
    let n := reads.alone.contents.length
    written.items.filterMap Item.address? = (List.range n).map .fresh ∧
      written.scene.count = n ∧ written.outcome = reads.alone.outcome := by
  obtain ⟨hcontents, hfaults⟩ :=
    Policy.pullAll_array_congr {} ⟨.ofFeed (.ofReads reads), 0, 0⟩ true 0
  obtain ⟨haddresses, hcount⟩ := Walk.addresses_pullAll (w := { writes := true }) rfl
    ⟨.ofFeed (.ofReads reads), 0, 0⟩
  have hlength := congrArg List.length hcontents
  simp only [Walk.Harvest.contents, List.length_map] at hlength
  rw [← List.range_eq_range', hlength] at haddresses
  rw [Nat.zero_add, hlength] at hcount
  simp only [Reads.alone, Walk.Harvest.contents, List.length_map]
  exact ⟨haddresses, hcount, Walk.outcome_pullAll_congr hfaults⟩

/-! ## Copying -/

theorem flatten_inPieces {size : Nat} (hsize : 0 < size) (bytes : List UInt8) :
    (inPieces size bytes).flatten = bytes := by
  fun_induction inPieces size bytes with
  | case1 bytes h => simpa [Nat.ne_of_gt hsize] using h.symm
  | case2 bytes h ih => rw [List.flatten_cons, ih, List.take_append_drop]

namespace Content

/-- The content is `bytes`, and no read of it fails. -/
def Holds (bytes : List UInt8) : Content → Prop
  | .whole all => all = bytes
  | .pieces reads => reads.leading.flatten = bytes ∧ reads.failure? = none

theorem Holds.readAll {bytes : List UInt8} {content : Content} (h : content.Holds bytes)
    {size : Int} (hsize : 1 ≤ size) :
    ∃ pieces, content.readAll size = (pieces, none) ∧ pieces.flatten = bytes := by
  cases content with
  | whole all =>
    obtain rfl : all = bytes := h
    have hpos : 0 < size.toNat := by omega
    exact ⟨_, if_neg (by omega), flatten_inPieces hpos all⟩
  | pieces reads =>
    obtain ⟨hflatten, hfailure⟩ := h
    exact ⟨_, (if_neg (by omega)).trans (by rw [hfailure]), hflatten⟩

end Content

/-- An upload of `bytes` with a valid chunk size, which can be written to a temporary file and is
split by the standard engine. -/
structure Offers (settings : ServiceSettings) (upload : Upload) (bytes : List UInt8)
    (size : Int) : Prop where
  setting : chunkSizeOf settings.chunkSize = .ok size
  pos : 1 ≤ size
  content : upload.content.Holds bytes
  writable : settings.writeFailure = none
  engine : Engine.choose none settings.backend = .ok .exact

/-- `Offers`, and the file of the upload takes reads of this size. -/
def Arrives (settings : ServiceSettings) (upload : Upload) (bytes : List UInt8) : Prop :=
  ∃ size, Offers settings upload bytes size ∧ settings.sizeRefusal? upload.content size = none

theorem Arrives.engine {settings : ServiceSettings} {upload : Upload} {bytes : List UInt8}
    (h : Arrives settings upload bytes) : Engine.choose none settings.backend = .ok .exact := by
  obtain ⟨size, hoffers, -⟩ := h
  exact hoffers.engine

namespace Service

variable {settings : ServiceSettings} {upload : Upload} {bytes : List UInt8} {fault : Fault}

@[simp] theorem meters_unlink (s : Service) (file : Nat) : (s.unlink file).meters = s.meters := rfl

def copied (s : Service) (bytes : List UInt8) : Service :=
  s.makeFile.2.writeFile s.nextFile bytes

@[simp] theorem meters_copied (s : Service) : (s.copied bytes).meters = s.meters := rfl

theorem spool_arrives (h : Arrives settings upload bytes) (s : Service) :
    spool settings upload s = (.ok (s.nextFile, bytes), s.copied bytes) := by
  obtain ⟨size, hoffers, hrefusal⟩ := h
  obtain ⟨pieces, hread, rfl⟩ := hoffers.content.readAll hoffers.pos
  have hfault : copyFault? settings pieces none = none := by
    simp [copyFault?, hoffers.writable]
  simp only [spool, hoffers.setting, makeFile, hrefusal, hread, hfault]
  rfl

theorem spool_refused {size : Int} (hsize : chunkSizeOf settings.chunkSize = .ok size)
    {refusal : SizeRefusal} (hrefusal : settings.sizeRefusal? upload.content size = some refusal)
    (s : Service) :
    spool settings upload s = (.error refusal.fault, s.makeFile.2.unlink s.nextFile) := by
  simp only [spool, hsize, makeFile, hrefusal]

/-- An upload whose file refuses the size is answered with an error by both requests, and counts no
documents. -/
theorem refuses_size {size : Int} (hsize : chunkSizeOf settings.chunkSize = .ok size)
    {refusal : SizeRefusal} (hrefusal : settings.sizeRefusal? upload.content size = some refusal)
    (s : Service) :
    let refused : HttpError := ⟨500, refusal.fault.message.getD ""⟩
    (splitFile settings upload s).1 = .error refused ∧
      (splitFile settings upload s).2.meters.documents = s.meters.documents ∧
      (splitStream settings upload s).1 = .error refused ∧
      (splitStream settings upload s).2.meters.documents = s.meters.documents := by
  have hstatus : HttpError.ofFault refusal.fault = ⟨500, refusal.fault.message.getD ""⟩ := by
    cases refusal <;> rfl
  simp only [splitFile, splitStream, spool_refused hsize hrefusal, hstatus]
  exact ⟨trivial, rfl, trivial, rfl⟩

/-! ## Listings -/

theorem openWalk_eq (hengine : Engine.choose none settings.backend = .ok .exact)
    (bytes : List UInt8) :
    openWalk settings bytes = .ok ⟨.ofFeed (.ofReads (.ofBytes bytes)), 0, 0⟩ := by
  rw [openWalk, Cursor.ofStream_exact hengine]
  rfl

theorem splitAddresses_eq (hengine : Engine.choose none settings.backend = .ok .exact)
    (bytes : List UInt8) :
    splitAddresses settings bytes =
      let alone := (Reads.ofBytes bytes).alone
      match alone.outcome with
      | some (.error fault) => .error fault
      | _ => .ok ((List.range alone.contents.length).map .fresh, alone.contents.length) := by
  obtain ⟨haddresses, hcount, houtcome⟩ := (Reads.ofBytes bytes).written
  dsimp only
  rw [← houtcome]
  obtain ⟨-, hend⟩ | ⟨fault, -, hend⟩ := Walk.pullAll_ends { writes := true }
    ⟨.ofFeed (.ofReads (.ofBytes bytes)), 0, 0⟩
  · simp only [splitAddresses, openWalk_eq hengine, Except.bind, hend, hcount]
    refine congrArg (Except.ok <| Prod.mk · _)
      ((List.filterMap_congr fun i _ => ?_).trans haddresses)
    cases i <;> rfl
  · simp only [splitAddresses, openWalk_eq hengine, Except.bind, hend]

theorem splitFile_whole (h : Arrives settings upload bytes)
    (hend : (Reads.ofBytes bytes).alone.outcome = some (.ok ())) (s : Service) :
    let n := (Reads.ofBytes bytes).alone.contents.length
    let answered := splitFile settings upload s
    answered.1 = .ok ⟨upload.filename, bytes.length, n, (List.range n).map .fresh⟩ ∧
      answered.2.meters.documents = s.meters.documents + n := by
  simp only [splitFile, spool_arrives h, splitAddresses_eq h.engine, hend]
  simp [countDocuments, countDuration, countRequest]

theorem splitFile_broken (h : Arrives settings upload bytes)
    (hend : (Reads.ofBytes bytes).alone.outcome = some (.error fault)) (s : Service) :
    let answered := splitFile settings upload s
    answered.1 = .error (.ofFault fault) ∧
      answered.2.meters.documents = s.meters.documents := by
  simp only [splitFile, spool_arrives h, splitAddresses_eq h.engine, hend]
  simp [countDuration, countRequest]

end Service

/-! ## Lines -/

namespace LineStream

variable {stream : LineStream} {s : Service}

/-- The documents not yet sent. -/
def owed (stream : LineStream) : List Payload :=
  match stream.progress with
  | .fresh (some first) => first :: (stream.walk.pullAll array stream.scene).contents
  | .running => (stream.walk.pullAll array stream.scene).contents
  | .fresh none | .closed => []

def owedFaults (stream : LineStream) : List Fault :=
  match stream.progress with
  | .fresh (some _) | .running => (stream.walk.pullAll array stream.scene).faults
  | .fresh none | .closed => []

theorem next_owed (hwrites : stream.walk.writes = false) {p : Payload} {rest : List Payload}
    (h : stream.owed = p :: rest) (s : Service) :
    ∃ stream', stream.next s = (.item (line p), stream', s.countDocuments 1) ∧
      stream'.walk.writes = false ∧ stream'.owed = rest ∧
      stream'.owedFaults = stream.owedFaults := by
  obtain ⟨file, walk, scene, progress⟩ := stream
  cases progress with
  | fresh first =>
    cases first with
    | none => cases h
    | some first =>
      obtain ⟨rfl, hrest⟩ := List.cons.inj h
      exact ⟨_, rfl, hwrites, hrest, rfl⟩
  | running =>
    obtain ⟨hwrites', hhandles⟩ := Walk.pull_array_handles hwrites scene
    cases hpull : (walk.pull array scene).outcome with
    | item i =>
      obtain ⟨payload, rfl⟩ := hhandles i hpull
      obtain ⟨hcontents, hfaults⟩ := Walk.reads_item hpull
      obtain ⟨rfl, hrest⟩ := List.cons.inj (hcontents.symm.trans h)
      refine ⟨⟨file, (walk.pull array scene).walk, (walk.pull array scene).scene, .running⟩, ?_,
        hwrites', hrest, hfaults.symm⟩
      simp only [next, hpull]
      rfl
    | stopped => cases (Walk.reads_stopped hpull).1.symm.trans h
    | failed fault => cases (Walk.reads_failed hpull).1.symm.trans h
  | closed => cases h

theorem next_nothing_owed (hwrites : stream.walk.writes = false) (h : stream.owed = [])
    (s : Service) :
    ∃ outcome stream' s', stream.next s = (outcome, stream', s') ∧
      outcome = (match stream.owedFaults.head? with
        | some fault => .failed fault
        | none => .stopped) ∧
      s'.meters = s.meters := by
  obtain ⟨file, walk, scene, progress⟩ := stream
  cases progress with
  | fresh first =>
    cases first with
    | none => exact ⟨_, _, _, rfl, rfl, rfl⟩
    | some first => cases h
  | running =>
    cases hpull : (walk.pull array scene).outcome with
    | item i => cases (Walk.reads_item hpull).1.symm.trans h
    | stopped =>
      simp only [next, hpull, owedFaults, (Walk.reads_stopped hpull).2]
      exact ⟨_, _, _, rfl, rfl, rfl⟩
    | failed fault =>
      simp only [next, hpull, owedFaults, (Walk.reads_failed hpull).2]
      exact ⟨_, _, _, rfl, rfl, rfl⟩
  | closed => exact ⟨_, _, _, rfl, rfl, rfl⟩

/-- Taking lines sends the first documents owed, and counts them. The fault follows the last one. -/
theorem take_owed (hwrites : stream.walk.writes = false) (s : Service) (n : Nat) :
    (stream.take s n).lines = (stream.owed.take n).map line ∧
      (stream.take s n).fault =
        (if stream.owed.length < n then stream.owedFaults.head? else none) ∧
      (stream.take s n).service.meters.documents =
        s.meters.documents + (stream.take s n).lines.length := by
  induction n generalizing stream s with
  | zero => exact ⟨rfl, rfl, rfl⟩
  | succ n ih =>
    rw [take]
    cases howed : stream.owed with
    | nil =>
      obtain ⟨outcome, stream', s', hnext, houtcome, hmeters⟩ :=
        next_nothing_owed hwrites howed s
      rw [hnext, houtcome]
      cases hfaults : stream.owedFaults.head? with
      | none => simp [hmeters]
      | some fault => simp [hmeters]
    | cons p rest =>
      obtain ⟨stream', hnext, hwrites', rfl, hfaults⟩ := next_owed hwrites howed s
      obtain ⟨hlines, hfault, hdocuments⟩ := ih hwrites' (s.countDocuments 1)
      rw [hnext]
      refine ⟨?_, ?_, ?_⟩
      · simp [hlines]
      · simp [hfault, hfaults]
      · have hcount : (s.countDocuments 1).meters.documents = s.meters.documents + 1 := rfl
        rw [hdocuments, hcount, List.length_cons, Nat.add_assoc, Nat.add_comm 1]

theorem length_owed_lt_bound (stream : LineStream) : stream.owed.length < stream.bound := by
  have hle := Walk.length_contents_pullAll_le stream.walk stream.scene
  unfold owed bound
  split
  · rw [List.length_cons]
    omega
  · omega
  · exact Nat.succ_pos _
  · exact Nat.succ_pos _

@[simp] theorem meters_close (stream : LineStream) (s : Service) :
    (stream.close s).2.meters = s.meters := by
  unfold close
  split <;> rfl

@[simp] theorem meters_cleanUp (stream : LineStream) (s : Service) :
    (stream.cleanUp s).meters = s.meters := rfl

/-- The response sends the lines of `documents`, all or the first few, counts them, and fails behind
the last one if there is a fault. -/
def HandsOut (stream : LineStream) (documents : List Payload) (fault? : Option Fault) : Prop :=
  ∀ (s : Service) (limit : Option Nat),
    let delivery := stream.deliver s limit
    delivery.lines = (documents.take (limit.getD documents.length)).map line ∧
      delivery.fault = (if limit.all (documents.length < ·) then fault? else none) ∧
      delivery.service.meters.documents = s.meters.documents + delivery.lines.length

theorem handsOut_owed (hwrites : stream.walk.writes = false) :
    stream.HandsOut stream.owed stream.owedFaults.head? := by
  intro s limit
  obtain ⟨hlines, hfault, hdocuments⟩ := take_owed hwrites s (limit.getD stream.bound)
  have hbound := stream.length_owed_lt_bound
  simp only [deliver, meters_cleanUp, meters_close]
  refine ⟨hlines.trans ?_, hfault.trans ?_, hdocuments⟩
  · cases limit with
    | none => simp [List.take_of_length_le (Nat.le_of_lt hbound)]
    | some n => rfl
  · cases limit with
    | none => simp [hbound]
    | some n => simp

end LineStream

/-! ## Answers -/

namespace Service

variable {settings : ServiceSettings} {upload : Upload} {bytes : List UInt8} {fault : Fault}

/-- A first document is pulled before the answer, and is the first line. -/
theorem splitStream_arrives (h : Arrives settings upload bytes) (s : Service) :
    let alone := (Reads.ofBytes bytes).alone
    let answered := splitStream settings upload s
    answered.2.meters.documents = s.meters.documents ∧
      ((∃ stream, answered.1 = .ok stream ∧ stream.HandsOut alone.contents alone.faults.head? ∧
          (alone.contents ≠ [] ∨ alone.faults = [])) ∨
        ∃ fault, answered.1 = .error (.ofFault fault) ∧ alone.contents = [] ∧
          alone.faults = [fault]) := by
  have hspool := spool_arrives h s.countRequest
  obtain ⟨hwrites, hhandles⟩ := Walk.pull_array_handles (w := {}) rfl
    ⟨.ofFeed (.ofReads (.ofBytes bytes)), 0, 0⟩
  cases hpull : (Walk.pull array {} ⟨.ofFeed (.ofReads (.ofBytes bytes)), 0, 0⟩).outcome with
  | item i =>
    obtain ⟨payload, rfl⟩ := hhandles i hpull
    obtain ⟨hcontents, hfaults⟩ := Walk.reads_item hpull
    simp only [splitStream, hspool, openWalk_eq h.engine, hpull, Reads.alone, hcontents, hfaults]
    exact ⟨rfl, .inl ⟨_, rfl, LineStream.handsOut_owed hwrites, .inl (List.cons_ne_nil _ _)⟩⟩
  | stopped =>
    obtain ⟨hcontents, hfaults⟩ := Walk.reads_stopped hpull
    simp only [splitStream, hspool, openWalk_eq h.engine, hpull, Reads.alone, hcontents, hfaults]
    exact ⟨rfl, .inl ⟨_, rfl, LineStream.handsOut_owed hwrites, .inr trivial⟩⟩
  | failed fault =>
    obtain ⟨hcontents, hfaults⟩ := Walk.reads_failed hpull
    simp only [splitStream, hspool, openWalk_eq h.engine, hpull, Reads.alone, hcontents, hfaults]
    exact ⟨rfl, .inr ⟨fault, rfl, trivial, rfl⟩⟩

theorem splitStream_accepts (h : Arrives settings upload bytes) (s : Service)
    (hlines : (Reads.ofBytes bytes).alone.contents ≠ [] ∨
      (Reads.ofBytes bytes).alone.faults = []) :
    ∃ stream, (splitStream settings upload s).1 = .ok stream ∧
      stream.HandsOut (Reads.ofBytes bytes).alone.contents
        (Reads.ofBytes bytes).alone.faults.head? := by
  obtain ⟨-, ⟨stream, hstream, hhandsOut, -⟩ | ⟨fault, -, hnone, hfault⟩⟩ :=
    splitStream_arrives h s
  · exact ⟨stream, hstream, hhandsOut⟩
  · rcases hlines with hsome | hnoFault
    · exact absurd hnone hsome
    · rw [hnoFault] at hfault
      cases hfault

theorem splitStream_refuses (h : Arrives settings upload bytes) (s : Service)
    (hnone : (Reads.ofBytes bytes).alone.contents = [])
    (hfault : (Reads.ofBytes bytes).alone.faults = [fault]) :
    (splitStream settings upload s).1 = .error (.ofFault fault) := by
  obtain ⟨-, ⟨stream, -, -, hsome | hnoFault⟩ | ⟨fault', hrefused, -, hfault'⟩⟩ :=
    splitStream_arrives h s
  · exact absurd hnone hsome
  · rw [hnoFault] at hfault
    cases hfault
  · obtain rfl := List.singleton_inj.mp (hfault'.symm.trans hfault)
    exact hrefused

end Service

end JsonCleave
