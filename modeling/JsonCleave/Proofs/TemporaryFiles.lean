import JsonCleave.Proofs.Surfaces
/-!
# Temporary files

The copy of an upload is made by the spooling, kept by the response, and removed by its lines or by
the clean-up. However a request ends, the temporary files are those from before and one request was
counted.
-/

namespace JsonCleave

open Policy (array)

theorem HttpError.ofFault_not_malformed {fault : Fault} (h : fault.isMalformed = false) :
    ofFault fault = ⟨500, fault.message.getD ""⟩ := by
  rw [ofFault, Fault.status, if_neg (by simp [h])]

namespace Service

variable {s : Service} {bytes : List UInt8}

/-! ## Files by number -/

/-- The next file number is not in use. -/
def IsNumbered (s : Service) : Prop := ∀ entry ∈ s.temporary, entry.1 < s.nextFile

theorem IsNumbered.filter_fresh (h : s.IsNumbered) :
    (s.temporary.filter fun entry => entry.1 != s.nextFile) = s.temporary := by
  rw [List.filter_eq_self]
  intro entry hentry
  have hlt := h entry hentry
  simp only [bne_iff_ne, ne_eq]
  omega

theorem IsNumbered.temporary_copied (h : s.IsNumbered) (bytes : List UInt8) :
    (s.copied bytes).temporary = (s.nextFile, bytes) :: s.temporary := by
  have hkept : (s.temporary.map fun entry =>
      if entry.1 = s.nextFile then (s.nextFile, bytes) else entry) = s.temporary := by
    rw [List.map_congr_left (g := id), List.map_id]
    intro entry hentry
    have hlt := h entry hentry
    rw [if_neg (by omega)]
    rfl
  simp only [copied, makeFile, writeFile, List.map_cons, ↓reduceIte, hkept]

theorem IsNumbered.copied (h : s.IsNumbered) (bytes : List UInt8) :
    (s.copied bytes).IsNumbered := by
  intro entry hentry
  rw [h.temporary_copied] at hentry
  show entry.1 < s.nextFile + 1
  rcases List.mem_cons.mp hentry with rfl | hold
  · exact Nat.lt_succ_self _
  · exact Nat.lt_succ_of_lt (h entry hold)

theorem IsNumbered.unlink (h : s.IsNumbered) (file : Nat) : (s.unlink file).IsNumbered :=
  fun entry hentry => h entry (List.mem_filter.mp hentry).1

theorem IsNumbered.temporary_unlink_copied (h : s.IsNumbered) (bytes : List UInt8) :
    ((s.copied bytes).unlink s.nextFile).temporary = s.temporary := by
  rw [Service.unlink, h.temporary_copied, List.filter_cons_of_neg (by simp)]
  exact h.filter_fresh

/-! ## Copying -/

variable {settings : ServiceSettings} {upload : Upload}

theorem IsNumbered.temporary_unlink_makeFile (h : s.IsNumbered) :
    (s.makeFile.2.unlink s.nextFile).temporary = s.temporary := by
  simp only [makeFile, Service.unlink]
  rw [List.filter_cons_of_neg (by simp)]
  exact h.filter_fresh

theorem isMalformed_copyFault? {pieces : List (List UInt8)} {failure : Option String}
    {fault : Fault} (h : copyFault? settings pieces failure = some fault) :
    fault.isMalformed = false := by
  have hread : ∀ {failure : Option String},
      (failure.map fun message => Fault.input (.unreadable message)) = some fault →
        fault.isMalformed = false := by
    intro failure hfailure
    obtain ⟨message, -, rfl⟩ := Option.map_eq_some_iff.mp hfailure
    rfl
  unfold copyFault? at h
  split at h
  · split at h
    · obtain rfl := Option.some.inj h
      rfl
    · exact hread h
  · exact hread h

theorem isMalformed_chunkSizeOf {setting : Option String} {fault : Fault}
    (h : chunkSizeOf setting = .error fault) : fault.isMalformed = false := by
  unfold chunkSizeOf at h
  split at h
  · cases h
  · split at h <;> cases h <;> rfl

theorem spool_cases (settings : ServiceSettings) (upload : Upload) (h : s.IsNumbered) :
    (∃ fault s', spool settings upload s = (.error fault, s') ∧ fault.isMalformed = false ∧
        s'.temporary = s.temporary ∧ s'.meters = s.meters ∧ s'.IsNumbered) ∨
      ∃ bytes, spool settings upload s = (.ok (s.nextFile, bytes), s.copied bytes) := by
  have hgone : ∀ fault : Fault, fault.isMalformed = false →
      ∃ fault' s', (Except.error fault, s.makeFile.2.unlink s.nextFile) =
          ((.error fault', s') : Except Fault (Nat × List UInt8) × Service) ∧
        fault'.isMalformed = false ∧ s'.temporary = s.temporary ∧ s'.meters = s.meters ∧
        s'.IsNumbered := by
    intro fault hfault
    refine ⟨fault, _, rfl, hfault, h.temporary_unlink_makeFile, rfl, fun entry hentry => ?_⟩
    rw [h.temporary_unlink_makeFile] at hentry
    exact Nat.lt_succ_of_lt (h entry hentry)
  unfold spool
  cases hsize : chunkSizeOf settings.chunkSize with
  | error fault => exact .inl ⟨fault, s, rfl, isMalformed_chunkSizeOf hsize, rfl, rfl, h⟩
  | ok size =>
    dsimp only
    cases hrefusal : settings.sizeRefusal? upload.content size with
    | some refusal => exact .inl (hgone refusal.fault (by cases refusal <;> rfl))
    | none =>
      cases hcopy : copyFault? settings (upload.content.readAll size).1
          (upload.content.readAll size).2 with
      | some fault => exact .inl (hgone fault (isMalformed_copyFault? hcopy))
      | none => exact .inr ⟨_, rfl⟩

/-! ## Refusals -/

/-- The request fails because the upload cannot be copied (500), or because the split of its copy
fails (400 if that is malformed). -/
def Refuses (settings : ServiceSettings) (upload : Upload) (s : Service) (e : HttpError) : Prop :=
  (∃ fault, (spool settings upload s).1 = .error fault ∧ fault.isMalformed = false ∧
      e = ⟨500, fault.message.getD ""⟩) ∨
    ∃ file bytes fault, (spool settings upload s).1 = .ok (file, bytes) ∧
      splitAddresses settings bytes = .error fault ∧
      (Engine.choose none settings.backend = .ok .exact →
        (Reads.ofBytes bytes).alone.outcome = some (.error fault) ∧
          ((Reads.ofBytes bytes).IsPrintable → fault.isMalformed = true)) ∧
      e = ⟨if fault.isMalformed then 400 else 500, fault.message.getD ""⟩

theorem isMalformed_alone {reads : Reads} {fault : Fault}
    (h : reads.alone.outcome = some (.error fault)) (hprint : reads.IsPrintable) :
    fault.isMalformed = true := by
  rcases reads.alone_ends with ⟨-, hend⟩ | ⟨fault', -, hend, hkind⟩
  · rw [hend] at h
    cases h
  · obtain ⟨stage, origin, rfl⟩ := hkind hprint
    obtain rfl : Fault.interrupted stage origin = fault := by simpa using hend.symm.trans h
    rfl

theorem alone_of_splitAddresses (hengine : Engine.choose none settings.backend = .ok .exact)
    {fault : Fault} (h : splitAddresses settings bytes = .error fault) :
    (Reads.ofBytes bytes).alone.outcome = some (.error fault) := by
  rw [splitAddresses_eq hengine] at h
  rcases (Reads.ofBytes bytes).alone_ends with ⟨-, hend⟩ | ⟨fault', -, hend, -⟩
  · simp [hend] at h
  · simpa [hend] using h

theorem splitAddresses_of_failed {scene : Scene Nat} {fault : Fault}
    (hopen : openWalk settings bytes = .ok scene)
    (hpull : (Walk.pull array {} scene).outcome = .failed fault) :
    splitAddresses settings bytes = .error fault := by
  have hend : (Walk.pullAll array {} scene).outcome = some (.error fault) := by
    rw [Walk.pullAll_failed hpull]
  obtain ⟨-, hfaults⟩ := Policy.pullAll_array_congr {} scene true scene.count
  have hsame := (Walk.outcome_pullAll_congr hfaults).trans hend
  simp only [splitAddresses, hopen, Except.bind]
  rw [hsame]

theorem refuses_uncopied {e : HttpError} {fault : Fault} {s' : Service}
    (hspool : spool settings upload s = (.error fault, s')) (hfault : fault.isMalformed = false)
    (he : e = .ofFault fault) : Refuses settings upload s e :=
  .inl ⟨fault, by rw [hspool], hfault, he.trans (HttpError.ofFault_not_malformed hfault)⟩

theorem refuses_split {e : HttpError} {fault : Fault} {s' : Service} {file : Nat}
    (hspool : spool settings upload s = (.ok (file, bytes), s'))
    (hsplit : splitAddresses settings bytes = .error fault) (he : e = .ofFault fault) :
    Refuses settings upload s e :=
  .inr ⟨file, bytes, fault, by rw [hspool], hsplit,
    fun hengine => ⟨alone_of_splitAddresses hengine hsplit,
      isMalformed_alone (alone_of_splitAddresses hengine hsplit)⟩, he⟩

theorem splitFile_leaves (settings : ServiceSettings) (upload : Upload) (h : s.IsNumbered) :
    let answered := splitFile settings upload s
    answered.2.temporary = s.temporary ∧ answered.2.IsNumbered ∧
      answered.2.meters.requests = s.meters.requests + 1 ∧
      ∀ e, answered.1 = .error e → Refuses settings upload s.countRequest e := by
  have hcounted : s.countRequest.IsNumbered := h
  rcases spool_cases settings upload hcounted with
    ⟨fault, s', hspool, hfault, hfiles, hmeters, hnumbered⟩ | ⟨bytes, hspool⟩
  · simp only [splitFile, hspool]
    exact ⟨hfiles, hnumbered, congrArg Meters.requests hmeters, fun e he =>
      refuses_uncopied hspool hfault (Except.error.inj he).symm⟩
  · have hfiles := hcounted.temporary_unlink_copied bytes
    have hnumbered := (hcounted.copied bytes).unlink s.countRequest.nextFile
    simp only [splitFile, hspool]
    cases hsplit : splitAddresses settings bytes with
    | ok listed => exact ⟨hfiles, hnumbered, rfl, fun e he => (by cases he)⟩
    | error fault =>
      exact ⟨hfiles, hnumbered, rfl, fun e he =>
        refuses_split hspool hsplit (Except.error.inj he).symm⟩

theorem splitStream_leaves (settings : ServiceSettings) (upload : Upload) (h : s.IsNumbered) :
    let answered := splitStream settings upload s
    answered.2.IsNumbered ∧ answered.2.meters.requests = s.meters.requests + 1 ∧
      (∀ e, answered.1 = .error e → answered.2.temporary = s.temporary ∧
        Refuses settings upload s.countRequest e) ∧
      ∀ stream, answered.1 = .ok stream → ∃ bytes first,
        answered.2.temporary = (s.nextFile, bytes) :: s.temporary ∧
        stream.file = s.nextFile ∧ stream.progress = .fresh first ∧
        stream.walk.writes = false := by
  have hcounted : s.countRequest.IsNumbered := h
  rcases spool_cases settings upload hcounted with
    ⟨fault, s', hspool, hfault, hfiles, hmeters, hnumbered⟩ | ⟨bytes, hspool⟩
  · simp only [splitStream, hspool]
    exact ⟨hnumbered, congrArg Meters.requests hmeters, fun e he => ⟨hfiles,
      refuses_uncopied hspool hfault (Except.error.inj he).symm⟩,
      fun stream hstream => by simp at hstream⟩
  · have hgone := hcounted.temporary_unlink_copied bytes
    have hkept := hcounted.temporary_copied bytes
    have hcopied := hcounted.copied bytes
    simp only [splitStream, hspool]
    cases hopen : openWalk settings bytes with
    | error fault =>
      have hsplit : splitAddresses settings bytes = .error fault := by
        rw [splitAddresses, hopen]
        rfl
      exact ⟨hcopied.unlink _, rfl, fun e he => ⟨hgone,
        refuses_split hspool hsplit (Except.error.inj he).symm⟩,
        fun stream hstream => by simp at hstream⟩
    | ok scene =>
      obtain ⟨hwrites, hhandles⟩ := Walk.pull_array_handles (w := {}) rfl scene
      have hsplit {fault : Fault}
          (hfailed : (Walk.pull array {} scene).outcome = .failed fault) :
          splitAddresses settings bytes = .error fault := splitAddresses_of_failed hopen hfailed
      dsimp only
      generalize Walk.pull array {} scene = pulled at hwrites hhandles hsplit ⊢
      cases houtcome : pulled.outcome with
      | item i =>
        obtain ⟨payload, rfl⟩ := hhandles i houtcome
        refine ⟨hcopied, rfl, fun e he => (by cases he), fun stream hstream => ?_⟩
        obtain rfl := Except.ok.inj hstream
        exact ⟨bytes, some payload, hkept, rfl, rfl, hwrites⟩
      | stopped =>
        refine ⟨hcopied, rfl, fun e he => (by cases he), fun stream hstream => ?_⟩
        obtain rfl := Except.ok.inj hstream
        exact ⟨bytes, none, hkept, rfl, rfl, hwrites⟩
      | failed fault =>
        exact ⟨hcopied.unlink _, rfl, fun e he => ⟨hgone,
          refuses_split hspool (hsplit houtcome) (Except.error.inj he).symm⟩,
          fun stream hstream => by simp at hstream⟩

end Service

/-! ## The life of a stream -/

namespace LineStream

inductive Use where
  | next
  | close
  | cleanUp
deriving DecidableEq, Repr

/-- Events in the life of a line response. -/
inductive Happening where
  | line (text : String)
  | ended
  | broken (fault : Fault)
  | closed
  | cleaned
deriving Repr

namespace Happening

def isLine : Happening → Bool
  | .line _ => true
  | _ => false

def isClosed : Happening → Bool
  | .closed => true
  | _ => false

/-- Whether the temporary file has been removed: the lines have ended or failed, were closed after
the first, or the clean-up has run. -/
def letGo : List Happening → Bool
  | [] => false
  | .line _ :: earlier => letGo earlier
  | .ended :: earlier => letGo earlier || !earlier.any isClosed
  | .broken _ :: _ => true
  | .closed :: earlier => letGo earlier || earlier.any isLine
  | .cleaned :: _ => true

end Happening

structure Life where
  stream : LineStream
  service : Service
  happened : List Happening := []

namespace Life

open Happening

def afterUse (life : Life) : Use → Life
  | .next =>
    let (outcome, stream, service) := life.stream.next life.service
    let happening :=
      match outcome with
      | .item text => .line text
      | .stopped => .ended
      | .failed fault => .broken fault
    ⟨stream, service, happening :: life.happened⟩
  | .close =>
    let (stream, service) := life.stream.close life.service
    ⟨stream, service, .closed :: life.happened⟩
  | .cleanUp => ⟨life.stream, life.stream.cleanUp life.service, .cleaned :: life.happened⟩

def afterUses (life : Life) (uses : List Use) : Life := uses.foldl afterUse life

def Agrees (happened : List Happening) : Progress → Prop
  | .fresh _ => happened.any isLine = false ∧ happened.any isClosed = false
  | .running => happened.any isLine = true ∧ happened.any isClosed = false
  | .closed => letGo happened = true ∨
      happened.any isLine = false ∧ happened.any isClosed = true

/-- The temporary files are those of `s`, and the one of the response until it is removed. -/
structure Keeps (s : Service) (bytes : List UInt8) (life : Life) : Prop where
  file : life.stream.file = s.nextFile
  agrees : Agrees life.happened life.stream.progress
  files : life.service.temporary =
    if letGo life.happened then s.temporary else (s.nextFile, bytes) :: s.temporary
  requests : life.service.meters.requests = s.meters.requests

variable {s : Service} {bytes : List UInt8} {life : Life}

theorem Keeps.temporary_unlink (hs : s.IsNumbered) (h : life.Keeps s bytes) :
    (life.service.unlink life.stream.file).temporary = s.temporary := by
  rw [Service.unlink, h.files, h.file]
  dsimp only
  split
  · exact hs.filter_fresh
  · rw [List.filter_cons_of_neg (by simp)]
    exact hs.filter_fresh

theorem Keeps.ofLetGo (hs : s.IsNumbered) (h : life.Keeps s bytes) (happened : List Happening)
    (hgone : letGo happened = true) (walk : Walk) (scene : Scene Nat) :
    Keeps s bytes ⟨⟨life.stream.file, walk, scene, .closed⟩,
      life.service.unlink life.stream.file, happened⟩ where
  file := h.file
  agrees := .inl hgone
  files := by rw [if_pos hgone, h.temporary_unlink hs]
  requests := h.requests

theorem Keeps.afterNext (hs : s.IsNumbered) (h : life.Keeps s bytes) :
    (life.afterUse .next).Keeps s bytes := by
  have hletGo {happened : List Happening} := h.ofLetGo hs happened
  obtain ⟨⟨file, walk, scene, progress⟩, service, happened⟩ := life
  obtain ⟨hfile, hagrees, hfiles, hrequests⟩ := h
  cases progress with
  | fresh first =>
    obtain ⟨hnoLine, hnotClosed⟩ := hagrees
    cases first with
    | some p => exact ⟨hfile, ⟨rfl, hnotClosed⟩, hfiles, hrequests⟩
    | none => exact hletGo (by simp [letGo, hnotClosed]) walk scene
  | running =>
    obtain ⟨-, hnotClosed⟩ := hagrees
    have hended : letGo (.ended :: happened) = true := by simp [letGo, hnotClosed]
    cases hpull : (walk.pull array scene).outcome with
    | item i =>
      cases i with
      | handle p =>
        simp only [afterUse, next, hpull]
        exact ⟨hfile, ⟨rfl, hnotClosed⟩, hfiles, hrequests⟩
      | request r =>
        simp only [afterUse, next, hpull]
        exact hletGo hended _ _
    | stopped =>
      simp only [afterUse, next, hpull]
      exact hletGo hended _ _
    | failed fault =>
      simp only [afterUse, next, hpull]
      exact hletGo rfl _ _
  | closed =>
    -- nothing happens any more, and a file that was not let go is still there
    refine ⟨hfile, ?_, ?_, hrequests⟩
    · exact hagrees.imp (fun hgone => by simp [afterUse, next, letGo, hgone]) id
    · have hsame : letGo (.ended :: happened) = letGo happened := by
        rcases hagrees with hgone | ⟨-, hclosed⟩
        · simp [letGo, hgone]
        · simp [letGo, hclosed]
      exact hfiles.trans (by rw [← hsame]; rfl)

theorem Keeps.afterClose (hs : s.IsNumbered) (h : life.Keeps s bytes) :
    (life.afterUse .close).Keeps s bytes := by
  have hletGo {happened : List Happening} := h.ofLetGo hs happened
  obtain ⟨⟨file, walk, scene, progress⟩, service, happened⟩ := life
  obtain ⟨hfile, hagrees, hfiles, hrequests⟩ := h
  -- without a line before, closing lets nothing go
  have hsame (hnoLine : happened.any isLine = false) :
      letGo (.closed :: happened) = letGo happened := by simp [letGo, hnoLine]
  cases progress with
  | fresh first =>
    refine ⟨hfile, .inr ⟨hagrees.1, rfl⟩, ?_, hrequests⟩
    exact hfiles.trans (by rw [← hsame hagrees.1]; rfl)
  | running => exact hletGo (by simp [letGo, hagrees.1]) walk scene
  | closed =>
    rcases hagrees with hgone | ⟨hnoLine, hclosed⟩
    · have hstill : letGo (.closed :: happened) = true := by simp [letGo, hgone]
      refine ⟨hfile, .inl hstill, ?_, hrequests⟩
      exact hfiles.trans (by rw [hgone, ← hstill]; rfl)
    · refine ⟨hfile, .inr ⟨hnoLine, rfl⟩, ?_, hrequests⟩
      exact hfiles.trans (by rw [← hsame hnoLine]; rfl)

theorem Keeps.afterCleanUp (hs : s.IsNumbered) (h : life.Keeps s bytes) :
    (life.afterUse .cleanUp).Keeps s bytes where
  file := h.file
  agrees := by
    have hagrees := h.agrees
    unfold Agrees at hagrees ⊢
    cases hprogress : life.stream.progress with
    | fresh first => simpa [afterUse, hprogress, isLine, isClosed] using hagrees
    | running => simpa [afterUse, hprogress, isLine, isClosed] using hagrees
    | closed => simp [afterUse, hprogress, letGo]
  files := (h.temporary_unlink hs).trans (if_pos rfl).symm
  requests := h.requests

theorem Keeps.afterUses (hs : s.IsNumbered) (h : life.Keeps s bytes) (uses : List Use) :
    (life.afterUses uses).Keeps s bytes := by
  induction uses generalizing life with
  | nil => exact h
  | cons u rest ih =>
    cases u with
    | next => exact ih (h.afterNext hs)
    | close => exact ih (h.afterClose hs)
    | cleanUp => exact ih (h.afterCleanUp hs)

/-! ### Lines to their end -/

theorem letGo_afterUse (h : letGo life.happened = true) (u : Use) :
    letGo (life.afterUse u).happened = true := by
  cases u with
  | next =>
    simp only [afterUse]
    split <;> simp [letGo, h]
  | close => simp [afterUse, letGo, h]
  | cleanUp => rfl

theorem letGo_afterUses (h : letGo life.happened = true) (uses : List Use) :
    letGo (life.afterUses uses).happened = true := by
  induction uses generalizing life with
  | nil => exact h
  | cons u rest ih => exact ih (letGo_afterUse h u)

theorem letGo_iterated (hwrites : life.stream.walk.writes = false)
    (hopen : life.happened.any isClosed = false) {n : Nat} (hn : life.stream.owed.length < n) :
    letGo (life.afterUses (List.replicate n .next)).happened = true := by
  induction n generalizing life with
  | zero => omega
  | succ n ih =>
    rw [List.replicate_succ]
    show letGo ((life.afterUse .next).afterUses _).happened = true
    cases howed : life.stream.owed with
    | nil =>
      obtain ⟨outcome, stream', s', hnext, houtcome, -⟩ :=
        next_nothing_owed hwrites howed life.service
      refine letGo_afterUses ?_ _
      simp only [afterUse, hnext, houtcome]
      cases life.stream.owedFaults.head? with
      | none => simp [letGo, hopen]
      | some fault => rfl
    | cons p rest =>
      obtain ⟨stream', hnext, hwrites', hrest, -⟩ := next_owed hwrites howed life.service
      have hafter : life.afterUse .next =
          ⟨stream', life.service.countDocuments 1, .line (line p) :: life.happened⟩ := by
        simp only [afterUse, hnext]
      rw [howed, List.length_cons] at hn
      rw [hafter]
      exact ih hwrites' hopen (by rw [hrest]; omega)

theorem exists_uses_take (life : Life) (n : Nat) :
    ∃ uses, (life.afterUses uses).stream = (life.stream.take life.service n).stream ∧
      (life.afterUses uses).service = (life.stream.take life.service n).service := by
  induction n generalizing life with
  | zero => exact ⟨[], rfl, rfl⟩
  | succ n ih =>
    rw [take]
    cases hnext : life.stream.next life.service with
    | mk outcome later =>
      obtain ⟨stream', s'⟩ := later
      cases outcome with
      | item text =>
        obtain ⟨uses, hstream, hservice⟩ := ih ⟨stream', s', .line text :: life.happened⟩
        refine ⟨.next :: uses, ?_⟩
        simp only [afterUses, List.foldl_cons, afterUse, hnext]
        exact ⟨hstream, hservice⟩
      | stopped => exact ⟨[.next], by simp [afterUses, afterUse, hnext]⟩
      | failed fault => exact ⟨[.next], by simp [afterUses, afterUse, hnext]⟩

theorem Keeps.deliver (hs : s.IsNumbered) (h : life.Keeps s bytes) (limit : Option Nat) :
    (life.stream.deliver life.service limit).service.temporary = s.temporary ∧
      (life.stream.deliver life.service limit).service.meters.requests = s.meters.requests := by
  obtain ⟨uses, hstream, hservice⟩ :=
    exists_uses_take life (limit.getD life.stream.bound)
  have hsent := ((h.afterUses hs uses).afterClose hs).afterCleanUp hs
  have hsame : (life.stream.deliver life.service limit).service =
      (((life.afterUses uses).afterUse .close).afterUse .cleanUp).service := by
    simp only [LineStream.deliver, afterUse, hstream, hservice]
  rw [hsame]
  exact ⟨hsent.files.trans (if_pos rfl), hsent.requests⟩

end Life

end LineStream

/-! ## All requests -/

namespace Service

open LineStream (Life)

variable {s : Service}

/-- For every upload, setting and service state: after a listing, and after a refused line response,
the temporary files are those from before, and one request was counted. After an accepted line
response there is one more file until the response is read to its end or its fault, closed behind
its first line, or cleaned up, and then never again. A refusal has status 400 exactly for malformed
input. -/
theorem requests_leave_no_file (settings : ServiceSettings) (upload : Upload)
    (h : s.IsNumbered) :
    let listing := splitFile settings upload s
    let answer := splitStream settings upload s
    (listing.2.temporary = s.temporary ∧ listing.2.IsNumbered ∧
        listing.2.meters.requests = s.meters.requests + 1 ∧
        ∀ e, listing.1 = .error e → Refuses settings upload s.countRequest e) ∧
      (answer.2.IsNumbered ∧ answer.2.meters.requests = s.meters.requests + 1 ∧
        ∀ e, answer.1 = .error e → answer.2.temporary = s.temporary ∧
          Refuses settings upload s.countRequest e) ∧
      ∀ stream, answer.1 = .ok stream → ∃ bytes,
        (∀ uses,
          let life := Life.afterUses ⟨stream, answer.2, []⟩ uses
          life.service.temporary =
              (if LineStream.Happening.letGo life.happened then s.temporary
                else (s.nextFile, bytes) :: s.temporary) ∧
            life.service.meters.requests = s.meters.requests + 1) ∧
        LineStream.Happening.letGo
          (Life.afterUses ⟨stream, answer.2, []⟩ (.replicate stream.bound .next)).happened ∧
        ∀ limit, (stream.deliver answer.2 limit).service.temporary = s.temporary ∧
          (stream.deliver answer.2 limit).service.meters.requests = s.meters.requests + 1 := by
  intro listing answer
  obtain ⟨hnumbered, hrequests, hrefused, hanswered⟩ := splitStream_leaves settings upload h
  refine ⟨splitFile_leaves settings upload h, ⟨hnumbered, hrequests, hrefused⟩,
    fun stream hstream => ?_⟩
  obtain ⟨bytes, first, hfiles, hfile, hprogress, hwrites⟩ := hanswered stream hstream
  have hcounted : s.countRequest.IsNumbered := h
  have hlife : Life.Keeps s.countRequest bytes ⟨stream, answer.2, []⟩ := {
    file := hfile
    agrees := by simp [hprogress, Life.Agrees]
    files := hfiles
    requests := hrequests }
  refine ⟨bytes, fun uses => ?_, ?_, fun limit => hlife.deliver hcounted limit⟩
  · have hkeeps := hlife.afterUses hcounted uses
    exact ⟨hkeeps.files, hkeeps.requests⟩
  · exact Life.letGo_iterated hwrites rfl stream.length_owed_lt_bound

theorem requests_leave_no_file_of_cutOffArray :
    let s : Service := { temporary := [(0, [])], nextFile := 1 }
    let upload : Upload := ⟨some "f.json", .whole cutOffArray⟩
    let answer := splitStream inThrees upload s
    s.IsNumbered ∧ (splitFile inThrees upload s).2.temporary = s.temporary ∧
      ∃ stream, answer.1 = .ok stream ∧
        (Life.afterUses ⟨stream, answer.2, []⟩ [.next, .close]).service.temporary =
          s.temporary ∧
        (Life.afterUses ⟨stream, answer.2, []⟩ [.close, .next]).service.temporary ≠
          s.temporary ∧
        (Life.afterUses ⟨stream, answer.2, []⟩ [.close, .next, .cleanUp]).service.temporary =
          s.temporary := by
  intro s upload answer
  have hs : s.IsNumbered := by simp [s, IsNumbered]
  obtain ⟨⟨hlisting, -⟩, -, hstreams⟩ := requests_leave_no_file inThrees upload hs
  have harrives : Arrives inThrees upload cutOffArray :=
    ⟨3, ⟨by cbv, by decide, rfl, rfl, rfl⟩, rfl⟩
  obtain ⟨stream, hstream, -⟩ :=
    splitStream_accepts harrives s (.inl (by simp [alone_cutOffArray.1]))
  obtain ⟨-, -, -, hanswered⟩ := splitStream_leaves inThrees upload hs
  obtain ⟨-, first, -, -, hprogress, -⟩ := hanswered stream hstream
  obtain ⟨bytes, huses, -⟩ := hstreams stream hstream
  refine ⟨hs, hlisting, stream, hstream, ?_, ?_, ?_⟩
  · rw [(huses [.next, .close]).1, if_pos]
    cases first <;> simp [Life.afterUses, Life.afterUse, LineStream.next, hprogress,
      LineStream.emit, LineStream.finish, LineStream.Happening.letGo, LineStream.Happening.isLine]
  · rw [(huses [.close, .next]).1, if_neg]
    · simp
    · simp [Life.afterUses, Life.afterUse, LineStream.next, LineStream.close, hprogress,
        LineStream.Happening.letGo, LineStream.Happening.isClosed]
  · rw [(huses [.close, .next, .cleanUp]).1, if_pos]
    rfl

end Service

end JsonCleave
