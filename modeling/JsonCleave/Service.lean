import JsonCleave.Stream
import JsonCleave.Walk
import JsonCleave.Text.Numeral
/-!
# The upload service

An upload is copied into a temporary file and split from there. It is answered with the addresses of
its documents, or with its documents as lines. The temporary files and the meters are the state of
the service; the lines are handed out one by one, and may be given up at any point.
-/

namespace JsonCleave

structure Meters where
  requests : Nat := 0
  documents : Nat := 0
  durations : Nat := 0
deriving DecidableEq, Repr

/-- State of the service: temporary files by number, the next number, and the counters. -/
structure Service where
  temporary : List (Nat × List UInt8) := []
  nextFile : Nat := 0
  meters : Meters := {}
deriving DecidableEq, Repr

/-- Content of an upload: bytes, of which a read takes as many as requested, or fixed pieces, one
for each read. -/
inductive Content where
  | whole (bytes : List UInt8)
  | pieces (reads : Reads)
deriving DecidableEq, Repr

structure Upload where
  filename : Option String
  content : Content
deriving DecidableEq, Repr

inductive SizeRefusal where
  | overflow
  | memory
deriving DecidableEq, Repr

def SizeRefusal.fault : SizeRefusal → Fault
  | .overflow => .sizeTooLarge
  | .memory => .raised "MemoryError" ""

/-- Sizes that an upload in memory refuses to read: those over 64 bits. Pieces take any size. -/
def Content.sizeRefusal? : Content → Int → Option SizeRefusal
  | .whole _, size =>
    if -9223372036854775808 ≤ size ∧ size ≤ 9223372036854775807 then none else some .overflow
  | .pieces _, _ => none

/-- Environment of a request: the chunk size setting, the write failure and the number of writes
before it, the engine, and the sizes that the file of an upload refuses to read. -/
structure ServiceSettings where
  chunkSize : Option String := none
  writeFailure : Option String := none
  intactWrites : Nat := 0
  backend : Option String := none
  sizeRefusal? : Content → Int → Option SizeRefusal := Content.sizeRefusal?

def inPieces (size : Nat) (bytes : List UInt8) : List (List UInt8) :=
  if bytes = [] ∨ size = 0 then []
  else bytes.take size :: inPieces size (bytes.drop size)
termination_by bytes.length
decreasing_by
  rename_i h
  simp only [not_or] at h
  have := List.length_pos_iff.2 h.1
  simp only [List.length_drop]
  omega

namespace Content

/-- The chunks that reads of a size return, up to the first empty one, and the failure of the next
read. A negative size reads everything and size zero nothing. -/
def readAll (size : Int) : Content → List (List UInt8) × Option String
  | .whole bytes =>
    if size < 0 then (if bytes.isEmpty then [] else [bytes], none)
    else (inPieces size.toNat bytes, none)
  | .pieces reads =>
    if size = 0 then ([], none)
    else (reads.leading, reads.failure?)

end Content

def defaultChunkSize : Int := 8 * 1024 * 1024

def chunkSizeOf (setting : Option String) : Except Fault Int :=
  match setting with
  | none => .ok defaultChunkSize
  | some text =>
    match readInteger text with
    | .ok n => .ok n
    | .error .malformed => .error (.notAnInteger text)
    | .error (.tooLong digits) => .error (.tooManyDigits ⟨digitLimit, some digits⟩)

def Fault.isMalformed : Fault → Bool
  | .interrupted _ _ | .unfinishedView | .unfinishedCopy => true
  | .raised kind _ => kind == "MalformedStreamError"
  | _ => false

/-- Status 400 for malformed input, 500 for any other fault. -/
def Fault.status (fault : Fault) : Nat := if fault.isMalformed then 400 else 500

structure HttpError where
  status : Nat
  detail : String
deriving DecidableEq, Repr

def HttpError.ofFault (fault : Fault) : HttpError :=
  ⟨fault.status, fault.message.getD ""⟩

structure Listing where
  filename : Option String
  bytes : Nat
  documents : Nat
  addresses : List Address
deriving DecidableEq, Repr

namespace Service

def countRequest (s : Service) : Service :=
  { s with meters := { s.meters with requests := s.meters.requests + 1 } }

def countDocuments (s : Service) (n : Nat) : Service :=
  { s with meters := { s.meters with documents := s.meters.documents + n } }

def countDuration (s : Service) : Service :=
  { s with meters := { s.meters with durations := s.meters.durations + 1 } }

def makeFile (s : Service) : Nat × Service :=
  (s.nextFile,
    { s with temporary := (s.nextFile, []) :: s.temporary, nextFile := s.nextFile + 1 })

def unlink (s : Service) (file : Nat) : Service :=
  { s with temporary := s.temporary.filter fun entry => entry.1 != file }

def writeFile (s : Service) (file : Nat) (bytes : List UInt8) : Service :=
  { s with
    temporary := s.temporary.map fun entry =>
      if entry.1 = file then (file, bytes) else entry }

/-- The fault of copying an upload: a failed write, or else the failed read behind the writes.
Closing the file writes what is buffered. -/
def copyFault? (settings : ServiceSettings) (pieces : List (List UInt8))
    (failure : Option String) : Option Fault :=
  match settings.writeFailure with
  | some message =>
    if pieces ≠ [] ∧ settings.intactWrites ≤ pieces.length then
      some (.input (.unreadable message))
    else failure.map fun message => .input (.unreadable message)
  | none => failure.map fun message => .input (.unreadable message)

/-- Copies an upload into a temporary file. A copy that fails removes the file. -/
def spool (settings : ServiceSettings) (upload : Upload) (s : Service) :
    Except Fault (Nat × List UInt8) × Service :=
  match chunkSizeOf settings.chunkSize with
  | .error fault => (.error fault, s)
  | .ok size =>
    let (file, s) := s.makeFile
    match settings.sizeRefusal? upload.content size with
    | some refusal => (.error refusal.fault, s.unlink file)
    | none =>
      let (pieces, failure) := upload.content.readAll size
      match copyFault? settings pieces failure with
      | some fault => (.error fault, s.unlink file)
      | none =>
        let bytes := pieces.flatten
        (.ok (file, bytes), s.writeFile file bytes)

def openWalk (settings : ServiceSettings) (bytes : List UInt8) : Except Fault (Scene Nat) :=
  (Cursor.ofStream none settings.backend (some (.ofBytes bytes))).map fun (cursor, _) =>
    ⟨cursor, 0, 0⟩

def splitAddresses (settings : ServiceSettings) (bytes : List UInt8) :
    Except Fault (List Address × Nat) :=
  (openWalk settings bytes).bind fun scene =>
    let harvest := Walk.pullAll Policy.array { writes := true } scene
    match harvest.outcome with
    | some (.error fault) => .error fault
    | _ =>
      .ok (harvest.items.filterMap fun
          | .request request => some request.address
          | .handle _ => none,
        harvest.scene.count)

def splitFile (settings : ServiceSettings) (upload : Upload) (s : Service) :
    Except HttpError Listing × Service :=
  match spool settings upload s.countRequest with
  | (.error fault, s) => (.error (.ofFault fault), s)
  | (.ok (file, bytes), s) =>
    let s := s.countDuration
    match splitAddresses settings bytes with
    | .error fault => (.error (.ofFault fault), s.unlink file)
    | .ok (addresses, documents) =>
      (.ok ⟨upload.filename, bytes.length, documents, addresses⟩,
        (s.countDocuments addresses.length).unlink file)

end Service

inductive Progress where
  /-- None has been asked for; the first document has been pulled already. -/
  | fresh (first : Option Payload)
  | running
  | closed
deriving DecidableEq, Repr

/-- State of a line response: the walk over the temporary file, and the file to be removed. -/
structure LineStream where
  file : Nat
  walk : Walk
  scene : Scene Nat
  progress : Progress

namespace LineStream

def mediaType : String := "application/x-ndjson"

def line (p : Payload) : String := p.content ++ "\n"

def emit (stream : LineStream) (s : Service) (p : Payload) :
    Outcome String × LineStream × Service :=
  (.item (line p), { stream with progress := .running }, s.countDocuments 1)

def finish (stream : LineStream) (s : Service) (outcome : Outcome String) :
    Outcome String × LineStream × Service :=
  (outcome, { stream with progress := .closed }, s.unlink stream.file)

/-- The next line. The end of the documents and any fault remove the file. -/
def next (stream : LineStream) (s : Service) : Outcome String × LineStream × Service :=
  match stream.progress with
  | .fresh (some p) => stream.emit s p
  | .fresh none => stream.finish s .stopped
  | .running =>
    let pulled := stream.walk.pull Policy.array stream.scene
    let stream := { stream with walk := pulled.walk, scene := pulled.scene }
    match pulled.outcome with
    | .item (.handle p) => stream.emit s p
    | .item (.request _) => stream.finish s .stopped
    | .stopped => stream.finish s .stopped
    | .failed fault => stream.finish s (.failed fault)
  | .closed => (.stopped, stream, s)

/-- Closes the response. Before the first line this leaves the file to `LineStream.cleanUp`. -/
def close (stream : LineStream) (s : Service) : LineStream × Service :=
  match stream.progress with
  | .running => ({ stream with progress := .closed }, s.unlink stream.file)
  | _ => ({ stream with progress := .closed }, s)

def cleanUp (stream : LineStream) (s : Service) : Service := s.unlink stream.file

structure Delivery where
  lines : List String
  fault : Option Fault
  stream : LineStream
  service : Service

def take (stream : LineStream) (s : Service) : Nat → Delivery
  | 0 => ⟨[], none, stream, s⟩
  | n + 1 =>
    match stream.next s with
    | (.item text, stream', s') =>
      let later := take stream' s' n
      { later with lines := text :: later.lines }
    | (.stopped, stream', s') => ⟨[], none, stream', s'⟩
    | (.failed fault, stream', s') => ⟨[], some fault, stream', s'⟩

/-- Upper bound on the number of lines: every line but the first costs a token. -/
def bound (stream : LineStream) : Nat := stream.scene.cursor.pending.length + 2

/-- Sends all lines, or at most `limit` of them before closing, and then runs the clean-up. -/
def deliver (stream : LineStream) (s : Service) (limit : Option Nat) : Delivery :=
  let delivery := stream.take s (limit.getD stream.bound)
  let (stream', s') := delivery.stream.close delivery.service
  { delivery with stream := stream', service := stream'.cleanUp s' }

end LineStream

namespace Service

/-- Answers an upload with a line for each document. The first document is pulled before the answer,
so that a fault in front of it becomes an error status. -/
def splitStream (settings : ServiceSettings) (upload : Upload) (s : Service) :
    Except HttpError LineStream × Service :=
  match spool settings upload s.countRequest with
  | (.error fault, s) => (.error (.ofFault fault), s)
  | (.ok (file, bytes), s) =>
    match openWalk settings bytes with
    | .error fault => (.error (.ofFault fault), s.unlink file)
    | .ok scene =>
      let pulled := Walk.pull Policy.array {} scene
      let stream (first : Option Payload) : LineStream :=
        ⟨file, pulled.walk, pulled.scene, .fresh first⟩
      match pulled.outcome with
      | .failed fault => (.error (.ofFault fault), s.unlink file)
      | .item (.handle p) => (.ok (stream (some p)), s)
      | .item (.request _) => (.ok (stream none), s)
      | .stopped => (.ok (stream none), s)

def health : String := "healthy"

end Service

end JsonCleave
