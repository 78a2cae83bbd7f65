import JsonCleave.Origin
import JsonCleave.Scan.Scanner
/-!
# Feeds: all that a source delivers

A feed is what pulls from a source come to, in order. Most sources deliver tokens and then end, for
good. But a source is asked again after it has ended: a read that took nothing may be
followed by one that takes something, and text that was found malformed may be followed by a
read that fails. Such endings in the middle are halts. How the bytes are cut into reads is
invisible in a feed, except that every read behind a refused byte is one more halt.
-/

namespace JsonCleave

inductive Delivery where
  | token (t : Token)
  /-- The source has ended, as far as this pull can tell. -/
  | halt (ending : Ending)
deriving DecidableEq, Repr

/-- The results of all pulls on a source: deliveries, then `ending` forever. `limit` is the digit
limit of the interpreter. -/
structure Feed where
  deliveries : List Delivery
  ending : Ending
  limit : DigitLimit := .standard
deriving DecidableEq, Repr

/-- The chunks returned by the reads of a source, and the message with which the next read fails, if
it does. -/
structure Reads where
  chunks : List (List UInt8)
  failure : Option String := none
deriving DecidableEq, Repr

namespace Reads

def ofBytes (bytes : List UInt8) : Reads := ⟨[bytes], none⟩

def leading (r : Reads) : List (List UInt8) := r.chunks.takeWhile (!·.isEmpty)

def failure? (r : Reads) : Option String :=
  if r.chunks.any (·.isEmpty) then none else r.failure

end Reads

namespace Feed

def ofTokens (tokens : List Token) : Feed :=
  { deliveries := tokens.map .token, ending := .complete }

def on (limit : DigitLimit) (feed : Feed) : Feed := { feed with limit }

/-- Drops trailing halts that repeat the ending. -/
def trimmed (deliveries : List Delivery) (ending : Ending) : Feed :=
  { deliveries := (deliveries.reverse.dropWhile (· = .halt ending)).reverse, ending }

def malformed : Ending := .broken (.malformed none)

def ofScan (scan : Scan) : List Delivery :=
  scan.tokens.map .token ++ if scan.next.isNone then [.halt malformed] else []

/-- The deliveries of one chunk and the scanner after it, none after a refused byte. An empty chunk
is the end of the input: it halts unless it completes a number. -/
def ofChunk (s : Option Scanner) (chunk : List UInt8) : List Delivery × Option Scanner :=
  match s with
  | none => ([.halt malformed], none)
  | some s =>
    if chunk.isEmpty then
      let scan := s.finish
      (if scan.tokens.isEmpty ∧ scan.next.isSome then [.halt .complete] else ofScan scan,
        scan.next)
    else
      let scan := s.scan chunk
      (ofScan scan, scan.next)

def ofChunks (s : Option Scanner) : List (List UInt8) → List Delivery × Option Scanner
  | [] => ([], s)
  | chunk :: rest =>
    let (deliveries, s') := ofChunk s chunk
    let (later, s'') := ofChunks s' rest
    (deliveries ++ later, s'')

/-- The feed of a byte source: its chunks, then a failed read or the end of the input. -/
def ofReads (r : Reads) : Feed :=
  let (deliveries, s) := ofChunks (some .start) r.chunks
  match r.failure with
  | some message => trimmed deliveries (.broken (.unreadable message))
  | none =>
    let (last, s') := ofChunk s []
    trimmed (deliveries ++ last) (if s'.isNone then malformed else .complete)

def ofBytes (bytes : List UInt8) : Feed := ofReads (.ofBytes bytes)

end Feed

end JsonCleave
