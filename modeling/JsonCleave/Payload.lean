import JsonCleave.Number
import JsonCleave.Text.Quoted
/-!
# Payloads and write requests

What a split hands out: a payload is a text with its format, a write request pairs a
payload with the address it is to be written under. `Value` is what a policy of its own
making may hand out instead.
-/

namespace JsonCleave

inductive Format where
  | unknown
  | json
  | text
  | xml
  | binary
deriving DecidableEq, Repr

namespace Format

def label : Format → String
  | .unknown => "unknown"
  | .json => "json"
  | .text => "text"
  | .xml => "xml"
  | .binary => "binary"

def all : List Format := [.unknown, .json, .text, .xml, .binary]

def ofLabel? (label : String) : Option Format := all.find? fun f => f.label == label

theorem ofLabel?_label (f : Format) : ofLabel? f.label = some f := by
  cases f <;> decide

end Format

structure Payload where
  content : String
  format : Format := .unknown
deriving DecidableEq, Repr

def Payload.withFormat (p : Payload) (format : Format) : Payload := { p with format := format }

@[simp] theorem Payload.content_withFormat (p : Payload) (format : Format) :
    (p.withFormat format).content = p.content := rfl

@[simp] theorem Payload.format_withFormat (p : Payload) (format : Format) :
    (p.withFormat format).format = format := rfl

/-- A value handed out for a container, or returned by a hook in place of a decision. -/
inductive Value where
  | null
  | boolean (b : Bool)
  | text (s : String)
  | number (n : Number)
  | payload (p : Payload)
  | list (values : List Value)
deriving Inhabited, Repr

namespace Value

def text? : Value → Option String
  | .text s => some s
  | .payload p => some p.content
  | _ => none

def shownNumber : Number → String
  | .integer n => String.ofList (Number.integerChars n)
  | .decimal d => "Decimal('" ++ String.ofList d.chars ++ "')"
  | .binary x => String.ofList (x.chars .shown)

def shownPayload (p : Payload) : String :=
  "StringHandle(content=" ++ quoted p.content ++ ", format=<Format."
    ++ p.format.label.toUpper ++ ": " ++ quoted p.format.label ++ ">)"

def shown : Value → String
  | .null => "None"
  | .boolean true => "True"
  | .boolean false => "False"
  | .text s => quoted s
  | .number n => shownNumber n
  | .payload p => shownPayload p
  | .list values => "[" ++ ", ".intercalate (values.attach.map fun ⟨v, _⟩ => v.shown) ++ "]"

end Value

/-- The target of a write request: a fresh address, identified by its serial number, or a
named one. -/
inductive Address where
  | fresh (serial : Nat)
  | named (text : String)
deriving DecidableEq, Repr

inductive RequestKind where
  | documentWrite
  | metadataDefault
  | disabledMetadataDefault
deriving DecidableEq, Repr

namespace RequestKind

def label : RequestKind → String
  | .documentWrite => "document_write"
  | .metadataDefault => "metadata_default"
  | .disabledMetadataDefault => "disabled_metadata_default"

def all : List RequestKind := [.documentWrite, .metadataDefault, .disabledMetadataDefault]

def ofLabel? (label : String) : Option RequestKind := all.find? fun k => k.label == label

end RequestKind

structure WriteRequest (α : Type) where
  kind : RequestKind
  address : Address
  metadata : Value
  content : α
deriving Repr

def WriteRequest.document {α : Type} (serial : Nat) (content : α) : WriteRequest α :=
  ⟨.documentWrite, .fresh serial, .null, content⟩

end JsonCleave
