/-
SoundSequencer.Document.Plain — the text format that `ofText?` reads.

* `Node.content?` reads a value as the contents of a field. A name may also be given as a table
  with an empty entry of that name.
* `Table.decode?` reads a table as a record, field after field.
* `Format.plain` is the format. It writes the records that need neither quoted names nor escapes.
-/
import SoundSequencer.Document.Reader

namespace SoundSequencer.Document

/-- Reads a value as the contents of a field. -/
def Node.content? (k : Kind) : Node → Option k.Content
  | .integer (.ofNat n) => k.ofScalar? (.number n)
  | .text s => k.ofScalar? (.text s)
  | .table _ [(name, node)] => if node.isEmpty then k.ofScalar? (.text name) else none
  | _ => none

namespace Table

/-- The contents of a field: what the table gives, or the default where it gives nothing. -/
def field? (t : Table) (field : Field) (default : Option field.kind.Content) :
    Option field.kind.Content :=
  match t.find? field.name with
  | none => default
  | some node => node.content? field.kind

/-- The contents of fields, one after the other. -/
def fill? (t : Table) : (fields : List Field) → Option (Record fields) → Option (Record fields)
  | [], _ => some ()
  | field :: fields, default => do
    let content ← t.field? field (default.map Prod.fst)
    let rest ← fill? t fields (default.map Prod.snd)
    return (content, rest)

/-- Reads a table as a record. -/
def decode? (s : Shape) (t : Table) : Option (Record s.fields) :=
  if s.closed && !t.all fun (name, _) => (s.fields.map Field.name).contains name then none
  else t.fill? s.fields s.default

end Table

/-- The format of whole numbers, strings and tables. -/
def Format.plain : Format where
  Table := Document.Table
  Value := Node
  value
    | .number n => .integer n
    | .text s => .text s
  parse? := ofText?
  get? := Document.Table.find?
  content? := Node.content?
  decode? := Document.Table.decode?
  write? s r :=
    let entries := Record.scalars s.fields r
    if Plain entries then some (lines entries) else none

end SoundSequencer.Document
