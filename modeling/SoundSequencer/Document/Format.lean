/-
SoundSequencer.Document.Format — a text format for records, as those who use it know it.

Settings are kept in a text format that is not the engine's own. What reads and writes it is
given from outside, and only what it documents is relied on.

* `Shape` declares a record: its fields, their values where a text does not give them, and
  whether a text may give anything else.
* `lines` is the text of named numbers and strings, one in a line.
* `Format` reads a text as a table of values, and a record from a table, and writes a record
  as a text. `Format.Lawful` says what it does with lines and with records.
-/

namespace SoundSequencer.Document

/-! ## Records -/

/-- What a field may hold. -/
inductive Kind where
  /-- A whole number of 8 bits. -/
  | byte
  /-- A whole number of 32 bits. -/
  | word
  /-- One of some names. -/
  | choice (names : List String) (distinct : names.Nodup)

/-- The contents of a field. A choice is the place of its name. -/
abbrev Kind.Content : Kind → Type
  | byte => UInt8
  | word => UInt32
  | choice names _ => Fin names.length

/-- A field of a record. -/
structure Field where
  name : String
  kind : Kind

/-- Contents for some fields. -/
abbrev Record : List Field → Type
  | [] => Unit
  | field :: fields => field.kind.Content × Record fields

/-- The declaration of a record. -/
structure Shape where
  fields : List Field
  distinct : (fields.map Field.name).Nodup
  /-- The contents of fields that a text does not give. Without them it has to give all. -/
  default : Option (Record fields)
  /-- Whether a text may give the fields only. -/
  closed : Bool

/-! ## Numbers and strings -/

/-- A value that stands in a line. -/
inductive Scalar where
  | number (value : Nat)
  | text (value : String)
  deriving Repr, DecidableEq

namespace Kind

/-- What contents are written as. -/
def scalar : (k : Kind) → k.Content → Scalar
  | byte, n => .number n.toNat
  | word, n => .number n.toNat
  | choice names _, i => .text names[i]

/-- The contents that are written so. -/
def ofScalar? : (k : Kind) → Scalar → Option k.Content
  | byte, .number n => if n < UInt8.size then some (UInt8.ofNat n) else none
  | word, .number n => if n < UInt32.size then some (UInt32.ofNat n) else none
  | choice names _, .text name => names.finIdxOf? name
  | _, _ => none

end Kind

/-- What a record says under the names of its fields. -/
def Record.scalars : (fields : List Field) → Record fields → List (String × Scalar)
  | [], () => []
  | field :: fields, (content, rest) =>
    (field.name, field.kind.scalar content) :: scalars fields rest

/-! ## Lines -/

/-- A character of a bare name. -/
def isBare (c : Char) : Bool := c.isAlphanum || c == '_' || c == '-'

/-- Whether a string has characters of a kind only, and some. -/
def isWord (kind : Char → Bool) (s : String) : Bool := s.toList.all kind && !s.toList.isEmpty

/-- The text of a value: a number in decimal, a string between double quotes. -/
def Scalar.toText : Scalar → String
  | number n => toString n
  | text s => "\"" ++ s ++ "\""

/-- The line that gives a value to a name. -/
def line (entry : String × Scalar) : String := entry.1 ++ " = " ++ entry.2.toText ++ "\n"

/-- The text of one line after the other. -/
def lines (entries : List (String × Scalar)) : String := String.join (entries.map line)

/-- Whether a line holds the value as it is: a number of 63 bits, a string without escapes. -/
def Scalar.isPlain : Scalar → Bool
  | number n => n < 0x8000000000000000
  | text s => isWord isBare s

/-- Entries that lines hold as they are, under bare names that are all different. -/
def Plain (entries : List (String × Scalar)) : Prop :=
  (entries.map Prod.fst).Nodup ∧
    ∀ entry ∈ entries, isWord isBare entry.1 = true ∧ entry.2.isPlain = true

instance (entries : List (String × Scalar)) : Decidable (Plain entries) :=
  inferInstanceAs (Decidable (_ ∧ _))

/-! ## Formats -/

/-- What reads and writes a text format. -/
structure Format where
  /-- The contents of a text. -/
  Table : Type
  Value : Type
  /-- A number or a string as a value. -/
  value : Scalar → Value
  /-- Reads a text. -/
  parse? : String → Option Table
  /-- The value under a name. -/
  get? : Table → String → Option Value
  /-- Reads a value as the contents of a field. -/
  content? : (k : Kind) → Value → Option k.Content
  /-- Reads a table as a record. -/
  decode? : (s : Shape) → Table → Option (Record s.fields)
  /-- Writes a record as a text. -/
  write? : (s : Shape) → Record s.fields → Option String

namespace Format

/-- Whether a field has the contents that the table gives it, or the default contents where the
table gives none. -/
def Gives (c : Format) (t : c.Table) (field : Field) (default : Option field.kind.Content)
    (content : field.kind.Content) : Prop :=
  match c.get? t field.name with
  | none => default = some content
  | some value => c.content? field.kind value = some content

/-- Whether all fields of a record have the contents that the table or the default gives them. -/
def Fills (c : Format) (t : c.Table) :
    (fields : List Field) → (default : Option (Record fields)) → Record fields → Prop
  | [], _, _ => True
  | field :: fields, default, (content, rest) =>
    c.Gives t field (default.map Prod.fst) content ∧
      c.Fills t fields (default.map Prod.snd) rest

/-- What a format documents of itself. -/
structure Lawful (c : Format) : Prop where
  /-- Lines are read as a table that gives their entries and nothing else. -/
  parse?_lines : ∀ entries, Plain entries →
    ∃ t, c.parse? (lines entries) = some t ∧
      (∀ entry ∈ entries, c.get? t entry.1 = some (c.value entry.2)) ∧
      ∀ name, name ∉ entries.map Prod.fst → c.get? t name = none
  /-- A number is read where it has no more bits than the field, a name where it is one of the
  choice, and anything else is refused. -/
  content?_value : ∀ (k : Kind) (s : Scalar), s.isPlain = true →
    c.content? k (c.value s) = k.ofScalar? s
  /-- A table is read as the record that it fills. Where the record is closed, a table that
  gives other names is refused. -/
  decode?_eq_some_iff : ∀ (s : Shape) (t : c.Table) (r : Record s.fields),
    c.decode? s t = some r ↔
      (s.closed = true → ∀ name, c.get? t name ≠ none → name ∈ s.fields.map Field.name) ∧
        c.Fills t s.fields s.default r
  /-- A record is written as the lines of its fields. -/
  write?_eq_lines : ∀ (s : Shape) (r : Record s.fields), Plain (Record.scalars s.fields r) →
    c.write? s r = some (lines (Record.scalars s.fields r))

end Format

end SoundSequencer.Document
