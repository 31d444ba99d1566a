/-
SoundSequencer.Proofs.RecordFormats — records that are written as texts and read again.

* `Kind.ofScalar?_scalar`: the contents of a field are read from what they are written as.
* A lawful format reads a record from the text that it wrote of it
  (`Format.Lawful.exists_write?`), and where a text does not give a field, what it reads has
  the default (`Format.Fills.lookup_eq_default`).
* The plain format is lawful: `Format.lawful_plain`.
-/
import Mathlib.Data.List.Nodup
import SoundSequencer.Document.Plain
import SoundSequencer.Proofs.DocumentLines

namespace SoundSequencer.Document

/-! ## Contents -/

theorem Kind.ofScalar?_scalar : ∀ (k : Kind) (content : k.Content),
    k.ofScalar? (k.scalar content) = some content
  | byte, n => (if_pos n.toNat_lt).trans (congrArg some UInt8.ofNat_toNat)
  | word, n => (if_pos n.toNat_lt).trans (congrArg some UInt32.ofNat_toNat)
  | choice names distinct, i => by
    refine List.finIdxOf?_eq_some_iff.mpr ⟨rfl, fun j hj h => ?_⟩
    exact absurd (Fin.ext (distinct.getElem_inj_iff.mp h)) (Fin.ne_of_lt hj)

theorem Record.map_fst_scalars : ∀ (fields : List Field) (r : Record fields),
    (scalars fields r).map Prod.fst = fields.map Field.name
  | [], () => rfl
  | field :: fields, (_, rest) => congrArg (field.name :: ·) (map_fst_scalars fields rest)

/-! ## Plain records -/

/-- Whether lines hold all contents of a kind as they are. -/
def Kind.isPlain : Kind → Bool
  | byte | word => true
  | choice names _ => names.all (isWord isBare)

/-- Whether lines hold a field as it is. -/
def Field.isPlain (field : Field) : Bool := isWord isBare field.name && field.kind.isPlain

theorem Kind.isPlain_scalar {k : Kind} (h : k.isPlain = true) (content : k.Content) :
    (k.scalar content).isPlain = true := by
  cases k with
  | byte => exact decide_eq_true (Nat.lt_trans content.toNat_lt (by decide))
  | word => exact decide_eq_true (Nat.lt_trans content.toNat_lt (by decide))
  | choice names distinct => exact List.all_eq_true.mp h _ (List.getElem_mem content.isLt)

theorem Record.isPlain_of_mem_scalars : ∀ {fields : List Field} {r : Record fields},
    (∀ field ∈ fields, field.isPlain = true) →
    ∀ entry ∈ scalars fields r, isWord isBare entry.1 = true ∧ entry.2.isPlain = true
  | [], (), _ => nofun
  | field :: fields, (content, rest), h => by
    obtain ⟨hfield, hfields⟩ := List.forall_mem_cons.mp h
    obtain ⟨hname, hkind⟩ := Bool.and_eq_true_iff.mp hfield
    exact List.forall_mem_cons.mpr
      ⟨⟨hname, Kind.isPlain_scalar hkind content⟩, isPlain_of_mem_scalars hfields⟩

/-- A record of plain fields is plain. -/
theorem Record.plain_scalars {s : Shape} (h : ∀ field ∈ s.fields, field.isPlain = true)
    (r : Record s.fields) : Plain (scalars s.fields r) :=
  ⟨(map_fst_scalars s.fields r).symm ▸ s.distinct, isPlain_of_mem_scalars h⟩

/-! ## Lawful formats -/

namespace Format

variable {c : Format} {t : c.Table}

/-- A table that gives what a record says fills this record. -/
theorem Lawful.fills (h : c.Lawful) : ∀ (fields : List Field) (default : Option (Record fields))
    (r : Record fields),
    (∀ entry ∈ Record.scalars fields r,
      c.get? t entry.1 = some (c.value entry.2) ∧ entry.2.isPlain = true) →
    c.Fills t fields default r
  | [], _, (), _ => trivial
  | field :: fields, default, (content, rest), hgiven => by
    obtain ⟨⟨hget, hplain⟩, hrest⟩ := List.forall_mem_cons.mp hgiven
    refine ⟨?_, h.fills fields _ rest hrest⟩
    rw [Gives, hget]
    exact (h.content?_value field.kind _ hplain).trans (field.kind.ofScalar?_scalar content)

/-- A record is read from the text that it is written as. -/
theorem Lawful.exists_write? (h : c.Lawful) {s : Shape} {r : Record s.fields}
    (hplain : Plain (Record.scalars s.fields r)) :
    ∃ text, c.write? s r = some text ∧ (c.parse? text).bind (c.decode? s) = some r := by
  obtain ⟨t, hparse, hgiven, hothers⟩ := h.parse?_lines _ hplain
  refine ⟨_, h.write?_eq_lines s r hplain, ?_⟩
  rw [hparse, Option.bind_some, h.decode?_eq_some_iff]
  refine ⟨fun _ name hname => ?_, h.fills _ _ _ fun entry hin => ?_⟩
  · rw [← Record.map_fst_scalars s.fields r]
    exact Classical.not_not.mp fun hnot => hname (hothers name hnot)
  · exact ⟨hgiven entry hin, (hplain.2 entry hin).2⟩

/-- Under a name that the table does not give, a record that it fills says what the default
says. -/
theorem Fills.lookup_eq_default : ∀ {fields : List Field} {default r : Record fields},
    c.Fills t fields (some default) r → ∀ {name : String}, c.get? t name = none →
    (Record.scalars fields r).lookup name = (Record.scalars fields default).lookup name
  | [], (), (), _, _, _ => rfl
  | field :: fields, (given, default), (content, rest), h, name, hname => by
    obtain ⟨hfirst, hrest⟩ := h
    simp only [Record.scalars, List.lookup_cons]
    by_cases heq : name = field.name
    · rw [Gives, ← heq, hname] at hfirst
      cases hfirst
      rw [beq_iff_eq.mpr heq]
    · rw [beq_false_of_ne heq]
      exact lookup_eq_default hrest hname

end Format

/-! ## The plain format -/

theorem isWord_iff {kind : Char → Bool} {s : String} :
    isWord kind s = true ↔ (∀ c ∈ s.toList, kind c = true) ∧ s.toList ≠ [] := by
  rw [isWord, Bool.and_eq_true, List.all_eq_true, Bool.not_eq_true', List.isEmpty_eq_false_iff]

/-- The characters of a bare name need no escape in a string. -/
theorem isPlain_of_isBare {c : Char} (h : isBare c = true) : isPlain c = true := by
  have hlow : ' ' ≤ c := by
    refine Char.not_lt.mp fun hlt => ?_
    -- no control character is bare
    have hnone : ∀ n : Fin 32, isBare (Char.ofNat n) = false := by decide
    have hbare := hnone ⟨c.toNat, hlt⟩
    rw [Char.ofNat_toNat, h] at hbare
    cases hbare
  have hne : ∀ d, isBare d = false → c ≠ d := fun d => ne_of_isBare h
  simp [isPlain, isInLine, hlow, hne '\x7f' rfl, hne '"' rfl, hne '\\' rfl]

/-- A line that gives a value to a name, with what it is read as. -/
def Entry.of (entry : String × Scalar) : Entry where
  name := entry.1.toList
  value := entry.2.toText.toList
  node := Format.plain.value entry.2

theorem Entry.toList_line (entry : String × Scalar) : (line entry).toList = (of entry).text := by
  have hequals : " = ".toList = [' ', '=', ' '] := rfl
  have hend : "\n".toList = ['\n'] := rfl
  simp only [line, of, text, String.toList_append, hequals, hend, List.append_assoc,
    List.cons_append, List.nil_append]

theorem toList_lines (entries : List (String × Scalar)) :
    (lines entries).toList = (entries.map Entry.of).flatMap Entry.text := by
  rw [lines, String.toList_join, List.flatMap_map, List.flatMap_map]
  exact congrArg (List.flatMap · entries) (funext Entry.toList_line)

/-- A number is read up to the end of its line. -/
theorem value?_number (n fuel : Nat) (rest : List Char) :
    value? (fuel + 1) (Nat.toDigits 10 n ++ '\n' :: rest) =
      some (.integer n, '\n' :: rest) := by
  have hread := integer?_toDigits n rest
  obtain ⟨c, ds, hds⟩ := List.exists_cons_of_ne_nil (Nat.toDigits_ne_nil (n := n) (b := 10))
  have hdigit : c.isDigit = true :=
    Nat.isDigit_of_mem_toDigits (by decide) (by decide) (hds ▸ List.mem_cons_self)
  have hopening : ∀ d, d.isDigit = false → c ≠ d := fun d => ne_of_isDigit hdigit
  rw [hds, List.cons_append] at hread ⊢
  have hnone : text? (c :: (ds ++ '\n' :: rest)) = none := by
    simp [text?, lineText?, hopening '"' rfl, hopening '\'' rfl]
  rw [value?, hnone, hread]
  · rfl
  · exact fun _ h => hopening '[' rfl (List.cons.inj h).1
  · exact fun _ h => hopening '{' rfl (List.cons.inj h).1

/-- A string is read up to the end of its line. -/
theorem value?_text {s : String} (hplain : ∀ c ∈ s.toList, isPlain c = true)
    (hne : s.toList ≠ []) (fuel : Nat) (rest : List Char) :
    value? (fuel + 1) ('"' :: (s.toList ++ '"' :: '\n' :: rest)) =
      some (.text s, '\n' :: rest) := by
  rw [value?, text?_quoted hplain hne, String.ofList_toList]
  · exact fun _ h => absurd (List.cons.inj h).1 (by decide)
  · exact fun _ h => absurd (List.cons.inj h).1 (by decide)

theorem Entry.of_number (name : String) (n : Nat) :
    of (name, .number n) = ⟨name.toList, Nat.toDigits 10 n, .integer n⟩ := by
  simp only [of, Scalar.toText, Nat.toString_eq_repr, Nat.toList_repr, Format.plain]

theorem Entry.of_text (name s : String) :
    of (name, .text s) = ⟨name.toList, '"' :: (s.toList ++ ['"']), .text s⟩ := by
  have hquote : "\"".toList = ['"'] := rfl
  simp only [of, Scalar.toText, String.toList_append, hquote, Format.plain, List.cons_append,
    List.nil_append]

/-- Plain entries stand in readable lines. -/
theorem Entry.readable_of {entry : String × Scalar} (hname : isWord isBare entry.1 = true)
    (hvalue : entry.2.isPlain = true) : (of entry).Readable := by
  obtain ⟨hbare, hnamed⟩ := isWord_iff.mp hname
  obtain ⟨name, n | s⟩ := entry
  · rw [of_number]
    refine ⟨hbare, hnamed, fun c hc => ?_, Nat.toDigits_ne_nil, value?_number n⟩
    have hdigit : c.isDigit = true :=
      Nat.isDigit_of_mem_toDigits (by decide) (by decide) (List.mem_of_mem_head? hc)
    simp [isBlank, ne_of_isDigit hdigit (d := ' ') rfl, ne_of_isDigit hdigit (d := '\t') rfl]
  · rw [of_text]
    obtain ⟨hchars, hne⟩ := isWord_iff.mp hvalue
    refine ⟨hbare, hnamed, fun c hc => ?_, List.cons_ne_nil _ _, fun fuel rest => ?_⟩
    · cases hc
      rfl
    · simp only [List.cons_append, List.append_assoc, List.nil_append]
      exact value?_text (fun c hc => isPlain_of_isBare (hchars c hc)) hne fuel rest

/-! ### Tables -/

namespace Table

theorem find?_of_mem {t : Table} (h : (t.map Prod.fst).Nodup) {name : String} {node : Node}
    (hin : (name, node) ∈ t) : t.find? name = some node := by
  induction t with
  | nil => cases hin
  | cons entry t ih =>
    obtain ⟨other, value⟩ := entry
    obtain ⟨hnew, hrest⟩ := List.nodup_cons.mp h
    rw [find?, List.lookup_cons]
    rcases List.mem_cons.mp hin with heq | htail
    · cases heq
      rw [beq_self_eq_true]
    · have hne : name ≠ other := fun heq =>
        hnew (List.mem_map.mpr ⟨_, htail, heq⟩)
      rw [beq_false_of_ne hne]
      exact ih hrest htail

theorem find?_eq_none_iff {t : Table} {name : String} :
    t.find? name = none ↔ name ∉ t.map Prod.fst := by
  simp only [find?, List.lookup_eq_none_iff, bne_iff_ne, List.mem_map, not_exists, not_and]
  exact forall₂_congr fun _ _ => ne_comm

theorem field?_eq_some_iff {t : Table} {field : Field} {default : Option field.kind.Content}
    {content : field.kind.Content} :
    t.field? field default = some content ↔ Format.plain.Gives t field default content := by
  cases hfind : t.find? field.name with
  | none =>
    have hget : Format.plain.get? t field.name = none := hfind
    simp only [field?, Format.Gives, hfind, hget]
  | some node =>
    have hget : Format.plain.get? t field.name = some node := hfind
    simp only [field?, Format.Gives, hfind, hget]
    exact Iff.rfl

/-- What is read under the names of fields is the record that the table fills. -/
theorem fill?_eq_some_iff {t : Table} : ∀ {fields : List Field} {default : Option (Record fields)}
    {r : Record fields}, t.fill? fields default = some r ↔ Format.plain.Fills t fields default r
  | [], _, () => iff_of_true rfl trivial
  | field :: fields, default, (content, rest) => by
    simp only [fill?, Option.bind_eq_bind, Option.bind_eq_some_iff, Option.pure_def,
      Option.some.injEq, Prod.mk.injEq]
    constructor
    · rintro ⟨_, hcontent, _, hrest, rfl, rfl⟩
      exact ⟨field?_eq_some_iff.mp hcontent, fill?_eq_some_iff.mp hrest⟩
    · rintro ⟨hcontent, hrest⟩
      exact ⟨content, field?_eq_some_iff.mpr hcontent, rest, fill?_eq_some_iff.mpr hrest, rfl, rfl⟩

theorem all_contains_iff {t : Table} {names : List String} :
    (t.all fun (name, _) => names.contains name) = true ↔
      ∀ name, t.find? name ≠ none → name ∈ names := by
  simp only [ne_eq, find?_eq_none_iff, Classical.not_not, List.all_eq_true, List.contains_iff_mem,
    List.forall_mem_map]

theorem decode?_eq_some_iff {s : Shape} {t : Table} {r : Record s.fields} :
    t.decode? s = some r ↔
      (s.closed = true → ∀ name, t.find? name ≠ none → name ∈ s.fields.map Field.name) ∧
        Format.plain.Fills t s.fields s.default r := by
  rw [← fill?_eq_some_iff, ← all_contains_iff, decode?]
  cases s.closed with
  | false => simp
  | true =>
    cases t.all fun (name, _) => (s.fields.map Field.name).contains name <;> simp

end Table

/-- Lines of plain entries are read as the table of these entries. -/
theorem ofText?_lines_of_plain {entries : List (String × Scalar)} (h : Plain entries) :
    ofText? (lines entries) = some (entries.map fun p => (p.1, Format.plain.value p.2)) := by
  have hread : ∀ l ∈ entries.map Entry.of, l.Readable := by
    rintro _ hl
    obtain ⟨entry, hin, rfl⟩ := List.mem_map.mp hl
    exact Entry.readable_of (h.2 entry hin).1 (h.2 entry hin).2
  have hname : ∀ entry, String.ofList (Entry.of entry).name = entry.1 := fun _ =>
    String.ofList_toList
  have hnames : ((entries.map Entry.of).map fun l => String.ofList l.name).Nodup := by
    simp only [List.map_map, Function.comp_def, hname]
    exact h.1
  rw [ofText?_lines (toList_lines entries) hread hnames, List.map_map]
  simp only [Function.comp_def, hname]
  rfl

/-- The plain format does what a format documents of itself. -/
theorem Format.lawful_plain : Format.plain.Lawful where
  parse?_lines entries h := by
    have hmap : (entries.map fun p => (p.1, Format.plain.value p.2)).map Prod.fst =
        entries.map Prod.fst := by
      rw [List.map_map]
      rfl
    refine ⟨_, ofText?_lines_of_plain h, fun entry hin => ?_, fun name hname => ?_⟩
    · exact Table.find?_of_mem (hmap ▸ h.1) (List.mem_map_of_mem hin)
    · exact Table.find?_eq_none_iff.mpr (hmap ▸ hname)
  content?_value
    | _, .number _, _ => rfl
    | _, .text _, _ => rfl
  decode?_eq_some_iff _ _ _ := Table.decode?_eq_some_iff
  write?_eq_lines _ _ h := if_pos h

end SoundSequencer.Document
