/-
SoundSequencer.Proofs.DocumentLines — reading documents of one assignment a line.

* `integer?_toDigits` and `text?_quoted` read back a number in decimal and a string without
  escapes.
* `Entry` is a line `name = value`, and `Entry.Readable` says that its value is read whole.
* A document of readable lines is read as their assignments, line by line
  (`statements?_lines`), and gives the table of them if no name comes twice: `ofText?_lines`.
-/
import SoundSequencer.Document.Reader

namespace SoundSequencer.Document

/-! ## Numbers -/

theorem ne_of_isDigit {c d : Char} (hc : c.isDigit = true) (hd : d.isDigit = false) : c ≠ d := by
  rintro rfl
  rw [hc] at hd
  cases hd

theorem digit?_of_isDigit {c : Char} (h : c.isDigit = true) :
    digit? 10 c = some (c.toNat - '0'.toNat) := by
  have hbelow : c.toNat - '0'.toNat < 10 := by
    have hle : c.val ≤ 57 := of_decide_eq_true (Bool.and_eq_true_iff.mp h).2
    have hle' : c.toNat ≤ 57 := UInt32.le_iff_toNat_le.mp hle
    have hzero : '0'.toNat = 48 := rfl
    omega
  unfold digit?
  rw [if_pos h]
  exact if_pos (decide_eq_true hbelow)

/-- The digits at the end of a line are read to the last. -/
theorem moreDigits_append {ds : List Char} (hds : ∀ c ∈ ds, c.isDigit = true) (high : Nat)
    (rest : List Char) :
    moreDigits 10 high (ds ++ '\n' :: rest) = (Nat.ofDigitChars 10 ds high, '\n' :: rest) := by
  induction ds generalizing high with
  | nil => rfl
  | cons c ds ih =>
    obtain ⟨hc, hrest⟩ := List.forall_mem_cons.mp hds
    have hbar : c ≠ '_' := ne_of_isDigit hc rfl
    rw [List.cons_append, moreDigits, digit?_of_isDigit hc]
    · simp only [ih hrest, Nat.ofDigitChars, List.foldl_cons, Nat.mul_comm]
    · exact fun _ _ h => absurd h hbar

/-- No number but zero begins with the digit zero. -/
theorem exists_toDigits_eq_cons {n : Nat} (h : 0 < n) :
    ∃ c ds, Nat.toDigits 10 n = c :: ds ∧ c ≠ '0' := by
  induction n using Nat.strongRecOn with
  | ind n ih =>
    rw [Nat.toDigits_eq_if (by decide)]
    split
    · next hsmall =>
      have hdigit : ∀ d : Fin 10, 0 < d.val → d.val.digitChar ≠ '0' := by decide
      exact ⟨_, [], rfl, hdigit ⟨n, hsmall⟩ h⟩
    · obtain ⟨c, ds, hds, hc⟩ := ih (n / 10) (by omega) (by omega)
      exact ⟨c, ds ++ [(n % 10).digitChar], by rw [hds, List.cons_append], hc⟩

theorem decimal?_toDigits (n : Nat) (rest : List Char) :
    decimal? (Nat.toDigits 10 n ++ '\n' :: rest) = some (n, '\n' :: rest) := by
  rcases Nat.eq_zero_or_pos n with rfl | hpos
  · rfl
  obtain ⟨c, ds, hds, hc⟩ := exists_toDigits_eq_cons hpos
  have hall : ∀ d ∈ c :: ds, d.isDigit = true := fun d hd =>
    Nat.isDigit_of_mem_toDigits (by decide) (by decide) (hds ▸ hd)
  obtain ⟨hdigit, hrest⟩ := List.forall_mem_cons.mp hall
  have hvalue : Nat.ofDigitChars 10 ds (c.toNat - '0'.toNat) = n := by
    have hwhole := Nat.ofDigitChars_toDigits (b := 10) (n := n) (by decide) (by decide)
    rw [hds] at hwhole
    simpa [Nat.ofDigitChars] using hwhole
  rw [hds, List.cons_append, decimal?, digits?, digit?_of_isDigit hdigit, Option.map_some,
    moreDigits_append hrest, hvalue]
  exact fun _ h => hc (List.cons.inj h).1

theorem integer?_toDigits (n : Nat) (rest : List Char) :
    integer? (Nat.toDigits 10 n ++ '\n' :: rest) = some ((n : Int), '\n' :: rest) := by
  rcases Nat.eq_zero_or_pos n with rfl | hpos
  · rfl
  have hdecimal := decimal?_toDigits n rest
  obtain ⟨c, ds, hds, hc⟩ := exists_toDigits_eq_cons hpos
  have hdigit : c.isDigit = true :=
    Nat.isDigit_of_mem_toDigits (by decide) (by decide) (hds ▸ List.mem_cons_self)
  rw [hds, List.cons_append] at hdecimal ⊢
  unfold integer?
  split
  · next h => exact absurd (List.cons.inj h).1 hc
  · next h => exact absurd (List.cons.inj h).1 hc
  · next h => exact absurd (List.cons.inj h).1 hc
  · next h => exact absurd (List.cons.inj h).1 (ne_of_isDigit hdigit rfl)
  · next h => exact absurd (List.cons.inj h).1 (ne_of_isDigit hdigit rfl)
  · rw [hdecimal]
    rfl

/-! ## Strings -/

/-- A character that stands for itself between double quotes. -/
def isPlain (c : Char) : Bool := isInLine c && c != '"' && c != '\\'

theorem escaped?_plain {cs : List Char} (hcs : ∀ c ∈ cs, isPlain c = true) (rest : List Char) :
    ∀ {fuel : Nat}, cs.length < fuel →
      escaped? fuel (cs ++ '"' :: rest) = some (cs, rest) := by
  induction cs with
  | nil =>
    intro fuel hfuel
    obtain ⟨fuel, rfl⟩ := Nat.exists_eq_succ_of_ne_zero (Nat.ne_of_gt hfuel)
    rfl
  | cons c cs ih =>
    intro fuel hfuel
    obtain ⟨fuel, rfl⟩ := Nat.exists_eq_succ_of_ne_zero (Nat.ne_of_gt (Nat.zero_lt_of_lt hfuel))
    obtain ⟨hc, hrest⟩ := List.forall_mem_cons.mp hcs
    simp only [isPlain, Bool.and_eq_true, bne_iff_ne, ne_eq] at hc
    obtain ⟨⟨hline, hquote⟩, hslash⟩ := hc
    rw [List.cons_append, escaped?, if_pos hline, ih hrest (Nat.lt_of_succ_lt_succ hfuel)]
    · rfl
    · exact hquote
    · exact hslash

/-- A string in double quotes of which nothing is escaped. -/
theorem text?_quoted {cs : List Char} (hcs : ∀ c ∈ cs, isPlain c = true) (hne : cs ≠ [])
    (rest : List Char) :
    text? ('"' :: (cs ++ '"' :: rest)) = some (String.ofList cs, rest) := by
  have hfuel : cs.length < (cs ++ '"' :: rest).length + 1 := by
    simp only [List.length_append, List.length_cons]
    omega
  obtain ⟨c, cs', rfl⟩ := List.exists_cons_of_ne_nil hne
  have hquote : c ≠ '"' := by
    have hc := (List.forall_mem_cons.mp hcs).1
    simp only [isPlain, Bool.and_eq_true, bne_iff_ne, ne_eq] at hc
    exact hc.1.2
  unfold text?
  split
  · next h => exact absurd (List.cons.inj (List.cons.inj h).2).1 hquote
  · next h => exact absurd (List.cons.inj h).1 (by decide)
  · rw [lineText?, escaped?_plain hcs rest hfuel]
    rfl

/-! ## Names -/

theorem name?_bare {name : List Char} (hname : ∀ c ∈ name, isBare c = true) (hne : name ≠ [])
    {c : Char} (hc : isBare c = false) (rest : List Char) :
    name? (name ++ c :: rest) = some (String.ofList name, c :: rest) := by
  have htake : (name ++ c :: rest).takeWhile isBare = name := by
    rw [List.takeWhile_append_of_pos hname, List.takeWhile_cons_of_neg (by simp [hc]),
      List.append_nil]
  have hdrop : (name ++ c :: rest).dropWhile isBare = c :: rest := by
    rw [List.dropWhile_append_of_pos hname, List.dropWhile_cons_of_neg (by simp [hc])]
  unfold name?
  rw [htake, hdrop]
  split
  · exact absurd rfl hne
  · rfl

/-! ## Lines -/

/-- A line that gives a value to a name, with what it is read as. -/
structure Entry where
  name : List Char
  value : List Char
  node : Node

namespace Entry

/-- The characters of the line, its end included. -/
def text (l : Entry) : List Char := l.name ++ ' ' :: '=' :: ' ' :: (l.value ++ ['\n'])

/-- The line as a statement. -/
def statement (l : Entry) : Statement := .assign [String.ofList l.name] l.node

/-- The name is bare, and the value is read up to the end of the line. -/
structure Readable (l : Entry) : Prop where
  bare : ∀ c ∈ l.name, isBare c = true
  named : l.name ≠ []
  tight : ∀ c ∈ l.value.head?, isBlank c = false
  valued : l.value ≠ []
  read : ∀ fuel rest, value? (fuel + 1) (l.value ++ '\n' :: rest) = some (l.node, '\n' :: rest)

end Entry

theorem ne_of_isBare {c d : Char} (hc : isBare c = true) (hd : isBare d = false) : c ≠ d := by
  rintro rfl
  rw [hc] at hd
  cases hd

theorem not_isBlank_of_isBare {c : Char} (h : isBare c = true) : isBlank c = false := by
  have hspace : c ≠ ' ' := ne_of_isBare h rfl
  have htab : c ≠ '\t' := ne_of_isBare h rfl
  simp [isBlank, hspace, htab]

theorem skipBlanks_cons {c : Char} (h : isBlank c = false) (cs : List Char) :
    skipBlanks (c :: cs) = c :: cs := by
  rw [skipBlanks, List.dropWhile_cons_of_neg (by simp [h])]

theorem skipBlanks_append {cs : List Char} (hne : cs ≠ []) (h : ∀ c ∈ cs.head?, isBlank c = false)
    (rest : List Char) : skipBlanks (cs ++ rest) = cs ++ rest := by
  obtain ⟨c, cs, rfl⟩ := List.exists_cons_of_ne_nil hne
  exact skipBlanks_cons (h c rfl) _

section Readable

variable {l : Entry}

theorem Entry.text_append (l : Entry) (rest : List Char) :
    l.text ++ rest = l.name ++ ' ' :: '=' :: ' ' :: (l.value ++ '\n' :: rest) := by
  simp only [text, List.append_assoc, List.cons_append, List.nil_append]

/-- A readable line begins with a character of its name. -/
theorem Entry.Readable.exists_text_eq_cons (h : l.Readable) (rest : List Char) :
    ∃ c cs, l.text ++ rest = c :: cs ∧ isBare c = true := by
  obtain ⟨c, name, hname⟩ := List.exists_cons_of_ne_nil h.named
  have hc := h.bare c (hname ▸ List.mem_cons_self)
  rw [Entry.text_append, hname, List.cons_append]
  exact ⟨c, _, rfl, hc⟩

theorem Entry.Readable.skipBlanks_name (h : l.Readable) (rest : List Char) :
    skipBlanks (l.name ++ rest) = l.name ++ rest := by
  refine skipBlanks_append h.named (fun c hc => ?_) rest
  exact not_isBlank_of_isBare (h.bare c (List.mem_of_mem_head? hc))

/-- A line has at least its blanks and its equals sign. -/
theorem Entry.exists_length_eq (l : Entry) (rest : List Char) :
    ∃ n, (l.text ++ rest).length = n + 2 := by
  refine ⟨l.name.length + l.value.length + rest.length + 2, ?_⟩
  simp only [Entry.text, List.length_append, List.length_cons, List.length_nil]
  omega

theorem Entry.Readable.path? (h : l.Readable) (fuel : Nat) (rest : List Char) :
    Document.path? (fuel + 1) (l.name ++ ' ' :: '=' :: rest) =
      some ([String.ofList l.name], '=' :: rest) := by
  unfold Document.path?
  rw [h.skipBlanks_name, name?_bare h.bare h.named rfl]
  rfl

theorem Entry.Readable.assignment? (h : l.Readable) (fuel : Nat) (rest : List Char) :
    Document.assignment? (fuel + 2) (l.text ++ rest) =
      some (([String.ofList l.name], l.node), '\n' :: rest) := by
  obtain ⟨n, hlength⟩ := l.exists_length_eq rest
  have hpath := h.path? (n + 1) (' ' :: (l.value ++ '\n' :: rest))
  have hvalue : skipBlanks (' ' :: (l.value ++ '\n' :: rest)) = l.value ++ '\n' :: rest :=
    skipBlanks_append h.valued h.tight _
  rw [Document.assignment?, hlength, Entry.text_append]
  simp only [hpath, Option.bind_eq_bind, Option.bind_some, hvalue, h.read]
  rfl

theorem Entry.Readable.statement? (h : l.Readable) (rest : List Char) :
    Document.statement? (l.text ++ rest) = some (l.statement, '\n' :: rest) := by
  obtain ⟨n, hlength⟩ := l.exists_length_eq rest
  unfold Document.statement?
  split
  · next hheader =>
    -- no name begins with a bracket
    obtain ⟨c, cs, hcs, hc⟩ := h.exists_text_eq_cons rest
    rw [hcs] at hheader
    exact absurd (List.cons.inj hheader).1 (ne_of_isBare hc rfl)
  · rw [hlength, h.assignment? (n + 1) rest]
    rfl

theorem Entry.Readable.lineEnd? (h : l.Readable) (rest : List Char) :
    Document.lineEnd? (l.text ++ rest) = none := by
  obtain ⟨c, cs, hcs, hc⟩ := h.exists_text_eq_cons rest
  have hcomment : c ≠ '#' := ne_of_isBare hc rfl
  have hfeed : c ≠ '\n' := ne_of_isBare hc rfl
  have hreturn : c ≠ '\r' := ne_of_isBare hc rfl
  rw [hcs]
  unfold Document.lineEnd?
  rw [skipBlanks_cons (not_isBlank_of_isBare hc)]
  simp [hcomment, lineBreak?, hfeed, hreturn]

theorem Entry.Readable.statements? (h : l.Readable) (fuel : Nat) (rest : List Char) :
    Document.statements? (fuel + 1) (l.text ++ rest) =
      (Document.statements? fuel rest).map (l.statement :: ·) := by
  obtain ⟨c, cs, hcs, hc⟩ := h.exists_text_eq_cons rest
  have hskip : skipBlanks (l.text ++ rest) = l.text ++ rest := by
    rw [hcs, skipBlanks_cons (not_isBlank_of_isBare hc)]
  rw [Document.statements?, hskip]
  split
  · next hnil => exact absurd (hcs.symm.trans hnil) (List.cons_ne_nil c cs)
  · rw [h.lineEnd?, h.statement?]
    have hend : Document.lineEnd? ('\n' :: rest) = some rest := rfl
    simp only [Option.bind_eq_bind, Option.bind_some, hend]
    cases Document.statements? fuel rest <;> rfl

end Readable

/-- A document of readable lines is read line by line. -/
theorem statements?_lines {lines : List Entry} (h : ∀ l ∈ lines, l.Readable) {fuel : Nat}
    (hfuel : lines.length < fuel) :
    statements? fuel (lines.flatMap Entry.text) = some (lines.map Entry.statement) := by
  induction lines generalizing fuel with
  | nil =>
    obtain ⟨fuel, rfl⟩ := Nat.exists_eq_succ_of_ne_zero (Nat.ne_of_gt hfuel)
    rfl
  | cons l lines ih =>
    obtain ⟨fuel, rfl⟩ := Nat.exists_eq_succ_of_ne_zero (Nat.ne_of_gt (Nat.zero_lt_of_lt hfuel))
    obtain ⟨hl, hlines⟩ := List.forall_mem_cons.mp h
    rw [List.flatMap_cons, hl.statements?, ih hlines (Nat.lt_of_succ_lt_succ hfuel)]
    rfl

/-! ## The table of a document -/

namespace Table

/-- A new name goes to the end of the table. -/
theorem assign?_of_not_mem {t : Table} {name : String} (h : name ∉ t.map Prod.fst) (node : Node) :
    assign? node [name] t = some (t ++ [(name, node)]) := by
  unfold assign?
  induction t with
  | nil => rfl
  | cons entry t ih =>
    obtain ⟨other, value⟩ := entry
    rw [List.map_cons, List.mem_cons, not_or] at h
    rw [alter?, if_neg fun heq => h.1 heq.symm, ih h.2]
    rfl

/-- Assignments to names that are all different are the entries of the table. -/
theorem carryOut?_assignments {entries : Table} {t : Table}
    (h : ((t ++ entries).map Prod.fst).Nodup) :
    carryOut? [] (entries.map fun p => .assign [p.1] p.2) t = some (t ++ entries) := by
  induction entries generalizing t with
  | nil => simp only [List.map_nil, carryOut?, List.append_nil]
  | cons entry entries ih =>
    obtain ⟨name, node⟩ := entry
    have hnew : name ∉ t.map Prod.fst := by
      rw [List.map_append, List.map_cons] at h
      exact fun hmem => (List.nodup_append.mp h).2.2 name hmem name List.mem_cons_self rfl
    have hrest : ((t ++ [(name, node)] ++ entries).map Prod.fst).Nodup := by
      rwa [List.append_assoc, List.singleton_append]
    rw [List.map_cons, carryOut?, within?, assign?_of_not_mem hnew]
    refine (ih hrest).trans ?_
    rw [List.append_assoc, List.singleton_append]

end Table

/-- A document of readable lines with different names gives the table of their values. -/
theorem ofText?_lines {text : String} {lines : List Entry}
    (htext : text.toList = lines.flatMap Entry.text) (hread : ∀ l ∈ lines, l.Readable)
    (hnames : (lines.map fun l => String.ofList l.name).Nodup) :
    ofText? text = some (lines.map fun l => (String.ofList l.name, l.node)) := by
  -- a bare name does not begin with a byte order mark
  have hmark : ∀ rest, lines.flatMap Entry.text ≠ '\uFEFF' :: rest := by
    cases lines with
    | nil => exact fun _ => nofun
    | cons l lines =>
      intro rest hrest
      obtain ⟨c, cs, hcs, hc⟩ :=
        (hread l List.mem_cons_self).exists_text_eq_cons (lines.flatMap Entry.text)
      rw [List.flatMap_cons, hcs] at hrest
      exact ne_of_isBare hc rfl (List.cons.inj hrest).1
  have hlength : lines.length < (lines.flatMap Entry.text).length + 1 := by
    have hlong : ∀ lines : List Entry, lines.length ≤ (lines.flatMap Entry.text).length := by
      intro lines
      induction lines with
      | nil => exact Nat.le_refl 0
      | cons l lines ih =>
        simp only [List.flatMap_cons, List.length_append, List.length_cons, Entry.text]
        omega
    exact Nat.lt_succ_of_le (hlong lines)
  have hentries : lines.map Entry.statement =
      (lines.map fun l => (String.ofList l.name, l.node)).map fun p => .assign [p.1] p.2 := by
    rw [List.map_map]
    rfl
  unfold ofText?
  rw [htext]
  split
  · next rest hrest => exact absurd hrest (hmark rest)
  · dsimp only
    rw [statements?_lines hread hlength, Option.bind_some, Table.ofStatements?, hentries,
      Table.carryOut?_assignments (by rw [List.nil_append, List.map_map]; exact hnames),
      List.nil_append]

end SoundSequencer.Document
