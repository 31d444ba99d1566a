/-
SoundSequencer.Document.Reader — reading a document of named values.

A line holds a statement, a comment behind `#`, or nothing. Names are bare
(letters, digits, `_`, `-`) or quoted, and joined by dots to paths. Values
are whole numbers, strings, the empty array and tables; there is no reading
of any other value.

* `integer?` reads a number: signed decimal, or unsigned with `0x`, `0o` or
  `0b`; an underscore may stand between two digits.
* `text?` reads a string: in double quotes with escapes, in single quotes
  without, and either in three quotes over several lines.
* `value?`, `statement?`, `statements?` read the rest of the grammar.
* `ofText?` reads a whole document.

A reader takes the text and answers with what it read and the rest.
-/
import SoundSequencer.Document.Format
import SoundSequencer.Document.Tree

namespace SoundSequencer.Document

/-! ## Characters and lines -/

/-- A space or a tab. -/
def isBlank (c : Char) : Bool := c == ' ' || c == '\t'

/-- A character that may stand in a line: no control character but the tab. -/
def isInLine (c : Char) : Bool := c == '\t' || (' ' ≤ c && c != '\x7f')

/-- The text without the blanks at its front. -/
def skipBlanks (cs : List Char) : List Char := cs.dropWhile isBlank

/-- The text behind the line break at its front. -/
def lineBreak? : List Char → Option (List Char)
  | '\n' :: rest => some rest
  | '\r' :: '\n' :: rest => some rest
  | _ => none

/-- The text behind the end of a line, where nothing but blanks and a comment
stand in front of it. The end of the text ends a line. -/
def lineEnd? (cs : List Char) : Option (List Char) :=
  let atEnd : List Char → Option (List Char)
    | [] => some []
    | rest => lineBreak? rest
  match skipBlanks cs with
  | '#' :: rest => atEnd (rest.dropWhile isInLine)
  | rest => atEnd rest

/-- The text without the blanks and line breaks at its front. -/
def skipSpace : List Char → List Char
  | '\r' :: '\n' :: rest => skipSpace rest
  | c :: rest => if isBlank c || c == '\n' then skipSpace rest else c :: rest
  | [] => []

/-- The text without the blanks, comments and line breaks at its front, of at
most `fuel` lines. -/
def skipLines : (fuel : Nat) → List Char → List Char
  | 0, cs => cs
  | fuel + 1, cs =>
    match skipBlanks cs with
    | [] => []
    | rest =>
      match lineEnd? rest with
      | some next => skipLines fuel next
      | none => rest

/-! ## Numbers -/

/-- The value of a digit below `base`. -/
def digit? (base : Nat) (c : Char) : Option Nat :=
  let value :=
    if c.isDigit then some (c.toNat - '0'.toNat)
    else if 'a' ≤ c && c ≤ 'f' then some (c.toNat - 'a'.toNat + 10)
    else if 'A' ≤ c && c ≤ 'F' then some (c.toNat - 'A'.toNat + 10)
    else none
  value.filter (· < base)

/-- Reads the digits that follow one another behind a number `high`, with an
underscore at most between two of them. -/
def moreDigits (base high : Nat) : List Char → Nat × List Char
  | '_' :: c :: rest =>
    match digit? base c with
    | some d => moreDigits base (high * base + d) rest
    | none => (high, '_' :: c :: rest)
  | c :: rest =>
    match digit? base c with
    | some d => moreDigits base (high * base + d) rest
    | none => (high, c :: rest)
  | [] => (high, [])

/-- Reads a number of at least one digit. -/
def digits? (base : Nat) : List Char → Option (Nat × List Char)
  | [] => none
  | c :: rest => (digit? base c).map fun d => moreDigits base d rest

/-- Reads a decimal number, which does not start with a zero unless it is one. -/
def decimal? : List Char → Option (Nat × List Char)
  | '0' :: rest => some (0, rest)
  | cs => digits? 10 cs

/-- Reads a whole number. -/
def integer? : List Char → Option (Int × List Char)
  | '0' :: 'x' :: rest => (digits? 16 rest).map fun (n, rest) => (n, rest)
  | '0' :: 'o' :: rest => (digits? 8 rest).map fun (n, rest) => (n, rest)
  | '0' :: 'b' :: rest => (digits? 2 rest).map fun (n, rest) => (n, rest)
  | '+' :: rest => (decimal? rest).map fun (n, rest) => (n, rest)
  | '-' :: rest => (decimal? rest).map fun (n, rest) => (-n, rest)
  | cs => (decimal? cs).map fun (n, rest) => (n, rest)

/-! ## Strings -/

/-- The character whose number is written in the given hexadecimal digits. -/
def scalar? (hex : List Char) : Option Char := do
  let n ← hex.foldlM (fun n c => (digit? 16 c).map (n * 16 + ·)) 0
  if n.isValidChar then some (Char.ofNat n) else none

/-- Reads the part of an escape behind its backslash. -/
def escape? : List Char → Option (Char × List Char)
  | 'b' :: rest => some ('\x08', rest)
  | 't' :: rest => some ('\t', rest)
  | 'n' :: rest => some ('\n', rest)
  | 'f' :: rest => some ('\x0c', rest)
  | 'r' :: rest => some ('\r', rest)
  | '"' :: rest => some ('"', rest)
  | '\\' :: rest => some ('\\', rest)
  | 'u' :: rest =>
    if rest.length < 4 then none else (scalar? (rest.take 4)).map fun c => (c, rest.drop 4)
  | 'U' :: rest =>
    if rest.length < 8 then none else (scalar? (rest.take 8)).map fun c => (c, rest.drop 8)
  | _ => none

/-- Reads a string up to its double quote, in at most `fuel` steps. -/
def escaped? : (fuel : Nat) → List Char → Option (List Char × List Char)
  | 0, _ => none
  | _, [] => none
  | _, '"' :: rest => some ([], rest)
  | fuel + 1, '\\' :: rest => do
    let (c, rest) ← escape? rest
    let (cs, rest) ← escaped? fuel rest
    return (c :: cs, rest)
  | fuel + 1, c :: rest => do
    if isInLine c then
      let (cs, rest) ← escaped? fuel rest
      return (c :: cs, rest)
    else none

/-- Reads a string up to its single quote. -/
def literal? : List Char → Option (List Char × List Char)
  | [] => none
  | '\'' :: rest => some ([], rest)
  | c :: rest => do
    if isInLine c then
      let (cs, rest) ← literal? rest
      return (c :: cs, rest)
    else none

/-- Reads a string of several lines up to its three double quotes, in at most
`fuel` steps. A backslash at the end of a line skips the space behind it. -/
def escapedLines? : (fuel : Nat) → List Char → Option (List Char × List Char)
  | 0, _ => none
  | _, [] => none
  | _, '"' :: '"' :: '"' :: rest => some ([], rest)
  | fuel + 1, '\\' :: rest =>
    match lineBreak? (skipBlanks rest) with
    | some rest => escapedLines? fuel (skipSpace rest)
    | none => do
      let (c, rest) ← escape? rest
      let (cs, rest) ← escapedLines? fuel rest
      return (c :: cs, rest)
  | fuel + 1, c :: rest =>
    match lineBreak? (c :: rest) with
    | some rest => do
      let (cs, rest) ← escapedLines? fuel rest
      return ('\n' :: cs, rest)
    | none => do
      if isInLine c then
        let (cs, rest) ← escapedLines? fuel rest
        return (c :: cs, rest)
      else none

/-- Reads a string of several lines up to its three single quotes, in at most
`fuel` steps. -/
def literalLines? : (fuel : Nat) → List Char → Option (List Char × List Char)
  | 0, _ => none
  | _, [] => none
  | _, '\'' :: '\'' :: '\'' :: rest => some ([], rest)
  | fuel + 1, c :: rest =>
    match lineBreak? (c :: rest) with
    | some rest => do
      let (cs, rest) ← literalLines? fuel rest
      return ('\n' :: cs, rest)
    | none => do
      if isInLine c then
        let (cs, rest) ← literalLines? fuel rest
        return (c :: cs, rest)
      else none

/-- The text of a string of several lines, without a line break at its front. -/
def firstLine (cs : List Char) : List Char := (lineBreak? cs).getD cs

/-- Reads a string in one line. -/
def lineText? : List Char → Option (String × List Char)
  | '"' :: rest => (escaped? (rest.length + 1) rest).map fun (cs, rest) => (String.ofList cs, rest)
  | '\'' :: rest => (literal? rest).map fun (cs, rest) => (String.ofList cs, rest)
  | _ => none

/-- Reads a string. -/
def text? : List Char → Option (String × List Char)
  | '"' :: '"' :: '"' :: rest =>
    (escapedLines? (rest.length + 1) (firstLine rest)).map fun (cs, rest) =>
      (String.ofList cs, rest)
  | '\'' :: '\'' :: '\'' :: rest =>
    (literalLines? (rest.length + 1) (firstLine rest)).map fun (cs, rest) =>
      (String.ofList cs, rest)
  | cs => lineText? cs

/-! ## Paths and values -/

/-- Reads a name. -/
def name? (cs : List Char) : Option (String × List Char) :=
  match cs.takeWhile isBare with
  | [] => lineText? cs
  | bare => some (String.ofList bare, cs.dropWhile isBare)

/-- Reads names with dots between them, at most `fuel` of them. -/
def path? : (fuel : Nat) → List Char → Option (List String × List Char)
  | 0, _ => none
  | fuel + 1, cs => do
    let (name, rest) ← name? (skipBlanks cs)
    match skipBlanks rest with
    | '.' :: rest =>
      let (path, rest) ← path? fuel rest
      return (name :: path, rest)
    | rest => return ([name], rest)

mutual

/-- Reads a value, whose tables stand at most `fuel` deep and wide. -/
def value? : (fuel : Nat) → List Char → Option (Node × List Char)
  | 0, _ => none
  | _ + 1, '[' :: rest =>
    match skipLines rest.length rest with
    | ']' :: rest => some (.emptyArray, rest)
    | _ => none
  | fuel + 1, '{' :: rest =>
    match skipBlanks rest with
    | '}' :: rest => some (.table .inline [], rest)
    | rest => do
      let (assignments, rest) ← assignments? fuel rest
      let entries ← Table.ofAssignments? assignments
      return (.table .inline entries, rest)
  | _ + 1, cs =>
    match text? cs with
    | some (s, rest) => some (.text s, rest)
    | none => (integer? cs).map fun (n, rest) => (.integer n, rest)

/-- Reads `path = value`. -/
def assignment? : (fuel : Nat) → List Char → Option ((List String × Node) × List Char)
  | 0, _ => none
  | fuel + 1, cs => do
    let (path, rest) ← path? cs.length cs
    match rest with
    | '=' :: rest =>
      let (value, rest) ← value? fuel (skipBlanks rest)
      return ((path, value), rest)
    | _ => none

/-- Reads the assignments of a table up to its closing brace. -/
def assignments? : (fuel : Nat) → List Char → Option (List (List String × Node) × List Char)
  | 0, _ => none
  | fuel + 1, cs => do
    let (assignment, rest) ← assignment? fuel cs
    match skipBlanks rest with
    | '}' :: rest => return ([assignment], rest)
    | ',' :: rest =>
      let (assignments, rest) ← assignments? fuel rest
      return (assignment :: assignments, rest)
    | _ => none

end

/-! ## Documents -/

/-- Reads a statement. -/
def statement? (cs : List Char) : Option (Statement × List Char) :=
  match cs with
  | '[' :: rest => do
    match ← path? rest.length rest with
    | (path, ']' :: rest) => return (.header path, rest)
    | _ => none
  | cs => (assignment? (cs.length + 1) cs).map fun ((path, value), rest) =>
    (.assign path value, rest)

/-- Reads at most `fuel` lines up to the end of the text. -/
def statements? : (fuel : Nat) → List Char → Option (List Statement)
  | 0, _ => none
  | fuel + 1, cs =>
    match skipBlanks cs with
    | [] => some []
    | cs =>
      match lineEnd? cs with
      | some rest => statements? fuel rest
      | none => do
        let (statement, rest) ← statement? cs
        let rest ← lineEnd? rest
        let statements ← statements? fuel rest
        return statement :: statements

/-- Reads a document, before which a byte order mark may stand. -/
def ofText? (text : String) : Option Table :=
  let cs := match text.toList with
    | '\uFEFF' :: rest => rest
    | cs => cs
  (statements? (cs.length + 1) cs).bind Table.ofStatements?

end SoundSequencer.Document
