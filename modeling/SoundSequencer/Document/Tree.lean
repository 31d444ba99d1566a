/-
SoundSequencer.Document.Tree — the contents of a document of named values.

A document is a list of statements: `path = value` puts a value into the
table that is open, `[path]` opens another table.

* `Node` is a value, `Table` a list of named values.
* `Statement` is a line of a document; `Table.ofStatements?` carries the
  statements out.
* No name is given twice. A table that stands under a `[path]` of its own is
  opened once; one that came to be by a dotted path is never opened, and
  only such a one is extended by a dotted path.
-/

namespace SoundSequencer.Document

/-- How a table came to be. -/
inductive Origin where
  /-- As part of the path to a table that was opened. -/
  | implied
  /-- By being opened. -/
  | opened
  /-- As part of a dotted path to a value. -/
  | dotted
  /-- Written out as a value. -/
  | inline
  deriving Repr, DecidableEq

/-- A value. Of the arrays there is only the empty one. -/
inductive Node where
  | integer (value : Int)
  | text (value : String)
  | emptyArray
  | table (origin : Origin) (entries : List (String × Node))
  deriving Repr

/-- Named values in the order in which they were given. -/
abbrev Table := List (String × Node)

namespace Node

/-- Whether the node is an array or a table without contents. -/
def isEmpty : Node → Bool
  | .emptyArray => true
  | .table _ [] => true
  | _ => false

end Node

/-- A line of a document. -/
inductive Statement where
  /-- Gives a value to a path within the open table. -/
  | assign (path : List String) (value : Node)
  /-- Opens a table. -/
  | header (path : List String)
  deriving Repr

namespace Table

/-- The value of a name. -/
def find? (t : Table) (name : String) : Option Node := t.lookup name

/-- The table with the value of `name` made from what it was, if `f` allows
it; a new name goes to the end. -/
def alter? (name : String) (f : Option Node → Option Node) : Table → Option Table
  | [] => (f none).map fun node => [(name, node)]
  | (other, node) :: rest =>
    if other = name then (f (some node)).map fun node => (other, node) :: rest
    else (alter? name f rest).map ((other, node) :: ·)

/-- The table with a value at a path. -/
def assign? (value : Node) : (path : List String) → Table → Option Table
  | [], _ => none
  | [name], t => t.alter? name fun
    | none => some value
    | some _ => none
  | name :: path, t => t.alter? name fun
    | none => (assign? value path []).map (.table .dotted)
    | some (.table .dotted entries) => (assign? value path entries).map (.table .dotted)
    | some _ => none

/-- The table with a table opened at a path. -/
def openAt? : (path : List String) → Table → Option Table
  | [], _ => none
  | [name], t => t.alter? name fun
    | none => some (.table .opened [])
    | some (.table .implied entries) => some (.table .opened entries)
    | some _ => none
  | name :: path, t => t.alter? name fun
    | none => (openAt? path []).map (.table .implied)
    | some (.table .inline _) => none
    | some (.table origin entries) => (openAt? path entries).map (.table origin)
    | some _ => none

/-- The table with `f` applied to the table at a path. -/
def within? (f : Table → Option Table) : (path : List String) → Table → Option Table
  | [], t => f t
  | name :: path, t => t.alter? name fun
    | some (.table origin entries) => (within? f path entries).map (.table origin)
    | _ => none

/-- Carries statements out on a table, of which the table at `current` is open. -/
def carryOut? : (current : List String) → List Statement → Table → Option Table
  | _, [], t => some t
  | current, .assign path value :: rest, t => do
    carryOut? current rest (← t.within? (assign? value path) current)
  | _, .header path :: rest, t => do carryOut? path rest (← t.openAt? path)

/-- The contents of a document. -/
def ofStatements? (statements : List Statement) : Option Table := carryOut? [] statements []

/-- The table of some paths with their values. -/
def ofAssignments? (assignments : List (List String × Node)) : Option Table :=
  assignments.foldlM (fun t (path, value) => assign? value path t) []

end Table

end SoundSequencer.Document
