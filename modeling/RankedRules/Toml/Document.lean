/-
TOML documents as tables.

The statements of a document build one table. A table may be defined once: by one header, or by
paths in the keys of one other table, or as an inline value, which nothing can add to. Headers may
come in any order, so a table that only the header of a table below it has mentioned can still get
a header of its own. A path that meets an array of tables goes on in its last element.

* `Toml.Item` — a value or table under construction;
* `Toml.capture?` — a table with one more entry;
* `Toml.atHeader?` — a change at the place that a header names;
* `Toml.ofInline?` — a value as it is written, with its entries put together;
* `Toml.document?` — the table of a document, `Toml.parse?` from its text.
-/
import RankedRules.Toml.Statement

namespace RankedRules.Toml

/-- What stands under a name while a document is read: a value; a table, which may be implied by
what is below it and may have been made by a path in a key; or the elements of an array of tables,
the last one first. -/
inductive Item
  | value (value : Toml)
  | table (implied dotted : Bool) (members : List (String × Item))
  | tables (elements : List (List (String × Item)))

/-- The members of a table under construction. -/
abbrev Members := List (String × Item)

/-- Members with a new one, whose name must be new. -/
def insertNew? (name : String) (item : Item) (members : Members) : Option Members :=
  if (Entries.find? name members).isSome then none else some (Entries.insert name item members)

/-- Members with a value at the end of a path, which goes through tables made by paths. -/
def captureBelow? (value : Toml) : List String → Bool → Members → Option Members
  | [], _, _ => none
  | [name], dotted, members => if dotted then insertNew? name (.value value) members else none
  | name :: rest, _, members =>
    match Entries.find? name members with
    | none => do
      let inner ← captureBelow? value rest true []
      some (Entries.insert name (.table true true inner) members)
    | some (.table true dotted inner) => do
      let inner ← captureBelow? value rest dotted inner
      some (Entries.insert name (.table true dotted inner) members)
    | some (.tables (last :: earlier)) => do
      let last ← captureBelow? value rest false last
      some (Entries.insert name (.tables (last :: earlier)) members)
    | some _ => none

/-- Members with one more entry. -/
def capture? (members : Members) (path : List String) (value : Toml) : Option Members :=
  match path with
  | [name] => insertNew? name (.value value) members
  | path => captureBelow? value path false members

/-- Members changed at the place that a path of headers leads to. Tables that are missing on the
way are implied. -/
def atHeader? (change : Members → Option Members) : List String → Members → Option Members
  | [], members => change members
  | name :: rest, members =>
    match Entries.find? name members with
    | none => do
      let inner ← atHeader? change rest []
      some (Entries.insert name (.table true false inner) members)
    | some (.table implied dotted inner) => do
      let inner ← atHeader? change rest inner
      some (Entries.insert name (.table implied dotted inner) members)
    | some (.tables (last :: earlier)) => do
      let last ← atHeader? change rest last
      some (Entries.insert name (.tables (last :: earlier)) members)
    | some _ => none

mutual

/-- The finished value of an item. -/
def Item.finish : Item → Toml
  | .value value => value
  | .table _ _ members => .table (finishMembers members)
  | .tables elements => .array (finishTables elements).reverse

/-- The finished members of a table. -/
def finishMembers : List (String × Item) → List (String × Toml)
  | [] => []
  | (name, item) :: rest => (name, item.finish) :: finishMembers rest

/-- The finished elements of an array of tables. -/
def finishTables : List (List (String × Item)) → List Toml
  | [] => []
  | members :: rest => .table (finishMembers members) :: finishTables rest

end

mutual

/-- The value of a value as it is written. -/
def ofInline? : Inline → Option Toml
  | .atom value => some value
  | .list items => (ofInlines? items).map .array
  | .entries members => (captureInlines? [] members).map fun built => .table (finishMembers built)

/-- The values of several values as they are written. -/
def ofInlines? : List Inline → Option (List Toml)
  | [] => some []
  | item :: rest => do
    let value ← ofInline? item
    let values ← ofInlines? rest
    some (value :: values)

/-- Members with further entries as they are written. -/
def captureInlines? (members : Members) : List (List String × Inline) → Option Members
  | [] => some members
  | (path, item) :: rest => do
    let value ← ofInline? item
    captureInlines? (← capture? members path value) rest

end

/-- An entry as it is written. -/
abbrev Entry := List String × Inline

/-- A header, of an element of an array or of a table, with the entries under it. -/
structure Headed where
  isElement : Bool
  path : List String
  entries : List Entry

/-- The entries in front of the first header, and the headers with the entries under them. -/
def grouped : List Statement → List Entry × List Headed
  | [] => ([], [])
  | .entry path value :: rest =>
    let (entries, sections) := grouped rest
    ((path, value) :: entries, sections)
  | .header isElement path :: rest =>
    let (entries, sections) := grouped rest
    ([], ⟨isElement, path, entries⟩ :: sections)

/-- A table with its own header, whose entries are given. -/
def openTable? (entries : List Entry) (name : String) (members : Members) :
    Option Members := do
  let start ←
    match Entries.find? name members with
    | none => some []
    | some (.table true false inner) => some inner
    | some _ => none
  some (Entries.insert name (.table false false (← captureInlines? start entries)) members)

/-- An array of tables with one more element, whose entries are given. -/
def addElement? (entries : List Entry) (name : String) (members : Members) :
    Option Members := do
  let earlier ←
    match Entries.find? name members with
    | none => some []
    | some (.tables elements) => some elements
    | some _ => none
  let element ← captureInlines? [] entries
  some (Entries.insert name (.tables (element :: earlier)) members)

/-- The members of a document with those under one more header. -/
def addHeaded? (members : Members) (headed : Headed) : Option Members := do
  let name ← headed.path.getLast?
  let change :=
    if headed.isElement then addElement? headed.entries name else openTable? headed.entries name
  atHeader? change headed.path.dropLast members

/-- The table of a document. -/
def document? (statements : List Statement) : Option (List (String × Toml)) := do
  let (entries, sections) := grouped statements
  let root ← captureInlines? [] entries
  some (finishMembers (← sections.foldlM addHeaded? root))

/-- The table of the text of a document. -/
def parse? (text : List Char) : Option (List (String × Toml)) := do
  document? (← statements? text)

end RankedRules.Toml
