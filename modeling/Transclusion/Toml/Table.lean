import Transclusion.Toml.Item

/-!
# Tables of a TOML document

The statements of a document define one table together. A table may be spread over several
statements, but each key only once, and what a key leads to must be open to it:

* a header names a table once, and passes any table on the way to others;
* a dotted key passes tables that no header has named, and no header may name them from then on;
* an item that stands behind a key, inline tables and arrays included, is closed.
-/

namespace Transclusion.Toml

/-- What made a table. -/
inductive Origin
  /-- Its own header. -/
  | header
  /-- The header of a table below it. -/
  | passage
  /-- A dotted key, or a header, and a dotted key has passed it since. -/
  | dotted
  deriving DecidableEq, Repr

/-- What a key leads to while a document is put together. -/
inductive Node
  /-- An item that is closed. -/
  | leaf (item : Item)
  | table (origin : Origin) (entries : List (String × Node))
  /-- An array of tables with a header each, the last one first. -/
  | tables (last : List (String × Node)) (before : List (List (String × Node)))

/-- The entries of a table under construction. -/
abbrev Entries := List (String × Node)

namespace Entries

/-- What a key leads to. -/
def get? (key : String) : Entries → Option Node
  | [] => none
  | (k, node) :: rest => if k = key then some node else get? key rest

/-- Entries where a key leads to a node, in place of what it led to. -/
def put (key : String) (node : Node) : Entries → Entries
  | [] => [(key, node)]
  | (k, old) :: rest => if k = key then (k, node) :: rest else (k, old) :: put key node rest

/-- Entries with the item of a key, which may be dotted. -/
def define (item : Item) (entries : Entries) : List String → Except Error Entries
  | [] => .ok entries
  | [key] =>
      match entries.get? key with
      | none => .ok (entries.put key (.leaf item))
      | some _ => .error (.duplicateKey key)
  | key :: next :: path =>
      match entries.get? key with
      | none => do return entries.put key (.table .dotted (← define item [] (next :: path)))
      | some (.table origin inner) =>
          if origin = .header then .error (.duplicateKey key)
          else do return entries.put key (.table .dotted (← define item inner (next :: path)))
      | some (.tables last before) =>
          if path.isEmpty then .error (.duplicateKey key)
          else do return entries.put key (.tables (← define item last (next :: path)) before)
      | some (.leaf _) => .error (.notExtensible key)

/-- Entries where the table or array at the path of a header is made from what was there. -/
def enter (make : String → Option Node → Except Error Node) (entries : Entries) :
    List String → Except Error Entries
  | [] => .ok entries
  | [key] => do return entries.put key (← make key (entries.get? key))
  | key :: next :: path =>
      match entries.get? key with
      | none => do return entries.put key (.table .passage (← enter make [] (next :: path)))
      | some (.table origin inner) => do
          return entries.put key (.table origin (← enter make inner (next :: path)))
      | some (.tables last before) => do
          return entries.put key (.tables (← enter make last (next :: path)) before)
      | some (.leaf _) => .error (.notExtensible key)

end Entries

/-! ## Items -/

mutual

/-- The item that a node stands for. -/
def Node.item : Node → Item
  | .leaf item => item
  | .table _ entries => .table (entriesItems entries)
  | .tables last before => .array ((tablesItems before).reverse ++ [.table (entriesItems last)])

/-- The fields that entries stand for. -/
def entriesItems : List (String × Node) → List (String × Item)
  | [] => []
  | (key, node) :: rest => (key, node.item) :: entriesItems rest

/-- The items that some tables stand for. -/
def tablesItems : List (List (String × Node)) → List Item
  | [] => []
  | entries :: rest => .table (entriesItems entries) :: tablesItems rest

end

/-! ## Statements -/

/-- A key, with its parts, and its item. -/
abbrev Assignment := List String × Item

/-- A statement of a document. -/
inductive Statement
  | assignment (key : List String) (item : Item)
  /-- The header of a table, or of a table in an array. -/
  | header (key : List String) (isArray : Bool)
  deriving Repr

/-- A header and the assignments below it. -/
structure Section where
  key : List String
  isArray : Bool
  body : List Assignment
  deriving Repr

/-- The assignments before the first header, and the sections. -/
def sections : List Statement → List Assignment × List Section
  | [] => ([], [])
  | .assignment key item :: rest =>
      let (body, all) := sections rest
      ((key, item) :: body, all)
  | .header key isArray :: rest =>
      let (body, all) := sections rest
      ([], ⟨key, isArray, body⟩ :: all)

/-- Entries with some assignments. -/
def defineAll (entries : Entries) (body : List Assignment) : Except Error Entries :=
  body.foldlM (fun entries (key, item) => entries.define item key) entries

/-- What the key of a section leads to once the section is there. -/
def Section.node (sec : Section) (key : String) : Option Node → Except Error Node
  | none => do
      let entries ← defineAll [] sec.body
      return if sec.isArray then .tables entries [] else .table .header entries
  | some (.tables last before) => do
      if sec.isArray then return .tables (← defineAll [] sec.body) (last :: before)
      else throw (.duplicateKey key)
  | some (.table .passage entries) => do
      if sec.isArray then throw (.duplicateKey key)
      else return .table .header (← defineAll entries sec.body)
  | some _ => .error (.duplicateKey key)

/-- The table that some assignments define. -/
def tableOf (body : List Assignment) : Except Error Item := do
  return .table (entriesItems (← defineAll [] body))

/-- The table that the statements of a document define. -/
def documentOf (statements : List Statement) : Except Error Item := do
  let (body, all) := sections statements
  let entries ← defineAll [] body
  let entries ← all.foldlM (fun entries sec => Entries.enter sec.node entries sec.key) entries
  return .table (entriesItems entries)

end Transclusion.Toml
