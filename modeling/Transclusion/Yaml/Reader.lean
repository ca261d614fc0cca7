import Transclusion.Yaml.Node
import Transclusion.Yaml.Schema

/-!
# Reading a YAML text

`read` gives the value of a YAML text with at most one document, from its tree.

## Anchors

Anchors are numbered in the order of the text, a node before its parts: a new anchor takes the
number of names known so far, and an alias refers to the number its name has at that place. A
name that is given again takes a number that the next new name takes too; then the later node
answers to both (`Node.anchored`).

## Limits

Collections are read up to 128 levels deep, those behind aliases included, so that a node that
holds an alias for itself is an error. So is following more than a hundred aliases for each part
of the document.
-/

namespace Transclusion.Yaml

/-- A node whose anchors are numbered. -/
abbrev NumberedNode := Node Nat

namespace Node

/-! ## Numbering the anchors -/

/-- The names known so far with their numbers, latest first. A name counts once, however often it
is given. -/
abbrev Names := List (String × Nat)

/-- Gives a name the next number, and forgets the number it had. -/
def Names.define (names : Names) (name : String) : Nat × Names :=
  (names.length, (name, names.length) :: names.filter (·.1 ≠ name))

/-- Gives the anchor of a node, if it has one, the next number. -/
def Names.defineAnchor (names : Names) : Option String → Option Nat × Names
  | none => (none, names)
  | some name => let (n, names) := names.define name; (some n, names)

mutual

/-- Numbers the anchors of a node and of its parts. -/
def number (names : Names) : NamedNode → Except Error (NumberedNode × Names)
  | .alias name =>
      match names.lookup name with
      | some n => .ok (.alias n, names)
      | none => .error (.unknownAnchor name)
  | .scalar anchor tag plain text =>
      let (anchor, names) := names.defineAnchor anchor
      .ok (.scalar anchor tag plain text, names)
  | .sequence anchor tag items => do
      let (anchor, names) := names.defineAnchor anchor
      let (items, names) ← numberItems names items
      return (.sequence anchor tag items, names)
  | .mapping anchor tag entries => do
      let (anchor, names) := names.defineAnchor anchor
      let (entries, names) ← numberEntries names entries
      return (.mapping anchor tag entries, names)

/-- Numbers the anchors of items in order. -/
def numberItems (names : Names) : List NamedNode → Except Error (List NumberedNode × Names)
  | [] => .ok ([], names)
  | item :: items => do
      let (item, names) ← number names item
      let (items, names) ← numberItems names items
      return (item :: items, names)

/-- Numbers the anchors of entries in order, a key before its value. -/
def numberEntries (names : Names) :
    List (NamedNode × NamedNode) → Except Error (List (NumberedNode × NumberedNode) × Names)
  | [] => .ok ([], names)
  | (key, value) :: entries => do
      let (key, names) ← number names key
      let (value, names) ← number names value
      let (entries, names) ← numberEntries names entries
      return ((key, value) :: entries, names)

end

/-- The anchor of a node with the node, if it has one. -/
def mark (anchor : Option Nat) (node : NumberedNode) : List (Nat × NumberedNode) :=
  match anchor with
  | some n => [(n, node)]
  | none => []

mutual

/-- The nodes with an anchor in the order of the text, a node before its parts. -/
def anchored : NumberedNode → List (Nat × NumberedNode)
  | .alias _ => []
  | .scalar anchor tag plain text => mark anchor (.scalar anchor tag plain text)
  | .sequence anchor tag items =>
      mark anchor (.sequence anchor tag items) ++ anchoredItems items
  | .mapping anchor tag entries =>
      mark anchor (.mapping anchor tag entries) ++ anchoredEntries entries

/-- The nodes with an anchor among items and their parts. -/
def anchoredItems : List NumberedNode → List (Nat × NumberedNode)
  | [] => []
  | item :: items => anchored item ++ anchoredItems items

/-- The nodes with an anchor among entries and their parts. -/
def anchoredEntries : List (NumberedNode × NumberedNode) → List (Nat × NumberedNode)
  | [] => []
  | (key, value) :: entries => anchored key ++ anchored value ++ anchoredEntries entries

end

mutual

/-- The number of parts of a node: a text or an alias is one, and a collection has one at either
end. -/
def size : NumberedNode → Nat
  | .alias _ => 1
  | .scalar .. => 1
  | .sequence _ _ items => 2 + sizeItems items
  | .mapping _ _ entries => 2 + sizeEntries entries

/-- The number of parts of items. -/
def sizeItems : List NumberedNode → Nat
  | [] => 0
  | item :: items => size item + sizeItems items

/-- The number of parts of entries. -/
def sizeEntries : List (NumberedNode × NumberedNode) → Nat
  | [] => 0
  | (key, value) :: entries => size key + size value + sizeEntries entries

end

/-! ## Values -/

/-- What aliases refer to, and how many may be followed. -/
structure Scope where
  /-- The nodes with an anchor, later ones first. -/
  anchors : List (Nat × NumberedNode)
  /-- The most aliases that may be followed. -/
  limit : Nat

/-- The node that a node stands for, and how many aliases have been followed then. -/
def target (scope : Scope) (node : NumberedNode) (followed : Nat) :
    Except Error (NumberedNode × Nat) :=
  match node with
  | .alias n =>
      if scope.limit ≤ followed then .error .tooManyAliases
      else
        match scope.anchors.lookup n with
        | some node => .ok (node, followed + 1)
        | none => .error (.unknownAnchor (toString n))
  | _ => .ok (node, followed)

/-- The text of a key. Keys are texts whatever they look like, and have no use for tags. -/
def keyText (scope : Scope) (node : NumberedNode) (followed : Nat) :
    Except Error (String × Nat) := do
  match ← target scope node followed with
  | (.scalar _ _ _ text, followed) => return (text, followed)
  | _ => .error .keyNotScalar

/-- Refuses a tag of the document's own on a collection; other tags on collections say nothing. -/
def checkTag (tag : Option Octets) : Except Error Unit :=
  if tag.any isCustomTag then .error .customTag else .ok ()

/-- How nodes are read: given a node and how many aliases have been followed, its value and how many
have been followed then. -/
abbrev Reading := NumberedNode → Nat → Except Error (Value × Nat)

/-- The values of some nodes, last first. -/
def readItems (read : Reading) (items : List NumberedNode) (followed : Nat) :
    Except Error (List Value × Nat) :=
  items.foldlM (fun (values, followed) item => do
    let (value, followed) ← read item followed
    return (value :: values, followed)) ([], followed)

/-- The fields that some entries give. A key that is given again has its last value. -/
def readEntries (scope : Scope) (read : Reading) (entries : List (NumberedNode × NumberedNode))
    (followed : Nat) : Except Error (Mapping × Nat) :=
  entries.foldlM (fun (fields, followed) entry => do
    let (key, followed) ← keyText scope entry.1 followed
    let (value, followed) ← read entry.2 followed
    return (Mapping.insert key value fields, followed)) ([], followed)

/-- The value of a node, given how the parts of a collection are read, if it may have any. -/
def readNode (scope : Scope) (parts : Option Reading) : Reading := fun node followed => do
  let (node, followed) ← target scope node followed
  match node with
  | .alias n => .error (.unknownAnchor (toString n))
  | .scalar _ tag plain text => return (← ofScalar tag plain text, followed)
  | .sequence _ tag items => do
      checkTag tag
      match parts with
      | none => .error .tooDeep
      | some read =>
          let (values, followed) ← readItems read items followed
          return (.list values.reverse, followed)
  | .mapping _ tag entries => do
      checkTag tag
      match parts with
      | none => .error .tooDeep
      | some read =>
          let (fields, followed) ← readEntries scope read entries followed
          return (.map fields, followed)

/-- The value of a node, and how many aliases have been followed then. Collections are read
`depth` levels deep. -/
def toValue (scope : Scope) : (depth : Nat) → Reading
  | 0 => readNode scope none
  | depth + 1 => readNode scope (some (toValue scope depth))

end Node

/-- How many levels deep collections are read. -/
def depthLimit : Nat := 128

/-- The value of a YAML text; null if it holds no document. -/
def read (text : String) : Except Error Value := do
  match ← Node.ofTokens? (← tokens text) with
  | none => return .null
  | some node =>
      let (node, _) ← Node.number [] node
      let scope : Node.Scope := ⟨(Node.anchored node).reverse, 100 * Node.size node⟩
      return (← Node.toValue scope depthLimit node 0).1

end Transclusion.Yaml
