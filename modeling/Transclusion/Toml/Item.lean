import Transclusion.Toml.Error
import Transclusion.Value

/-!
# What a TOML document holds

The items of a document are kept as they are written, and made values when something asks for them
(`Item.value`). It shows where a number is too large, or has letters among its digits: such a number
is an error only if it is asked for.

Who asks says so by a *shape*. A structure may stand as an array of its fields in order, and then
nothing asks for what stands behind the last field.

Two kinds of scalars have no counterpart among values. A date or time stands as a mapping with the
one field `date-time`, its text; a number that is not finite stands as zero. Nothing that reads a
configuration asks for either.
-/

namespace Transclusion.Toml

/-- An item of a document. -/
inductive Item
  | scalar (value : Value)
  /-- A number that no value stands for. -/
  | unreadable (word : String)
  | array (items : List Item)
  | table (fields : List (String × Item))
  deriving Repr

/-- What is asked for. -/
inductive Shape
  /-- All that is there. -/
  | whole
  /-- The fields of a structure, in order. -/
  | fields (shapes : List (String × Shape))
  deriving Repr

/-- What a structure asks for that takes the fields of the given names as they are. -/
def Shape.ofNames (names : List String) : Shape :=
  .fields (names.map fun name => (name, .whole))

/-- What is asked for at a field of a table. Other fields than the structure has are read too. -/
def Shape.field (key : String) : Shape → Shape
  | .whole => .whole
  | .fields shapes => (shapes.lookup key).getD .whole

mutual

def Item.value (shape : Shape) : Item → Except Error Value
  | .scalar value => .ok value
  | .unreadable word => .error (.badScalar word)
  | .array items => do
      match shape with
      | .whole => return .list (← wholeValues items)
      | .fields shapes => return .list (← fieldValues (shapes.map Prod.snd) items)
  | .table fields => do return .map (← entryValues shape fields)

/-- The values of the items of an array. -/
def wholeValues : List Item → Except Error (List Value)
  | [] => .ok []
  | item :: items => do return (← item.value .whole) :: (← wholeValues items)

/-- The values of items that stand for fields of the given shapes. -/
def fieldValues : List Shape → List Item → Except Error (List Value)
  | shape :: shapes, item :: items => do
      return (← item.value shape) :: (← fieldValues shapes items)
  | _, _ => .ok []

/-- The fields of a table with their values. -/
def entryValues (shape : Shape) : List (String × Item) → Except Error Mapping
  | [] => .ok []
  | (key, item) :: rest => do
      return (key, ← item.value (shape.field key)) :: (← entryValues shape rest)

end

end Transclusion.Toml
