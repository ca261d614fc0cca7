import Transclusion.Decimal.Binary64

/-!
# Values and mappings

The structured data a document carries: a value is null, a boolean, a number, a text, a list or
a map. A mapping is the entries of a map: text keys in the order of their first insertion, each with
a value.

* `Value`, `Mapping` — the data;
* `Mapping.get?`, `Mapping.insert` — look-up, and replacement that keeps a key's place;
* `Mapping.merge` — one mapping laid over another, nested mappings key by key;
* `Mapping.sameFields` — equality that does not look at the order of keys.
-/

namespace Transclusion

/-- A structured value. Integers and floats are different, so `1` and `1.0` are not equal. -/
inductive Value
  | null
  | bool (b : Bool)
  | int (n : Int)
  | float (x : Binary64)
  | str (s : String)
  | list (items : List Value)
  | map (entries : List (String × Value))
  deriving Repr, Inhabited

/-- The entries of a mapping in the order of their first insertion. -/
abbrev Mapping := List (String × Value)

/-! ## Decidable equality -/

mutual

/-- Equality of values can be decided. -/
protected def Value.decEq : (a b : Value) → Decidable (a = b)
  | .null, b => match b with
    | .null => isTrue rfl
    | .bool _ | .int _ | .float _ | .str _ | .list _ | .map _ => isFalse nofun
  | .bool x, b => match b with
    | .bool y => if h : x = y then isTrue (h ▸ rfl) else isFalse fun e => h (Value.bool.inj e)
    | .null | .int _ | .float _ | .str _ | .list _ | .map _ => isFalse nofun
  | .int x, b => match b with
    | .int y => if h : x = y then isTrue (h ▸ rfl) else isFalse fun e => h (Value.int.inj e)
    | .null | .bool _ | .float _ | .str _ | .list _ | .map _ => isFalse nofun
  | .float x, b => match b with
    | .float y => if h : x = y then isTrue (h ▸ rfl) else isFalse fun e => h (Value.float.inj e)
    | .null | .bool _ | .int _ | .str _ | .list _ | .map _ => isFalse nofun
  | .str x, b => match b with
    | .str y => if h : x = y then isTrue (h ▸ rfl) else isFalse fun e => h (Value.str.inj e)
    | .null | .bool _ | .int _ | .float _ | .list _ | .map _ => isFalse nofun
  | .list x, b => match b with
    | .list y => match Value.decEqItems x y with
      | isTrue h => isTrue (h ▸ rfl)
      | isFalse h => isFalse fun e => h (Value.list.inj e)
    | .null | .bool _ | .int _ | .float _ | .str _ | .map _ => isFalse nofun
  | .map x, b => match b with
    | .map y => match Value.decEqEntries x y with
      | isTrue h => isTrue (h ▸ rfl)
      | isFalse h => isFalse fun e => h (Value.map.inj e)
    | .null | .bool _ | .int _ | .float _ | .str _ | .list _ => isFalse nofun

/-- Equality of lists of values can be decided. -/
protected def Value.decEqItems : (a b : List Value) → Decidable (a = b)
  | [], b => match b with
    | [] => isTrue rfl
    | _ :: _ => isFalse nofun
  | x :: xs, b => match b with
    | [] => isFalse nofun
    | y :: ys => match Value.decEq x y, Value.decEqItems xs ys with
      | isTrue h, isTrue hs => isTrue (by rw [h, hs])
      | isFalse h, _ => isFalse fun e => h (List.cons.inj e).1
      | _, isFalse hs => isFalse fun e => hs (List.cons.inj e).2

/-- Equality of entries can be decided. -/
protected def Value.decEqEntries : (a b : List (String × Value)) → Decidable (a = b)
  | [], b => match b with
    | [] => isTrue rfl
    | _ :: _ => isFalse nofun
  | (k, x) :: xs, b => match b with
    | [] => isFalse nofun
    | (l, y) :: ys =>
      if hk : k = l then
        match Value.decEq x y, Value.decEqEntries xs ys with
        | isTrue h, isTrue hs => isTrue (by rw [hk, h, hs])
        | isFalse h, _ => isFalse fun e => h (Prod.mk.inj (List.cons.inj e).1).2
        | _, isFalse hs => isFalse fun e => hs (List.cons.inj e).2
      else isFalse fun e => hk (Prod.mk.inj (List.cons.inj e).1).1

end

instance : DecidableEq Value := Value.decEq

/-! ## Look-up and insertion -/

namespace Mapping

/-- The value stored under a key. -/
def get? (key : String) : Mapping → Option Value
  | [] => none
  | (k, v) :: rest => if k = key then some v else get? key rest

/-- Stores a value under a key: a key already present keeps its place, a new one goes last. -/
def insert (key : String) (value : Value) : Mapping → Mapping
  | [] => [(key, value)]
  | (k, v) :: rest => if k = key then (k, value) :: rest else (k, v) :: insert key value rest

/-- The keys in order. -/
def keys (fields : Mapping) : List String :=
  fields.map Prod.fst

/-- The entries of a list, later values replacing earlier ones of the same key. -/
def ofList (entries : List (String × Value)) : Mapping :=
  entries.foldl (fun fields entry => insert entry.1 entry.2 fields) []

@[simp] theorem get?_nil (key : String) : get? key [] = none := rfl

theorem get?_insert_self (key : String) (value : Value) (fields : Mapping) :
    get? key (insert key value fields) = some value := by
  induction fields with
  | nil => simp [insert, get?]
  | cons entry rest ih =>
    rw [insert]
    split
    · next h => simp [get?, h]
    · next h => simp [get?, h, ih]

theorem get?_insert_of_ne {key other : String} (h : other ≠ key) (value : Value)
    (fields : Mapping) : get? other (insert key value fields) = get? other fields := by
  induction fields with
  | nil => simp [insert, get?, Ne.symm h]
  | cons entry rest ih =>
    rw [insert]
    split
    · next hk => simp [get?, hk, Ne.symm h]
    · simp [get?, ih]

/-- A key already present keeps its place; a new one goes last. -/
theorem keys_insert (key : String) (value : Value) (fields : Mapping) :
    keys (insert key value fields) =
      if key ∈ keys fields then keys fields else keys fields ++ [key] := by
  induction fields with
  | nil => simp [insert, keys]
  | cons entry rest ih =>
    rw [insert]
    split
    · next h => simp [keys, h]
    · next h =>
      simp only [keys, List.map_cons] at ih ⊢
      rw [ih]
      by_cases hm : key ∈ rest.map Prod.fst <;> simp [hm, Ne.symm h]

/-! ## Merging -/

mutual

/-- What a key holds after `incoming` is laid over the value it held: two mappings are merged,
and anything else is replaced. -/
def overlay (old : Option Value) (incoming : Value) : Value :=
  match incoming with
  | .map entries =>
    match old with
    | some (.map existing) => .map (merge existing entries)
    | _ => .map entries
  | value => value

/-- `source` laid over `target`: nested mappings are merged key by key, any other value of
`source` replaces the one of `target`, and new keys go last in the order of `source`. -/
def merge (target : Mapping) (source : List (String × Value)) : Mapping :=
  match source with
  | [] => target
  | (key, value) :: rest => merge (insert key (overlay (get? key target) value) target) rest

end

@[simp] theorem merge_nil (target : Mapping) : merge target [] = target := by
  rw [merge]

end Mapping

/-! ## Equality up to the order of keys -/

mutual

/-- Equality that does not look at the order of keys. -/
def Value.sameFields : Value → Value → Bool
  | .list xs, .list ys => Value.sameItems xs ys
  | .map xs, .map ys => xs.length == ys.length && Value.sameEntries xs ys
  | .list _, _ | .map _, _ => false
  | x, y => x == y

/-- Item by item, lists of one length. -/
def Value.sameItems : List Value → List Value → Bool
  | [], [] => true
  | x :: xs, y :: ys => Value.sameFields x y && Value.sameItems xs ys
  | _, _ => false

/-- Every entry of the first mapping is, in some place, one of the second. -/
def Value.sameEntries : List (String × Value) → Mapping → Bool
  | [], _ => true
  | (key, x) :: rest, ys =>
      (match Mapping.get? key ys with
        | some y => Value.sameFields x y
        | none => false) && Value.sameEntries rest ys

end

/-- The same keys with the same values, in any order at any depth. -/
def Mapping.sameFields (a b : Mapping) : Bool :=
  Value.sameFields (.map a) (.map b)

end Transclusion
