/-!
# Maps in key order

Values stored under texts and kept in ascending order of those texts, which is the order of
their UTF-8 bytes. The order is part of the type, so it is the order of every walk through a map
and two maps with the same content are equal.

* `KeyMap` — the type, with `get?`, `insert`, `erase`, `ofList`, `keys`;
* `KeyMap.keysUnder` — the keys inside a directory;
* `toList_insert_mem`, `get?_insert_self`, `get?_insert_of_ne` — what insertion changes.
-/

namespace Transclusion

/-- Entries in strictly ascending order of their keys. -/
structure KeyMap (α : Type) where
  toList : List (String × α)
  sorted : toList.Pairwise fun a b => a.1 < b.1
  deriving Repr

namespace KeyMap

variable {α : Type}

instance [DecidableEq α] : DecidableEq (KeyMap α) := fun a b =>
  if h : a.toList = b.toList then
    isTrue (by cases a; cases b; cases h; rfl)
  else isFalse fun e => h (e ▸ rfl)

/-- The map without entries. -/
def empty : KeyMap α := ⟨[], .nil⟩

instance : Inhabited (KeyMap α) := ⟨empty⟩

/-! ## Entries in order -/

/-- The value stored under a key in a list of entries. -/
def lookup (key : String) : List (String × α) → Option α
  | [] => none
  | (k, v) :: rest => if k = key then some v else lookup key rest

/-- Stores a value in front of the first greater key, in place of an equal one. -/
def insertEntry (key : String) (value : α) : List (String × α) → List (String × α)
  | [] => [(key, value)]
  | (k, v) :: rest =>
      if key < k then (key, value) :: (k, v) :: rest
      else if k = key then (key, value) :: rest
      else (k, v) :: insertEntry key value rest

theorem mem_insertEntry {key : String} {value : α} {entries : List (String × α)}
    {entry : String × α} (h : entry ∈ insertEntry key value entries) :
    entry = (key, value) ∨ entry ∈ entries := by
  induction entries with
  | nil => simpa [insertEntry] using h
  | cons first rest ih =>
    rw [insertEntry] at h
    split at h
    · simpa using h
    · split at h
      · rcases List.mem_cons.mp h with h | h
        · exact .inl h
        · exact .inr (List.mem_cons_of_mem _ h)
      · rcases List.mem_cons.mp h with h | h
        · exact .inr (h ▸ List.mem_cons_self)
        · exact (ih h).imp_right (List.mem_cons_of_mem _)

theorem pairwise_insertEntry (key : String) (value : α) {entries : List (String × α)}
    (h : entries.Pairwise fun a b => a.1 < b.1) :
    (insertEntry key value entries).Pairwise fun a b => a.1 < b.1 := by
  induction entries with
  | nil => simp [insertEntry]
  | cons first rest ih =>
    obtain ⟨hfirst, hrest⟩ := List.pairwise_cons.mp h
    rw [insertEntry]
    split
    · next hlt =>
      refine List.pairwise_cons.mpr ⟨fun entry he => ?_, h⟩
      rcases List.mem_cons.mp he with rfl | he
      · exact hlt
      · exact String.lt_trans hlt (hfirst entry he)
    · next hge =>
      split
      · next heq =>
        subst heq
        exact List.pairwise_cons.mpr ⟨hfirst, hrest⟩
      · next hne =>
        refine List.pairwise_cons.mpr ⟨fun entry he => ?_, ih hrest⟩
        rcases mem_insertEntry he with rfl | he
        · exact String.not_le.mp fun hle => hne (String.le_antisymm (String.not_lt.mp hge) hle)
        · exact hfirst entry he

theorem lookup_insertEntry_self (key : String) (value : α) (entries : List (String × α)) :
    lookup key (insertEntry key value entries) = some value := by
  induction entries with
  | nil => simp [insertEntry, lookup]
  | cons first rest ih =>
    rw [insertEntry]
    split
    · simp [lookup]
    · split
      · simp [lookup]
      · next hne => simp [lookup, hne, ih]

theorem lookup_insertEntry_of_ne {key other : String} (h : other ≠ key) (value : α)
    (entries : List (String × α)) :
    lookup other (insertEntry key value entries) = lookup other entries := by
  induction entries with
  | nil => simp [insertEntry, lookup, Ne.symm h]
  | cons first rest ih =>
    rw [insertEntry]
    split
    · simp [lookup, Ne.symm h]
    · split
      · next heq => simp [lookup, heq, Ne.symm h]
      · simp [lookup, ih]

/-! ## The operations -/

/-- The value stored under a key. -/
def get? (m : KeyMap α) (key : String) : Option α :=
  lookup key m.toList

/-- Whether a value is stored under the key. -/
def contains (m : KeyMap α) (key : String) : Bool :=
  (m.get? key).isSome

/-- Stores a value under a key, in place of the one stored there before. -/
def insert (m : KeyMap α) (key : String) (value : α) : KeyMap α :=
  ⟨insertEntry key value m.toList, pairwise_insertEntry key value m.sorted⟩

/-- Forgets a key. -/
def erase (m : KeyMap α) (key : String) : KeyMap α :=
  ⟨m.toList.filter fun entry => entry.1 ≠ key, m.sorted.filter _⟩

/-- The map of a list of entries, a later one replacing an earlier one of the same key. -/
def ofList (entries : List (String × α)) : KeyMap α :=
  entries.foldl (fun m entry => m.insert entry.1 entry.2) empty

/-- The keys in order. -/
def keys (m : KeyMap α) : List String :=
  m.toList.map Prod.fst

/-- The number of entries. -/
def size (m : KeyMap α) : Nat :=
  m.toList.length

@[simp] theorem get?_insert_self (m : KeyMap α) (key : String) (value : α) :
    (m.insert key value).get? key = some value :=
  lookup_insertEntry_self key value m.toList

theorem get?_insert_of_ne (m : KeyMap α) {key other : String} (h : other ≠ key) (value : α) :
    (m.insert key value).get? other = m.get? other :=
  lookup_insertEntry_of_ne h value m.toList

theorem pairwise_keys (m : KeyMap α) : m.keys.Pairwise (· < ·) :=
  List.pairwise_map.mpr m.sorted

/-! ## Directories -/

/-- What the keys inside a directory start with: its name and one slash, and nothing for the
root. -/
def directoryStart (directory : String) : List Char :=
  if directory = "" then []
  else (directory.toList.reverse.dropWhile (· = '/')).reverse ++ ['/']

/-- The keys inside a directory, in order. The keys with one start stand side by side, so the
walk begins at the first key that is not below that start and ends at the first that lacks
it. -/
def keysUnder (m : KeyMap α) (directory : String) : List String :=
  let start := directoryStart directory
  (m.keys.dropWhile (· < String.ofList start)).takeWhile fun key => start.isPrefixOf key.toList

end KeyMap

end Transclusion
