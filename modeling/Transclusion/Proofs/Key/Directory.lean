import Transclusion.Key
import Transclusion.Proofs.KeyMap

/-!
# Keys and directories

A directory is named by the segments that the keys inside it start with; the root has no name.

* `Key.isInside` — whether a key is inside a directory;
* `Key.childOf`, `Key.below` — the first segment of a key below a directory, and the key that a
  segment makes there;
* `Key.Apart` — no document stands where a directory is needed for another one;
* `Key.eq_below_or_isInside` — a key in a directory is a child of it or inside one;
* `Key.isInside_of_between` — in key order, nothing comes between the keys of a directory.
-/

namespace Transclusion.Key

/-- What the keys inside a directory start with. -/
def start (directory : String) : List Char :=
  if directory = "" then [] else directory.toList ++ ['/']

/-- Whether a key is inside a directory. -/
def isInside (directory key : String) : Bool :=
  directory = "" || (directory.toList ++ ['/']).isPrefixOf key.toList

/-- No key is that of a directory with another key inside. -/
def Apart (keys : List String) : Prop :=
  ∀ key ∈ keys, ∀ other ∈ keys, isInside key other = false

instance (keys : List String) : Decidable (Apart keys) :=
  inferInstanceAs (Decidable (∀ key ∈ keys, ∀ other ∈ keys, isInside key other = false))

/-- The key that a segment makes below a directory. -/
def below (directory child : String) : String :=
  if directory = "" then child else directory ++ "/" ++ child

/-- The first segment of a key below a directory. -/
def childOf (directory key : String) : String :=
  String.ofList ((key.toList.drop (start directory).length).takeWhile (· ≠ '/'))

variable {directory child key : String}

theorem toList_below (directory child : String) :
    (below directory child).toList = start directory ++ child.toList := by
  unfold below start
  split <;> simp

theorem isInside_iff : isInside directory key ↔ ∃ rest, key.toList = start directory ++ rest := by
  unfold isInside start
  split
  · next h => simp [h]
  · next h =>
    simp only [h, decide_false, Bool.false_or, List.isPrefixOf_iff_prefix]
    exact exists_congr fun rest => eq_comm

theorem start_of_ne (h : directory ≠ "") : start directory = directory.toList ++ ['/'] :=
  if_neg h

/-! ## Segments -/

theorem segments_of_normalized (h : Normalized key) :
    segments key = (Text.fields '/' key.toList).map String.ofList := by
  rw [segments, segmentChars, List.filter_eq_self.mpr]
  intro segment hsegment
  simpa using (h.2 segment hsegment).1

theorem segments_ne_nil (h : Normalized key) : segments key ≠ [] := by
  rw [segments_of_normalized h]
  simpa using Text.fields_ne_nil '/' key.toList

theorem head?_fields (cs : List Char) :
    (Text.fields '/' cs).head? = some (cs.takeWhile (· ≠ '/')) := by
  induction cs with
  | nil => rfl
  | cons c cs ih =>
    rw [Text.fields]
    split
    · next hc => simp [hc]
    · next hc =>
      rw [List.takeWhile_cons_of_pos (by simpa using hc)]
      cases hf : Text.fields '/' cs with
      | nil => exact absurd hf (Text.fields_ne_nil '/' cs)
      | cons part parts =>
        rw [hf, List.head?_cons, Option.some.injEq] at ih
        rw [ih]
        rfl

/-- The segments below a directory are among those of the key. -/
theorem fields_subset_of_start {rest : List Char} (h : key.toList = start directory ++ rest) :
    Text.fields '/' rest ⊆ Text.fields '/' key.toList := by
  rw [h, start]
  split
  · exact List.Subset.refl _
  · rw [List.append_assoc, List.singleton_append, Text.fields_append_cons]
    exact List.subset_append_right _ _

/-- A directory of a normalized key is normalized. -/
theorem normalized_of_isInside (hnormalized : Normalized key) (h : isInside directory key)
    (hne : directory ≠ "") : Normalized directory := by
  obtain ⟨rest, hkey⟩ := isInside_iff.mp h
  rw [start_of_ne hne, List.append_assoc, List.singleton_append] at hkey
  refine ⟨hne, fun segment hsegment => hnormalized.2 segment ?_⟩
  rw [hkey, Text.fields_append_cons]
  exact List.mem_append_left _ hsegment

/-! ## Children -/

theorem childOf_of_toList {rest : List Char} (h : key.toList = start directory ++ rest) :
    (childOf directory key).toList = rest.takeWhile (· ≠ '/') := by
  rw [childOf, h, List.drop_left, String.toList_ofList]

/-- The first segment of a normalized key below a directory is a name. -/
theorem isName_childOf (hnormalized : Normalized key) (h : isInside directory key) :
    IsName (childOf directory key).toList := by
  obtain ⟨rest, hkey⟩ := isInside_iff.mp h
  rw [childOf_of_toList hkey]
  exact hnormalized.2 _ (fields_subset_of_start hkey (List.mem_of_head? (head?_fields rest)))

theorem below_ne_empty (h : child ≠ "") : below directory child ≠ "" := by
  unfold below
  split <;> simp [h]

/-- A normalized key in a directory is a child of it, or inside one. -/
theorem eq_below_or_isInside (hnormalized : Normalized key) (h : isInside directory key) :
    key = below directory (childOf directory key) ∨
      isInside (below directory (childOf directory key)) key := by
  have hname := isName_childOf hnormalized h
  obtain ⟨rest, hkey⟩ := isInside_iff.mp h
  have hchild := childOf_of_toList hkey
  have hrest := List.takeWhile_append_dropWhile (p := (· ≠ '/')) (l := rest)
  rw [← hchild] at hrest
  cases hbehind : rest.dropWhile (· ≠ '/') with
  | nil =>
    left
    rw [hbehind, List.append_nil] at hrest
    rw [← String.toList_inj, toList_below, hkey, hrest]
  | cons c behind =>
    right
    obtain rfl : c = '/' := by
      have hne : rest.dropWhile (· ≠ '/') ≠ [] := by rw [hbehind]; simp
      have hhead := List.head_dropWhile_not (fun c => decide (c ≠ '/')) hne
      simp only [hbehind, List.head_cons] at hhead
      simpa using hhead
    have hne : childOf directory key ≠ "" := fun heq => hname.1 (by rw [heq]; rfl)
    refine isInside_iff.mpr ⟨behind, ?_⟩
    rw [start_of_ne (below_ne_empty hne), toList_below, hkey, ← hrest, hbehind]
    simp

/-- What is inside a child of a directory is inside the directory, and its first segment there is
the child. -/
theorem childOf_of_isInside_below (hchild : child ≠ "") (hslash : '/' ∉ child.toList)
    (h : isInside (below directory child) key) :
    isInside directory key ∧ childOf directory key = child := by
  obtain ⟨rest, hkey⟩ := isInside_iff.mp h
  rw [start_of_ne (below_ne_empty hchild), toList_below, List.append_assoc,
    List.append_assoc] at hkey
  refine ⟨isInside_iff.mpr ⟨_, hkey⟩, ?_⟩
  rw [← String.toList_inj, childOf_of_toList hkey, List.takeWhile_append_of_pos]
  · simp
  · intro c hc
    simpa using fun heq : c = '/' => hslash (heq ▸ hc)

/-- A key whose segments another one starts with is that key or the directory it is in. -/
theorem eq_or_isInside_of_prefix {other : String} (hkey : Normalized key)
    (hother : Normalized other) (h : segments key <+: segments other) :
    key = other ∨ isInside key other := by
  rw [segments_of_normalized hkey, segments_of_normalized hother] at h
  obtain ⟨rest, hfields⟩ : Text.fields '/' key.toList <+: Text.fields '/' other.toList := by
    simpa [List.map_map, Function.comp_def] using h.map String.toList
  have hchars := Text.unite_fields '/' other.toList
  rw [← hfields] at hchars
  by_cases hrest : rest = []
  · rw [hrest, List.append_nil, Text.unite_fields] at hchars
    exact .inl (String.toList_inj.mp hchars)
  · rw [Text.unite_append _ (Text.fields_ne_nil _ _) hrest, Text.unite_fields] at hchars
    exact .inr (isInside_iff.mpr ⟨_, by rw [start_of_ne hkey.1, hchars]⟩)

/-! ## Order -/

/-- In key order, nothing comes between the keys of a directory. -/
theorem isInside_of_between {a b c : String} (ha : isInside directory a)
    (hc : isInside directory c) (hab : a < b) (hbc : b < c) : isInside directory b := by
  obtain ⟨rest, ha⟩ := isInside_iff.mp ha
  obtain ⟨rest', hc⟩ := isInside_iff.mp hc
  rw [String.lt_iff] at hab hbc
  have hlow : ¬ b.toList < start directory := by
    intro hlt
    exact KeyMap.not_lt_of_isPrefix ⟨rest, ha.symm⟩ (List.lt_trans hab hlt)
  obtain ⟨between, hb⟩ := KeyMap.isPrefix_of_lt hlow hbc ⟨rest', hc.symm⟩
  exact isInside_iff.mpr ⟨between, hb.symm⟩

end Transclusion.Key
