import Mathlib.Data.List.Sort
import Transclusion.KeyMap

/-!
# What maps in key order hold

* `KeyMap.get?_eq_some_iff` — looking a key up finds its only entry;
* `KeyMap.contains_iff` — the keys that are stored are the keys of the map;
* `KeyMap.contains_eq_of_keys_eq`, `KeyMap.keysUnder_eq_of_keys_eq` — what only depends on the keys;
* `KeyMap.keysUnder_eq_filter` — the walk through a directory finds all keys in it.
-/

namespace Transclusion.KeyMap

variable {α : Type}

theorem mem_of_lookup_eq_some {key : String} {value : α} {entries : List (String × α)}
    (h : lookup key entries = some value) : (key, value) ∈ entries := by
  induction entries with
  | nil => exact nomatch h
  | cons first rest ih =>
    obtain ⟨k, v⟩ := first
    rw [lookup] at h
    split at h
    · next hkey =>
      cases h
      rw [hkey]
      exact List.mem_cons_self
    · exact List.mem_cons_of_mem _ (ih h)

theorem lookup_eq_some_of_mem {key : String} {value : α} {entries : List (String × α)}
    (hsorted : entries.Pairwise fun a b => a.1 < b.1) (h : (key, value) ∈ entries) :
    lookup key entries = some value := by
  induction entries with
  | nil => exact nomatch h
  | cons first rest ih =>
    obtain ⟨k, v⟩ := first
    obtain ⟨hfirst, hrest⟩ := List.pairwise_cons.mp hsorted
    rw [lookup]
    rcases List.mem_cons.mp h with heq | h
    · obtain ⟨rfl, rfl⟩ := Prod.mk.inj heq
      rw [if_pos rfl]
    · have hne : k ≠ key := fun heq => String.lt_irrefl key (heq ▸ hfirst (key, value) h)
      rw [if_neg hne]
      exact ih hrest h

/-- Looking a key up finds its only entry. -/
theorem get?_eq_some_iff {m : KeyMap α} {key : String} {value : α} :
    m.get? key = some value ↔ (key, value) ∈ m.toList :=
  ⟨mem_of_lookup_eq_some, lookup_eq_some_of_mem m.sorted⟩

theorem mem_keys_iff {m : KeyMap α} {key : String} :
    key ∈ m.keys ↔ ∃ value, m.get? key = some value := by
  simp only [keys, List.mem_map, get?_eq_some_iff]
  constructor
  · rintro ⟨⟨k, v⟩, hmem, rfl⟩
    exact ⟨v, hmem⟩
  · rintro ⟨v, hmem⟩
    exact ⟨(key, v), hmem, rfl⟩

theorem get?_eq_none_iff {m : KeyMap α} {key : String} : m.get? key = none ↔ key ∉ m.keys := by
  rw [mem_keys_iff, ← Option.isSome_iff_exists, Bool.not_eq_true, Option.isSome_eq_false_iff,
    Option.isNone_iff_eq_none]

/-- The keys that are stored are the keys of the map. -/
theorem contains_iff {m : KeyMap α} {key : String} : m.contains key ↔ key ∈ m.keys := by
  rw [contains, Option.isSome_iff_exists, mem_keys_iff]

theorem nodup_keys (m : KeyMap α) : m.keys.Nodup :=
  m.pairwise_keys.imp fun hlt => String.ne_of_lt hlt

theorem length_keys (m : KeyMap α) : m.keys.length = m.size :=
  List.length_map _

/-- Maps with the same keys have them in the same order. -/
theorem keys_eq_of_mem_iff {β : Type} {a : KeyMap α} {b : KeyMap β}
    (h : ∀ key, key ∈ a.keys ↔ key ∈ b.keys) : a.keys = b.keys := by
  have : Std.Irrefl fun a b : String => a < b := ⟨String.lt_irrefl⟩
  have : Std.Antisymm fun a b : String => a < b :=
    ⟨fun a b hab hba => absurd (String.lt_trans hab hba) (String.lt_irrefl a)⟩
  exact a.pairwise_keys.eq_of_mem_iff b.pairwise_keys h

section SameKeys

variable {a b : KeyMap α}

theorem contains_eq_of_keys_eq (h : a.keys = b.keys) : a.contains = b.contains := by
  funext key
  rw [Bool.eq_iff_iff, contains_iff, contains_iff, h]

theorem keysUnder_eq_of_keys_eq (h : a.keys = b.keys) : a.keysUnder = b.keysUnder := by
  funext directory
  rw [keysUnder, keysUnder, h]

end SameKeys

/-! ## Directories -/

/-- A text is not below one that it starts with. -/
theorem not_lt_of_isPrefix {start cs : List Char} (h : start <+: cs) : ¬ cs < start := by
  obtain ⟨rest, rfl⟩ := h
  induction start with
  | nil => exact List.not_lt_nil _
  | cons c start ih =>
    rw [List.cons_append, List.cons_lt_cons_iff]
    rintro (hlt | ⟨-, hlt⟩)
    · exact Char.lt_irrefl c hlt
    · exact ih hlt

/-- The texts with one start stand side by side: none comes between the start and one of them. -/
theorem isPrefix_of_lt {start cs ds : List Char} (hlow : ¬ cs < start) (hlt : cs < ds)
    (h : start <+: ds) : start <+: cs := by
  induction start generalizing cs ds with
  | nil => exact List.nil_prefix
  | cons c start ih =>
    obtain ⟨rest, rfl⟩ := h
    cases cs with
    | nil => exact absurd (List.nil_lt_cons c start) hlow
    | cons d cs =>
      rw [List.cons_lt_cons_iff, not_or, not_and] at hlow
      rw [List.cons_append, List.cons_lt_cons_iff] at hlt
      rcases hlt with hlt | ⟨rfl, hlt⟩
      · exact absurd hlt hlow.1
      · exact List.prefix_cons_inj d |>.mpr (ih (hlow.2 rfl) hlt (List.prefix_append start rest))

/-- A walk that begins where `low` ends and ends where `p` does finds all that `p` holds of, in a
list where these stand side by side behind all that is low. -/
theorem takeWhile_dropWhile_eq_filter {β : Type} {low p : β → Bool} {as : List β}
    (hlow : ∀ a ∈ as, p a → ¬ low a)
    (h : as.Pairwise fun a b => ¬ low a → ¬ low b ∧ (p b → p a)) :
    (as.dropWhile low).takeWhile p = as.filter p := by
  induction as with
  | nil => rfl
  | cons a as ih =>
    obtain ⟨hfirst, hothers⟩ := List.pairwise_cons.mp h
    have ih := ih (fun b hb => hlow b (List.mem_cons_of_mem a hb)) hothers
    by_cases hpass : low a
    · have hnot : ¬ p a := fun hp => hlow a List.mem_cons_self hp hpass
      rw [List.dropWhile_cons_of_pos hpass, List.filter_cons_of_neg hnot, ih]
    · -- all behind is not low either, so the rest of the walk only takes
      have hstop : as.dropWhile low = as := by
        cases as with
        | nil => rfl
        | cons b as => exact List.dropWhile_cons_of_neg (hfirst b List.mem_cons_self hpass).1
      rw [List.dropWhile_cons_of_neg hpass]
      by_cases hp : p a
      · rw [List.takeWhile_cons_of_pos hp, List.filter_cons_of_pos hp, ← ih, hstop]
      · have hnone : as.filter p = [] := by
          rw [List.filter_eq_nil_iff]
          intro b hb hpb
          exact hp ((hfirst b hb hpass).2 hpb)
        rw [List.takeWhile_cons_of_neg hp, List.filter_cons_of_neg hp, hnone]

/-- The walk finds all keys in a directory. -/
theorem keysUnder_eq_filter (m : KeyMap α) (directory : String) :
    m.keysUnder directory =
      m.keys.filter fun key => (directoryStart directory).isPrefixOf key.toList := by
  unfold keysUnder
  refine takeWhile_dropWhile_eq_filter ?_ ?_
  · intro key _ hprefix
    rw [decide_eq_true_iff, String.lt_iff, String.toList_ofList]
    exact not_lt_of_isPrefix (List.isPrefixOf_iff_prefix.mp hprefix)
  · refine m.pairwise_keys.imp ?_
    intro key next hlt hlow
    rw [decide_eq_true_iff, String.lt_iff, String.toList_ofList] at hlow
    rw [String.lt_iff] at hlt
    constructor
    · rw [decide_eq_true_iff, String.lt_iff, String.toList_ofList]
      intro hnext
      exact hlow (List.lt_trans hlt hnext)
    · intro hprefix
      rw [List.isPrefixOf_iff_prefix] at hprefix ⊢
      exact isPrefix_of_lt hlow hlt hprefix

end Transclusion.KeyMap
