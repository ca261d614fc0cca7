import Transclusion.Proofs.MetadataTree.Paths

/-!
# Fragments kept apart

A tree in which no fragment is recorded inside another one holds each of them on its own: what is at
its path is what was recorded there, in the order in which it was, and the other fragments have no
part in it.

* `MetadataTree.Apart` — fragments of which none is recorded inside another;
* `MetadataTree.mergeAll` — a row of metadata laid over each other;
* `MetadataTree.Reorders` — another order that keeps the order at each path;
* `MetadataTree.insertAll_keeps_apart` — what is looked up after a row of fragments, and that their
  order does not matter.
-/

namespace Transclusion

namespace MetadataTree

open Mapping

variable {entries other : List (String × Metadata)} {path : List String}

/-- Any two fragments are recorded at one path, or at paths of which neither leads through the end
of the other. -/
def Apart (entries : List (String × Metadata)) : Prop :=
  ∀ entry ∈ entries, ∀ other ∈ entries,
    Key.segments entry.1 = Key.segments other.1 ∨
      Diverge (Key.segments entry.1) (Key.segments other.1)

instance (entries : List (String × Metadata)) : Decidable (Apart entries) :=
  inferInstanceAs (Decidable (∀ entry ∈ entries, _))

/-! ## What is recorded at one path -/

/-- Metadata laid over each other from left to right, if there are any. -/
def mergeAll : List Metadata → Option Metadata
  | [] => none
  | first :: others => some (others.foldl Metadata.merge first)

theorem foldl_overlay_eq_mergeAll (row : List Metadata) :
    row.foldl (fun old (metadata : Metadata) => some (overlay old (.map metadata))) none =
      (mergeAll row).map (.map ·.fields) := by
  cases row with
  | nil => rfl
  | cons first others =>
    rw [List.foldl_cons, overlay_none, mergeAll, Option.map_some]
    induction others generalizing first with
    | nil => rfl
    | cons next others ih =>
      rw [List.foldl_cons, overlay_map_map, List.foldl_cons]
      exact ih (first.merge next)

theorem isSome_mergeAll {row : List Metadata} (h : row ≠ []) : (mergeAll row).isSome := by
  obtain ⟨first, others, rfl⟩ := List.exists_cons_of_ne_nil h
  rfl

/-- At the path of a fragment is all that was recorded there, laid over each other, and nothing of
the others. -/
theorem valueAt?_insertAll_of_apart (h : Apart entries) {entry : String × Metadata}
    (hentry : entry ∈ entries) (hpath : Key.segments entry.1 ≠ []) :
    valueAt? (empty.insertAll entries).fields (Key.segments entry.1) =
      (mergeAll (recordedAt (Key.segments entry.1) entries)).map (.map ·.fields) := by
  rw [valueAt?_insertAll hpath fun other hother _ => h other hother entry hentry]
  show List.foldl _ (valueAt? [] _) _ = _
  rw [valueAt?_empty, foldl_overlay_eq_mergeAll]

/-- Fragments under a key without segments are not recorded. -/
theorem insertAll_of_segments_eq_nil (h : ∀ entry ∈ entries, Key.segments entry.1 = [])
    (tree : MetadataTree) : tree.insertAll entries = tree := by
  induction entries generalizing tree with
  | nil => rfl
  | cons entry entries ih =>
    obtain ⟨hfirst, hothers⟩ := List.forall_mem_cons.mp h
    have hsame : tree.insert entry.1 entry.2 = tree := by
      refine MetadataTree.ext ?_
      rw [fields_insert, hfirst, insertAt]
      exact ite_self tree.fields
    rw [insertAll_cons, hsame, ih hothers]

/-- Where one fragment has a key without segments, nothing is recorded. -/
theorem Apart.insertAll_of_segments_eq_nil (h : Apart entries) {entry : String × Metadata}
    (hentry : entry ∈ entries) (hroot : Key.segments entry.1 = []) (tree : MetadataTree) :
    tree.insertAll entries = tree := by
  refine MetadataTree.insertAll_of_segments_eq_nil (fun other hother => ?_) tree
  rcases h entry hentry other hother with heq | hdiverge
  · exact heq ▸ hroot
  · exact absurd hroot hdiverge.ne_nil

/-! ## Another order -/

/-- The same fragments in another order, but those at each path in the order they had. -/
def Reorders (entries other : List (String × Metadata)) : Prop :=
  ∀ path, other.filter (Key.segments ·.1 = path) = entries.filter (Key.segments ·.1 = path)

/-- Two neighbours at different paths may change places. -/
theorem reorders_swap {first second : String × Metadata}
    (h : Key.segments first.1 ≠ Key.segments second.1) (front back : List (String × Metadata)) :
    Reorders (front ++ first :: second :: back) (front ++ second :: first :: back) := by
  intro path
  rw [List.filter_append, List.filter_append]
  by_cases hfirst : Key.segments first.1 = path
  · have hsecond : Key.segments second.1 ≠ path := hfirst ▸ h.symm
    simp [hfirst, hsecond]
  · simp [List.filter_cons, hfirst]

namespace Reorders

variable (hreorders : Reorders entries other)

include hreorders

theorem mem_iff (entry : String × Metadata) : entry ∈ other ↔ entry ∈ entries := by
  have hrow := hreorders (Key.segments entry.1)
  constructor
  · intro hmem
    have hthere : entry ∈ other.filter (Key.segments ·.1 = Key.segments entry.1) :=
      List.mem_filter.mpr ⟨hmem, decide_eq_true rfl⟩
    exact List.mem_of_mem_filter (hrow ▸ hthere)
  · intro hmem
    have hthere : entry ∈ entries.filter (Key.segments ·.1 = Key.segments entry.1) :=
      List.mem_filter.mpr ⟨hmem, decide_eq_true rfl⟩
    exact List.mem_of_mem_filter (hrow ▸ hthere)

theorem apart (h : Apart entries) : Apart other := by
  intro entry hentry next hnext
  exact h entry ((hreorders.mem_iff entry).mp hentry) next ((hreorders.mem_iff next).mp hnext)

theorem recordedAt_eq (path : List String) : recordedAt path other = recordedAt path entries := by
  have hrow : ∀ row : List (String × Metadata),
      row.filter (fun entry => decide (Key.segments entry.1 = path ∧ entry.2 ≠ .empty)) =
        (row.filter (Key.segments ·.1 = path)).filter (·.2 ≠ .empty) := by
    intro row
    rw [List.filter_filter]
    refine List.filter_congr fun entry _ => ?_
    rw [Bool.decide_and, Bool.and_comm]
  rw [recordedAt, hrow, hreorders path, ← hrow, recordedAt]

end Reorders

/-- A fragment that says something is recorded further along the path. -/
def Passed (entries : List (String × Metadata)) (path : List String) : Prop :=
  ∃ entry ∈ entries, entry.2 ≠ .empty ∧ path <+: Key.segments entry.1 ∧ path ≠ Key.segments entry.1

theorem Apart.not_passed (h : Apart entries) {entry : String × Metadata}
    (hentry : entry ∈ entries) : ¬ Passed entries (Key.segments entry.1) := by
  rintro ⟨other, hother, -, hprefix, hne⟩
  rcases h entry hentry other hother with heq | hdiverge
  · exact hne heq
  · exact hdiverge.1 hprefix

/-- On the way to a fragment are mappings. -/
theorem nests_of_passed (h : Apart entries) (hpath : path ≠ []) (hpassed : Passed entries path) :
    Nests (empty.insertAll entries).fields path := by
  obtain ⟨entry, hentry, hsays, ⟨back, hback⟩, hne⟩ := hpassed
  have hmore : back ≠ [] := by
    rintro rfl
    exact hne (by rw [← hback, List.append_nil])
  have hsegments : Key.segments entry.1 ≠ [] := by simp [← hback, hpath]
  have hrow : recordedAt (Key.segments entry.1) entries ≠ [] := by
    refine List.ne_nil_of_mem (a := entry.2) ?_
    exact List.mem_map.mpr ⟨entry, List.mem_filter.mpr ⟨hentry, by simpa using hsays⟩, rfl⟩
  have hvalue := valueAt?_insertAll_of_apart h hentry hsegments
  refine nests_of_append hpath hmore ?_
  rw [hback, hvalue, Option.isSome_map]
  exact isSome_mergeAll hrow

/-- The order of the fragments does not matter for what is at their ends, behind these, and
elsewhere. -/
theorem valueAt?_of_reorders (h : Apart entries) (hreorders : Reorders entries other)
    (hpassed : ¬ Passed entries path) :
    valueAt? (empty.insertAll other).fields path =
      valueAt? (empty.insertAll entries).fields path := by
  by_cases hroot : ∃ entry ∈ entries, Key.segments entry.1 = []
  · obtain ⟨entry, hentry, hnil⟩ := hroot
    rw [h.insertAll_of_segments_eq_nil hentry hnil,
      (hreorders.apart h).insertAll_of_segments_eq_nil ((hreorders.mem_iff entry).mpr hentry) hnil]
  by_cases hat : ∃ entry ∈ entries, Key.segments entry.1 <+: path
  · obtain ⟨entry, hentry, back, rfl⟩ := hat
    have hsegments : Key.segments entry.1 ≠ [] := fun hnil => hroot ⟨entry, hentry, hnil⟩
    have hend : valueAt? (empty.insertAll other).fields (Key.segments entry.1) =
        valueAt? (empty.insertAll entries).fields (Key.segments entry.1) := by
      rw [valueAt?_insertAll_of_apart h hentry hsegments, valueAt?_insertAll_of_apart
        (hreorders.apart h) ((hreorders.mem_iff entry).mpr hentry) hsegments,
        hreorders.recordedAt_eq]
    by_cases hback : back = []
    · rwa [hback, List.append_nil]
    · rw [valueAt?_append hsegments hback, hend, valueAt?_append hsegments hback]
  · -- all fragments that say something are elsewhere
    have hdiverge : ∀ entry ∈ entries, entry.2 ≠ .empty → Diverge (Key.segments entry.1) path := by
      intro entry hentry hsays
      refine ⟨fun hprefix => hat ⟨entry, hentry, hprefix⟩, fun hprefix => ?_⟩
      refine hpassed ⟨entry, hentry, hsays, hprefix, ?_⟩
      rintro rfl
      exact hat ⟨entry, hentry, List.prefix_refl _⟩
    by_cases hpath : path = []
    · rw [hpath]
      rfl
    · rw [valueAt?_insertAll_of_diverge hpath hdiverge, valueAt?_insertAll_of_diverge hpath]
      intro entry hentry
      exact hdiverge entry ((hreorders.mem_iff entry).mp hentry)

/-- A path leads somewhere in one order if it does in the other. -/
theorem isSome_valueAt?_of_reorders (h : Apart entries) (hreorders : Reorders entries other)
    (path : List String) :
    (valueAt? (empty.insertAll other).fields path).isSome =
      (valueAt? (empty.insertAll entries).fields path).isSome := by
  by_cases hpassed : Passed entries path ∧ path ≠ []
  · obtain ⟨entry, hentry, hsays⟩ := hpassed.1
    have hpassed' : Passed other path := ⟨entry, (hreorders.mem_iff entry).mpr hentry, hsays⟩
    obtain ⟨fields, hfields⟩ := nests_of_passed h hpassed.2 hpassed.1
    obtain ⟨fields', hfields'⟩ := nests_of_passed (hreorders.apart h) hpassed.2 hpassed'
    rw [hfields, hfields']
    rfl
  · by_cases hpath : path = []
    · rw [hpath]
      rfl
    · rw [valueAt?_of_reorders h hreorders fun hthere => hpassed ⟨hthere, hpath⟩]

theorem mem_keys_of_nests {level fields : Mapping} (hpath : path ≠ [])
    (h : valueAt? level path = some (.map fields)) (key : String) :
    key ∈ keys fields ↔ (valueAt? level (path ++ [key])).isSome := by
  rw [valueAt?_append hpath (List.cons_ne_nil key []), h, fieldsOf_map, valueAt?_singleton,
    ← not_iff_not, ← get?_eq_none_iff, Option.not_isSome_iff_eq_none]

/-- A row of fragments of which none is recorded inside another one. At the path of each is what was
recorded there, laid over each other from left to right without what says nothing, and nothing if
that was all. So another order of fragments at different paths changes nothing there, nor does it
change any look-up at all, but for the order of keys in the mappings on the way to fragments. -/
theorem insertAll_keeps_apart (h : Apart entries) :
    (∀ entry ∈ entries, Key.segments entry.1 ≠ [] →
      (empty.insertAll entries).get? entry.1 =
        (mergeAll (recordedAt (Key.segments entry.1) entries)).map (.map ·.fields)) ∧
    ∀ other, Reorders entries other →
      (∀ entry ∈ entries,
        (empty.insertAll other).get? entry.1 = (empty.insertAll entries).get? entry.1) ∧
      ∀ key,
        (empty.insertAll other).get? key = (empty.insertAll entries).get? key ∨
        Passed entries (Key.segments key) ∧ ∃ fields fields',
          (empty.insertAll other).get? key = some (.map fields) ∧
          (empty.insertAll entries).get? key = some (.map fields') ∧
          (keys fields).Perm (keys fields') := by
  refine ⟨fun entry hentry hpath => valueAt?_insertAll_of_apart h hentry hpath, ?_⟩
  intro other hreorders
  refine ⟨fun entry hentry => valueAt?_of_reorders h hreorders (h.not_passed hentry), ?_⟩
  intro key
  by_cases hpassed : Passed entries (Key.segments key) ∧ Key.segments key ≠ []
  · obtain ⟨hpassed, hpath⟩ := hpassed
    have hapart := hreorders.apart h
    obtain ⟨entry, hentry, hsays⟩ := id hpassed
    obtain ⟨fields', hfields'⟩ := nests_of_passed h hpath hpassed
    obtain ⟨fields, hfields⟩ :=
      nests_of_passed hapart hpath ⟨entry, (hreorders.mem_iff entry).mpr hentry, hsays⟩
    have hnodup : ∀ (tree : MetadataTree) fields,
        valueAt? tree.fields (Key.segments key) = some (.map fields) → (keys fields).Nodup := by
      intro tree fields hvalue
      have hdistinct : (Value.map fields).Distinct := distinct_valueAt? hvalue
      exact (Value.distinct_map.mp hdistinct).nodup_keys
    refine .inr ⟨hpassed, fields, fields', hfields, hfields', ?_⟩
    refine (List.perm_ext_iff_of_nodup (hnodup _ _ hfields) (hnodup _ _ hfields')).mpr
      fun segment => ?_
    rw [mem_keys_of_nests hpath hfields, mem_keys_of_nests hpath hfields',
      isSome_valueAt?_of_reorders h hreorders]
  · refine .inl ?_
    by_cases hpath : Key.segments key = []
    · rw [get?, hpath, get?, hpath]
      rfl
    · exact valueAt?_of_reorders h hreorders fun hthere => hpassed ⟨hthere, hpath⟩

/-- Two fragments at one path, one next to it, and one that says nothing. -/
theorem insertAll_keeps_apart_neighbours :
    let first : String × Metadata := ("s/f.md", ⟨[("a", .int 1)], by decide⟩)
    let second : String × Metadata := ("s/g.md", ⟨[("b", .int 2)], by decide⟩)
    let others : List (String × Metadata) :=
      [("s//f.md", ⟨[("a", .int 3), ("c", .int 4)], by decide⟩), ("t.md", .empty)]
    let entries := first :: second :: others
    let swapped := second :: first :: others
    Apart entries ∧ Reorders entries swapped ∧
    (first ∈ entries ∧ Key.segments "s/f.md" ≠ [] ∧
      (empty.insertAll entries).get? "s/f.md" = some (.map [("a", .int 3), ("c", .int 4)])) ∧
    (empty.insertAll entries).get? "t.md" = none ∧
    (empty.insertAll swapped).get? "s/f.md" = (empty.insertAll entries).get? "s/f.md" ∧
    ((empty.insertAll swapped).get? "s" = (empty.insertAll entries).get? "s" ∨
      Passed entries (Key.segments "s") ∧ ∃ fields fields',
        (empty.insertAll swapped).get? "s" = some (.map fields) ∧
        (empty.insertAll entries).get? "s" = some (.map fields') ∧
        (keys fields).Perm (keys fields')) := by
  intro first second others entries swapped
  have hapart : Apart entries := by decide
  have hreorders : Reorders entries swapped := reorders_swap (by decide) [] others
  have hfirst : first ∈ entries := List.mem_cons_self
  have hlast : (("t.md", .empty) : String × Metadata) ∈ entries := by decide
  obtain ⟨hrows, horder⟩ := insertAll_keeps_apart hapart
  obtain ⟨hsame, hanywhere⟩ := horder swapped hreorders
  have hrow : recordedAt (Key.segments "s/f.md") entries =
      [⟨[("a", .int 1)], by decide⟩, ⟨[("a", .int 3), ("c", .int 4)], by decide⟩] := by decide
  have hnothing : recordedAt (Key.segments "t.md") entries = [] := by decide
  have hmerged := hrows first hfirst (by decide)
  have hempty := hrows ("t.md", .empty) hlast (by decide)
  rw [hrow] at hmerged
  rw [hnothing] at hempty
  refine ⟨hapart, hreorders, ⟨hfirst, by decide, hmerged.trans ?_⟩,
    hempty, hsame first hfirst, hanywhere "s"⟩
  simp [mergeAll, merge_cons, Mapping.insert, overlay]

end MetadataTree

end Transclusion
