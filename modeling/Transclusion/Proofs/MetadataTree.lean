import Transclusion.MetadataTree
import Transclusion.Proofs.Mapping
import Transclusion.Proofs.Results

/-!
# What metadata trees hold

Metadata recorded at the end of a path are found there, and recording at another path does not touch
them.

* `MetadataTree.Diverge` — two paths of which neither leads through the end of the other;
* `MetadataTree.valueAt?_insertAt`, `MetadataTree.valueAt?_insertAt_of_diverge` — what is at the end
  of a path after metadata are recorded;
* `MetadataTree.insertAll`, `MetadataTree.valueAt?_insertAll` — after a row of fragments is
  recorded;
* `MetadataTree.Misses` — a path that leaves a mapping where it has no such key;
* `MetadataTree.valueAt?_merge`, `MetadataTree.valueAt?_merge_of_misses` — what is at the end of a
  path after merging;
* `MetadataTree.attach_eq_ok`, `MetadataTree.attach_eq_error` — laying a tree into a field is
  merging, unless the field is occupied;
* `MetadataTree.valueAt?_attach_of_mem`, `MetadataTree.valueAt?_attach_of_diverge` — what is at the
  end of a path after that.
-/

namespace Transclusion

/-- A field holds something else than a mapping. -/
def Metadata.Occupied (metadata : Metadata) (field : String) : Prop :=
  ∃ value, metadata.fields.get? field = some value ∧ ∀ fields, value ≠ .map fields

namespace MetadataTree

open Mapping

/-! ## Paths -/

/-- Neither path leads through the end of the other. -/
def Diverge (path other : List String) : Prop :=
  ¬ path <+: other ∧ ¬ other <+: path

instance (path other : List String) : Decidable (Diverge path other) :=
  inferInstanceAs (Decidable (_ ∧ _))

theorem Diverge.symm {path other : List String} (h : Diverge path other) : Diverge other path :=
  ⟨h.2, h.1⟩

theorem Diverge.ne_nil {path other : List String} (h : Diverge path other) : path ≠ [] := by
  rintro rfl
  exact h.1 List.nil_prefix

theorem diverge_cons {segment segment' : String} {path other : List String} :
    Diverge (segment :: path) (segment' :: other) ↔ segment ≠ segment' ∨ Diverge path other := by
  by_cases heq : segment = segment'
  · subst heq
    simp [Diverge, List.cons_prefix_cons]
  · simp [Diverge, List.cons_prefix_cons, heq, Ne.symm heq]

variable {level fields : Mapping} {metadata : Metadata} {segment : String}
  {path other : List String}

@[simp] theorem valueAt?_empty (path : List String) : valueAt? [] path = none := by
  fun_cases valueAt? [] path <;> simp_all

@[simp] theorem valueAt?_singleton (level : Mapping) (leaf : String) :
    valueAt? level [leaf] = level.get? leaf := rfl

/-- A path goes on in the fields of what its first segment leads to. -/
theorem valueAt?_cons (h : path ≠ []) :
    valueAt? level (segment :: path) = valueAt? (fieldsOf (level.get? segment)) path := by
  obtain ⟨next, path, rfl⟩ := List.exists_cons_of_ne_nil h
  cases hget : level.get? segment with
  | none => simp [valueAt?, fieldsOf, hget]
  | some value => cases value <;> simp [valueAt?, fieldsOf, hget]

/-! ## Recording -/

/-- At the end of a path, a mapping is laid over what was there. -/
theorem valueAt?_insertAt (fields level : Mapping) (hpath : path ≠ []) :
    valueAt? (insertAt fields level path) path =
      some (overlay (valueAt? level path) (.map fields)) := by
  induction path generalizing level with
  | nil => exact absurd rfl hpath
  | cons segment path ih =>
    by_cases hlast : path = []
    · subst hlast
      exact get?_insert_self _ _ _
    · rw [insertAt_cons hlast, valueAt?_cons hlast, get?_insert_self, fieldsOf_map, ih _ hlast,
        valueAt?_cons hlast]

/-- What is at the end of another path stays. -/
theorem valueAt?_insertAt_of_diverge (fields level : Mapping) (h : Diverge path other) :
    valueAt? (insertAt fields level path) other = valueAt? level other := by
  induction path generalizing level other with
  | nil => exact absurd rfl h.ne_nil
  | cons segment path ih =>
    obtain ⟨segment', other, rfl⟩ := List.exists_cons_of_ne_nil h.symm.ne_nil
    -- the first segment of `other` is untouched, or leads to the same level as that of `path`
    have hvalue : ∀ value, segment ≠ segment' →
        valueAt? (level.insert segment value) (segment' :: other) =
          valueAt? level (segment' :: other) := by
      intro value hne
      by_cases hlast : other = []
      · subst hlast
        exact get?_insert_of_ne (Ne.symm hne) _ _
      · rw [valueAt?_cons hlast, valueAt?_cons hlast, get?_insert_of_ne (Ne.symm hne)]
    rcases diverge_cons.mp h with hne | hdiverge
    · by_cases hlast : path = []
      · subst hlast
        exact hvalue _ hne
      · rw [insertAt_cons hlast]
        exact hvalue _ hne
    · by_cases heq : segment = segment'
      · subst heq
        rw [insertAt_cons hdiverge.ne_nil, valueAt?_cons hdiverge.symm.ne_nil, get?_insert_self,
          fieldsOf_map, ih _ hdiverge, valueAt?_cons hdiverge.symm.ne_nil]
      · rw [insertAt_cons hdiverge.ne_nil]
        exact hvalue _ heq

/-! ### Rows of fragments -/

/-- A tree with the metadata of some fragments recorded, one after the other. -/
def insertAll (tree : MetadataTree) (entries : List (String × Metadata)) : MetadataTree :=
  entries.foldl (fun tree entry => tree.insert entry.1 entry.2) tree

theorem insertAll_cons (tree : MetadataTree) (entry : String × Metadata)
    (entries : List (String × Metadata)) :
    tree.insertAll (entry :: entries) = (tree.insert entry.1 entry.2).insertAll entries := rfl

theorem fields_insert (tree : MetadataTree) (key : String) (metadata : Metadata) :
    (tree.insert key metadata).fields =
      if metadata = .empty then tree.fields
      else insertAt metadata tree.fields (Key.segments key) := by
  rw [insert]
  split <;> rfl

/-- The metadata of the fragments whose keys spell a path, but not those that say nothing. -/
def recordedAt (path : List String) (entries : List (String × Metadata)) : List Metadata :=
  (entries.filter fun entry => Key.segments entry.1 = path ∧ entry.2 ≠ .empty).map Prod.snd

/-- At the end of a path are the metadata of the fragments whose keys spell it, laid over each other
in order, if all other fragments are elsewhere. -/
theorem valueAt?_insertAll {entries : List (String × Metadata)} (hpath : path ≠ [])
    (h : ∀ entry ∈ entries, entry.2 ≠ .empty →
      Key.segments entry.1 = path ∨ Diverge (Key.segments entry.1) path)
    (tree : MetadataTree) :
    valueAt? (tree.insertAll entries).fields path =
      (recordedAt path entries).foldl
        (fun old (metadata : Metadata) => some (overlay old (.map metadata)))
        (valueAt? tree.fields path) := by
  induction entries generalizing tree with
  | nil => rfl
  | cons entry entries ih =>
    obtain ⟨hfirst, hothers⟩ := List.forall_mem_cons.mp h
    rw [insertAll_cons, ih hothers, fields_insert]
    by_cases hempty : entry.2 = .empty
    · simp [recordedAt, hempty]
    · rw [if_neg hempty]
      rcases hfirst hempty with heq | hdiverge
      · rw [heq, valueAt?_insertAt _ _ hpath]
        simp [recordedAt, heq, hempty]
      · rw [valueAt?_insertAt_of_diverge _ _ hdiverge]
        have hne : Key.segments entry.1 ≠ path := by
          rintro rfl
          exact hdiverge.1 (List.prefix_refl _)
        simp [recordedAt, hne]

/-- What is at the end of a path stays if all fragments that say something are elsewhere. -/
theorem valueAt?_insertAll_of_diverge {entries : List (String × Metadata)} (hpath : path ≠ [])
    (h : ∀ entry ∈ entries, entry.2 ≠ .empty → Diverge (Key.segments entry.1) path)
    (tree : MetadataTree) :
    valueAt? (tree.insertAll entries).fields path = valueAt? tree.fields path := by
  have hnone : recordedAt path entries = [] := by
    rw [recordedAt, List.map_eq_nil_iff, List.filter_eq_nil_iff]
    intro entry hentry hcond
    obtain ⟨rfl, hne⟩ := of_decide_eq_true hcond
    exact (h entry hentry hne).1 (List.prefix_refl _)
  rw [valueAt?_insertAll hpath fun entry hentry hne => .inr (h entry hentry hne), hnone]
  rfl

/-- Metadata that are laid over themselves any number of times stay as they are. -/
theorem foldl_overlay_eq {row : List Metadata} (hne : row ≠ [])
    (hrow : ∀ other ∈ row, other = metadata) :
    row.foldl (fun old (other : Metadata) => some (overlay old (.map other))) none =
      some (.map metadata) := by
  obtain ⟨first, others, rfl⟩ := List.exists_cons_of_ne_nil hne
  obtain ⟨rfl, hothers⟩ := List.forall_mem_cons.mp hrow
  rw [List.foldl_cons, overlay_none]
  clear hne hrow
  induction others with
  | nil => rfl
  | cons other others ih =>
    obtain ⟨rfl, hothers⟩ := List.forall_mem_cons.mp hothers
    rw [List.foldl_cons, overlay_map_map, merge_self other.distinct]
    exact ih hothers

/-- A fragment that is recorded any number of times is recorded once. -/
theorem valueAt?_insertAll_of_mem {entries : List (String × Metadata)} {key : String}
    (hpath : Key.segments key ≠ []) (hmem : (key, metadata) ∈ entries) (hne : metadata ≠ .empty)
    (h : ∀ entry ∈ entries, entry.2 ≠ .empty →
      entry = (key, metadata) ∨ Diverge (Key.segments entry.1) (Key.segments key)) :
    valueAt? (empty.insertAll entries).fields (Key.segments key) = some (.map metadata) := by
  have hrow : ∀ other ∈ recordedAt (Key.segments key) entries, other = metadata := by
    intro other hother
    obtain ⟨entry, hentry, rfl⟩ := List.mem_map.mp hother
    obtain ⟨hentry, hcond⟩ := List.mem_filter.mp hentry
    obtain ⟨hsegments, hsome⟩ := of_decide_eq_true hcond
    rcases h entry hentry hsome with rfl | hdiverge
    · rfl
    · exact absurd (hsegments ▸ List.prefix_refl _) hdiverge.1
  have hthere : metadata ∈ recordedAt (Key.segments key) entries :=
    List.mem_map.mpr ⟨(key, metadata), List.mem_filter.mpr ⟨hmem, by simpa using hne⟩, rfl⟩
  rw [valueAt?_insertAll hpath fun entry hentry hsome =>
    (h entry hentry hsome).imp_left fun heq => by rw [heq]]
  show List.foldl _ (valueAt? [] _) _ = _
  rw [valueAt?_empty]
  exact foldl_overlay_eq (List.ne_nil_of_mem hthere) hrow

/-- Fragments that say nothing are not recorded. -/
theorem insertAll_of_forall_eq_empty {entries : List (String × Metadata)}
    (h : ∀ entry ∈ entries, entry.2 = .empty) (tree : MetadataTree) :
    tree.insertAll entries = tree := by
  induction entries with
  | nil => rfl
  | cons entry entries ih =>
    obtain ⟨hfirst, hothers⟩ := List.forall_mem_cons.mp h
    rw [insertAll_cons, hfirst]
    exact ih hothers

/-! ## Merging -/

/-- A mapping laid over something is merged into what fields that has. -/
theorem overlay_map (old : Option Value) (metadata : Metadata) :
    overlay old (.map metadata) = .map (merge (fieldsOf old) metadata) := by
  by_cases hmap : ∃ existing, old = some (.map existing)
  · obtain ⟨existing, rfl⟩ := hmap
    exact overlay_map_map existing metadata
  · have hother : ∀ existing, old ≠ some (.map existing) := fun existing heq =>
      hmap ⟨existing, heq⟩
    rw [overlay_map_of_ne_map hother, fieldsOf_of_ne_map hother, 
      merge_nil_left metadata.distinct.nodup_keys]

/-- At the end of a path that leads to a value, that value is laid over what was there. -/
theorem valueAt?_merge {source : Metadata} {target : Mapping} {value : Value}
    (hvalue : valueAt? source path = some value) :
    valueAt? (merge target source) path = some (overlay (valueAt? target path) value) := by
  induction path generalizing source target with
  | nil => exact nomatch hvalue
  | cons segment path ih =>
    by_cases hlast : path = []
    · subst hlast
      rw [valueAt?_singleton] at hvalue
      rw [valueAt?_singleton, get?_merge source.distinct.nodup_keys, hvalue]
      rfl
    · rw [valueAt?_cons hlast] at hvalue
      cases hget : source.fields.get? segment with
      | none =>
        rw [hget] at hvalue
        exact nomatch hvalue.symm.trans (valueAt?_empty path)
      | some below =>
        rw [hget] at hvalue
        cases below with
        | map fields =>
          let below : Metadata := ⟨fields, source.distinct.of_get?_map hget⟩
          rw [valueAt?_cons hlast, valueAt?_cons hlast, get?_merge source.distinct.nodup_keys, hget]
          show valueAt? (fieldsOf (some (overlay _ (.map below)))) path = _
          rw [overlay_map, fieldsOf_map]
          exact ih hvalue
        | _ => exact nomatch hvalue.symm.trans (valueAt?_empty path)

/-- A path leads through mappings to one that does not have its next segment. -/
def Misses (level : Mapping) : List String → Prop
  | [] => False
  | segment :: path =>
      match level.get? segment with
      | none => True
      | some (.map fields) => Misses fields path
      | some _ => False

theorem misses_cons :
    Misses level (segment :: path) ↔
      level.get? segment = none ∨
      ∃ fields, level.get? segment = some (.map fields) ∧ Misses fields path := by
  rw [Misses]
  cases level.get? segment with
  | none => simp
  | some value => cases value <;> simp

theorem misses_empty (h : path ≠ []) : Misses [] path := by
  obtain ⟨segment, path, rfl⟩ := List.exists_cons_of_ne_nil h
  exact misses_cons.mpr (.inl rfl)

/-- A path that leaves through mappings keeps doing so when a mapping is recorded elsewhere. -/
theorem misses_insertAt (h : Misses level other) (hdiverge : Diverge path other) :
    Misses (insertAt fields level path) other := by
  induction path generalizing level other with
  | nil => exact absurd rfl hdiverge.ne_nil
  | cons segment path ih =>
    obtain ⟨segment', other, rfl⟩ := List.exists_cons_of_ne_nil hdiverge.symm.ne_nil
    have helsewhere : ∀ value, segment ≠ segment' →
        Misses (level.insert segment value) (segment' :: other) := by
      intro value hne
      rw [misses_cons, get?_insert_of_ne (Ne.symm hne)]
      exact misses_cons.mp h
    by_cases heq : segment = segment'
    · subst heq
      have hrest := (diverge_cons.mp hdiverge).resolve_left fun hne => hne rfl
      rw [insertAt_cons hrest.ne_nil]
      refine misses_cons.mpr (.inr ⟨_, get?_insert_self _ _ _, ih ?_ hrest⟩)
      rcases misses_cons.mp h with hnone | ⟨fields, hsome, hfields⟩
      · rw [hnone]
        exact misses_empty hrest.symm.ne_nil
      · rwa [hsome]
    · by_cases hlast : path = []
      · subst hlast
        exact helsewhere _ heq
      · rw [insertAt_cons hlast]
        exact helsewhere _ heq

theorem misses_insertAll {tree : MetadataTree} {entries : List (String × Metadata)}
    (htree : Misses tree.fields path)
    (h : ∀ entry ∈ entries, entry.2 ≠ .empty → Diverge (Key.segments entry.1) path) :
    Misses (tree.insertAll entries).fields path := by
  induction entries generalizing tree with
  | nil => exact htree
  | cons entry entries ih =>
    obtain ⟨hfirst, hothers⟩ := List.forall_mem_cons.mp h
    refine ih ?_ hothers
    rw [fields_insert]
    split
    · exact htree
    · next hne => exact misses_insertAt htree (hfirst hne)

/-- What is at the end of a path that leaves through mappings stays when these are merged in. -/
theorem valueAt?_merge_of_misses {source : Metadata} {target : Mapping}
    (hmisses : Misses source path) :
    valueAt? (merge target source) path = valueAt? target path := by
  induction path generalizing source target with
  | nil => exact False.elim hmisses
  | cons segment path ih =>
    have hget := get?_merge source.distinct.nodup_keys segment target
    rcases misses_cons.mp hmisses with hnone | ⟨fields, hsome, hfields⟩
    · rw [hnone] at hget
      by_cases hlast : path = []
      · subst hlast
        exact hget
      · rw [valueAt?_cons hlast, valueAt?_cons hlast, hget]
    · have hlast : path ≠ [] := by
        rintro rfl
        exact hfields
      let below : Metadata := ⟨fields, source.distinct.of_get?_map hsome⟩
      rw [hsome] at hget
      have hmerged : Mapping.get? segment (merge target source) =
          some (overlay (Mapping.get? segment target) (.map below)) := hget
      rw [valueAt?_cons hlast, valueAt?_cons hlast, hmerged, overlay_map, fieldsOf_map]
      exact ih hfields

/-! ## Laying a tree into a field -/

variable {tree : MetadataTree} {reserved document : String}

theorem isEmpty_iff : tree.isEmpty ↔ tree.fields = [] :=
  List.isEmpty_iff

/-- A tree as the only field of metadata. -/
def under (tree : MetadataTree) (reserved : String) : Metadata :=
  ⟨[(reserved, .map tree.fields)], by simpa [keys] using tree.distinct⟩

theorem under_ne_empty (tree : MetadataTree) (reserved : String) :
    tree.under reserved ≠ .empty :=
  fun heq => nomatch congrArg Metadata.fields heq

/-- A tree that holds something is merged in under the field, unless that is occupied. -/
theorem attach_eq_ok (h : ¬ tree.isEmpty) {metadata attached : Metadata} :
    tree.attach reserved document metadata = .ok attached ↔
      ¬ metadata.Occupied reserved ∧ attached = Metadata.merge metadata (tree.under reserved) := by
  have hfields : (Metadata.merge metadata (tree.under reserved)).fields =
      metadata.fields.insert reserved
        (overlay (metadata.fields.get? reserved) (.map tree.fields)) := by
    rw [Metadata.fields_merge, under, merge_cons, merge_nil]
  rw [attach, if_neg h, Metadata.Occupied, Metadata.ext_iff, hfields]
  split
  · next hget => simp [hget, Metadata.ext_iff, eq_comm]
  · next existing hget => simp [hget, Metadata.ext_iff, eq_comm]
  · next value hmap hget =>
    simp only [reduceCtorEq, hget, Option.some.injEq, exists_eq_left', false_iff, not_and]
    exact fun hnot => absurd hmap hnot

/-- A field that is occupied is the only conflict. -/
theorem attach_eq_error {metadata : Metadata} {error : Error} :
    tree.attach reserved document metadata = .error error ↔
      ¬ tree.isEmpty ∧ metadata.Occupied reserved ∧
        error = .reservedKeyConflict document reserved := by
  rw [attach, Metadata.Occupied]
  by_cases hempty : tree.isEmpty
  · simp [hempty]
  · rw [if_neg hempty]
    split
    · next hget => simp [hget]
    · next existing hget => simp [hget]
    · next value hmap hget =>
      simp only [hget, hempty, Option.some.injEq, exists_eq_left', Except.error.injEq, eq_comm]
      exact ⟨fun heq => ⟨nofun, hmap, heq⟩, fun h => h.2.2⟩

/-- A path under the field goes on in the tree. -/
theorem valueAt?_under (tree : MetadataTree) (reserved : String) (h : path ≠ []) :
    valueAt? (tree.under reserved) (reserved :: path) = valueAt? tree.fields path := by
  rw [valueAt?_cons h]
  simp [under, Mapping.get?, fieldsOf_map]

theorem misses_under (h : Misses tree.fields path) (reserved : String) :
    Misses (tree.under reserved) (reserved :: path) :=
  misses_cons.mpr (.inr ⟨tree.fields, by simp [under, Mapping.get?], h⟩)

/-- A tree without fragments changes nothing. -/
theorem attach_of_isEmpty (h : tree.isEmpty) (reserved document : String) (metadata : Metadata) :
    tree.attach reserved document metadata = .ok metadata :=
  if_pos h

/-- Where a tree is laid into a field, the other fields, and their order, are not touched. -/
theorem filter_attach {before after : Metadata}
    (h : tree.attach reserved document before = .ok after) :
    after.fields.filter (·.1 ≠ reserved) = before.fields.filter (·.1 ≠ reserved) := by
  by_cases hempty : tree.isEmpty
  · rw [attach_of_isEmpty hempty] at h
    rw [Except.ok.inj h]
  · obtain ⟨-, rfl⟩ := (attach_eq_ok hempty).mp h
    rw [Metadata.fields_merge, under, merge_cons, merge_nil]
    exact filter_insert _ _ _

section Entries

variable {entries : List (String × Metadata)} {before after : Metadata}

/-- A tree of fragments that say nothing changes nothing. -/
theorem attach_insertAll_of_forall_eq_empty (hnone : ∀ entry ∈ entries, entry.2 = .empty)
    (h : (empty.insertAll entries).attach reserved document before = .ok after) :
    after = before := by
  rw [insertAll_of_forall_eq_empty hnone, attach_of_isEmpty rfl] at h
  exact (Except.ok.inj h).symm

variable (hattach : (empty.insertAll entries).attach reserved document before = .ok after)

include hattach

/-- A fragment that is recorded is merged in at the path under the field that its key spells. -/
theorem valueAt?_attach_of_mem {key : String} (hpath : Key.segments key ≠ [])
    (hmem : (key, metadata) ∈ entries) (hne : metadata ≠ .empty)
    (h : ∀ entry ∈ entries, entry.2 ≠ .empty →
      entry = (key, metadata) ∨ Diverge (Key.segments entry.1) (Key.segments key)) :
    valueAt? after (reserved :: Key.segments key) =
      some (.map (merge (fieldsOf (valueAt? before (reserved :: Key.segments key))) metadata)) := by
  have hvalue := valueAt?_insertAll_of_mem hpath hmem hne h
  have hempty : ¬ (empty.insertAll entries).isEmpty := by
    intro hempty
    rw [isEmpty_iff.mp hempty, valueAt?_empty] at hvalue
    exact nomatch hvalue
  obtain ⟨-, rfl⟩ := (attach_eq_ok hempty).mp hattach
  rw [← valueAt?_under _ reserved hpath] at hvalue
  rw [Metadata.fields_merge, valueAt?_merge hvalue, overlay_map]

/-- What is at another path under the field stays. -/
theorem valueAt?_attach_of_diverge (hpath : path ≠ [])
    (h : ∀ entry ∈ entries, entry.2 ≠ .empty → Diverge (Key.segments entry.1) path) :
    valueAt? after (reserved :: path) = valueAt? before (reserved :: path) := by
  by_cases hempty : (empty.insertAll entries).isEmpty
  · rw [attach_of_isEmpty hempty] at hattach
    rw [Except.ok.inj hattach]
  · obtain ⟨-, rfl⟩ := (attach_eq_ok hempty).mp hattach
    exact valueAt?_merge_of_misses (misses_under (misses_insertAll (misses_empty hpath) h) reserved)

end Entries

end MetadataTree

end Transclusion
