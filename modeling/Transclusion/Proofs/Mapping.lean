import Transclusion.Metadata

/-!
# Laws of merging

One mapping laid over another changes what it says something about, and nothing else.

* `Mapping.get?_merge` — what a key holds after merging;
* `Mapping.keys_merge` — the order of the keys after merging;
* `Mapping.merge_eq_self` — merging that changes no value changes nothing;
* `Mapping.merge_merge_self` — merging a second time changes nothing.
-/

namespace Transclusion

namespace Mapping

variable {key : String} {value : Value} {fields target source : Mapping}

/-! ## Look-up -/

theorem get?_eq_none_iff : get? key fields = none ↔ key ∉ keys fields := by
  induction fields with
  | nil => simp [keys]
  | cons entry rest ih =>
    obtain ⟨k, v⟩ := entry
    rw [get?]
    split
    · next hkey => simp [keys, hkey]
    · next hkey => simpa [keys, Ne.symm hkey] using ih

theorem get?_eq_some_of_mem (hnodup : (keys fields).Nodup) (h : (key, value) ∈ fields) :
    get? key fields = some value := by
  induction fields with
  | nil => exact nomatch h
  | cons entry rest ih =>
    obtain ⟨k, v⟩ := entry
    obtain ⟨hfirst, hrest⟩ := List.nodup_cons.mp hnodup
    rw [get?]
    rcases List.mem_cons.mp h with heq | hmem
    · obtain ⟨rfl, rfl⟩ := Prod.mk.inj heq
      exact if_pos rfl
    · have hkey : key ∈ keys rest := List.mem_map_of_mem (f := Prod.fst) hmem
      rw [if_neg fun heq : k = key => hfirst (heq ▸ hkey)]
      exact ih hrest hmem

/-! ## Insertion -/

theorem insert_of_not_mem (h : key ∉ keys fields) (value : Value) :
    insert key value fields = fields ++ [(key, value)] := by
  induction fields with
  | nil => rfl
  | cons entry rest ih =>
    obtain ⟨hne, hrest⟩ : key ≠ entry.1 ∧ key ∉ keys rest := by simpa [keys] using h
    rw [insert, if_neg (Ne.symm hne), ih hrest]
    rfl

/-- Storing what is there changes nothing. -/
theorem insert_of_get? (h : get? key fields = some value) :
    insert key value fields = fields := by
  induction fields with
  | nil => exact nomatch h
  | cons entry rest ih =>
    obtain ⟨k, v⟩ := entry
    rw [get?] at h
    rw [insert]
    split at h
    · next hkey =>
      cases h
      rw [if_pos hkey]
    · next hkey => rw [if_neg hkey, ih h]

/-- The fields with other keys, and their order, are not touched. -/
theorem filter_insert (key : String) (value : Value) (fields : Mapping) :
    (insert key value fields).filter (·.1 ≠ key) = fields.filter (·.1 ≠ key) := by
  induction fields with
  | nil => simp [insert]
  | cons entry rest ih =>
    rw [insert]
    split
    · next hkey => simp [hkey]
    · next hkey => simp only [List.filter_cons, ih]

/-! ## Merging -/

@[simp] theorem overlay_none (value : Value) : overlay none value = value := by
  cases value <;> simp [overlay]

/-- Nothing that is merged into fields empties them. -/
theorem merge_ne_nil {target : Mapping} (h : target ≠ []) (source : Mapping) :
    merge target source ≠ [] := by
  induction source generalizing target with
  | nil => simpa using h
  | cons entry rest ih =>
    rw [merge_cons]
    refine ih fun hnil => ?_
    have hget := get?_insert_self entry.1 (overlay (get? entry.1 target) entry.2) target
    rw [hnil] at hget
    exact nomatch hget

/-- A key holds what it held with the value that is merged in laid over it. -/
theorem get?_merge (h : (keys source).Nodup) (key : String) (target : Mapping) :
    get? key (merge target source) =
      match get? key source with
      | none => get? key target
      | some value => some (overlay (get? key target) value) := by
  induction source generalizing target with
  | nil => rw [merge_nil, get?_nil]
  | cons entry rest ih =>
    obtain ⟨k, v⟩ := entry
    obtain ⟨hfirst, hrest⟩ := List.nodup_cons.mp h
    rw [merge_cons, ih hrest, get?]
    by_cases hkey : k = key
    · subst hkey
      rw [if_pos rfl, get?_eq_none_iff.mpr hfirst]
      exact get?_insert_self _ _ _
    · rw [if_neg hkey, get?_insert_of_ne (Ne.symm hkey)]

theorem get?_merge_of_mem {entry : String × Value} (h : (keys source).Nodup) (hmem : entry ∈ source)
    (target : Mapping) :
    get? entry.1 (merge target source) = some (overlay (get? entry.1 target) entry.2) := by
  rw [get?_merge h, get?_eq_some_of_mem h hmem]

/-- Merging that changes no value changes nothing. -/
theorem merge_eq_self
    (h : ∀ entry ∈ source, ∃ value, get? entry.1 target = some value ∧
      overlay (some value) entry.2 = value) : merge target source = target := by
  induction source with
  | nil => exact merge_nil target
  | cons entry rest ih =>
    obtain ⟨⟨value, hget, hvalue⟩, hrest⟩ := List.forall_mem_cons.mp h
    rw [merge_cons, hget, hvalue, insert_of_get? hget]
    exact ih hrest

/-- A value that is laid over something a second time changes nothing. -/
theorem overlay_overlay (h : value.Distinct) (old : Option Value) :
    overlay (some (overlay old value)) value = overlay old value := by
  induction value using Value.inductionOnMaps generalizing old with
  | other value hother => rw [overlay_of_ne_map hother, overlay_of_ne_map hother]
  | map entries ih =>
    rw [Value.distinct_map] at h
    by_cases hmap : ∃ existing, old = some (.map existing)
    · obtain ⟨existing, rfl⟩ := hmap
      rw [overlay_map_map, overlay_map_map, merge_eq_self]
      exact fun entry hentry =>
        ⟨_, get?_merge_of_mem h.nodup_keys hentry existing, ih entry hentry (h.of_mem hentry) _⟩
    · rw [overlay_map_of_ne_map fun existing heq => hmap ⟨existing, heq⟩, overlay_map_map,
        merge_eq_self]
      intro entry hentry
      refine ⟨entry.2, get?_eq_some_of_mem h.nodup_keys hentry, ?_⟩
      simpa using ih entry hentry (h.of_mem hentry) none

/-- Merging a mapping a second time changes nothing. -/
theorem merge_merge_self (h : source.Distinct) (target : Mapping) :
    merge (merge target source) source = merge target source := by
  simpa using overlay_overlay (Value.distinct_map.mpr h) (some (.map target))

/-- A mapping merged into itself stays as it is. -/
theorem merge_self (h : fields.Distinct) : merge fields fields = fields := by
  simpa using overlay_overlay (Value.distinct_map.mpr h) none

/-- New keys go last in the order they have. -/
theorem merge_of_disjoint (h : (keys source).Nodup)
    (hdisjoint : ∀ key ∈ keys source, key ∉ keys target) :
    merge target source = target ++ source := by
  induction source generalizing target with
  | nil => simp
  | cons entry rest ih =>
    obtain ⟨hfirst, hrest⟩ := List.nodup_cons.mp h
    obtain ⟨hnew, hothers⟩ := List.forall_mem_cons.mp hdisjoint
    rw [merge_cons, get?_eq_none_iff.mpr hnew, overlay_none, insert_of_not_mem hnew, ih hrest]
    · simp
    · intro key hkey
      have hne : key ≠ entry.1 := fun heq => hfirst (heq ▸ hkey)
      simpa [keys, hne] using hothers key hkey

/-- The old keys keep their order, and the new ones follow in the order they have. -/
theorem keys_merge (h : (keys source).Nodup) (target : Mapping) :
    keys (merge target source) = keys target ++ (keys source).filter (· ∉ keys target) := by
  induction source generalizing target with
  | nil => simp [keys]
  | cons entry rest ih =>
    obtain ⟨hfirst, hrest⟩ := List.nodup_cons.mp h
    rw [merge_cons, ih hrest, keys_insert]
    show _ = keys target ++ (entry.1 :: keys rest).filter (· ∉ keys target)
    by_cases hmem : entry.1 ∈ keys target
    · simp [hmem]
    · have hothers : ∀ key ∈ keys rest,
          decide (key ∉ keys target ++ [entry.1]) = decide (key ∉ keys target) := by
        intro key hkey
        have hne : key ≠ entry.1 := fun heq => hfirst (heq ▸ hkey)
        simp [hne]
      rw [if_neg hmem, List.filter_congr hothers, List.filter_cons_of_pos (by simpa using hmem)]
      simp

theorem merge_nil_left (h : (keys source).Nodup) : merge [] source = source :=
  merge_of_disjoint h fun _ _ => List.not_mem_nil

end Mapping

namespace Metadata

@[simp] theorem merge_empty (target : Metadata) : merge target empty = target :=
  Metadata.ext (Mapping.merge_nil target)

@[simp] theorem empty_merge (source : Metadata) : merge empty source = source :=
  Metadata.ext (Mapping.merge_nil_left source.distinct.nodup_keys)

/-- Nothing that is merged into metadata empties them. -/
theorem merge_ne_empty {target : Metadata} (h : target ≠ empty) (source : Metadata) :
    merge target source ≠ empty :=
  mt fields_eq_nil.mpr (Mapping.merge_ne_nil (mt fields_eq_nil.mp h) source)

/-- Merging metadata a second time changes nothing. -/
theorem merge_merge_self (target source : Metadata) :
    merge (merge target source) source = merge target source :=
  Metadata.ext (Mapping.merge_merge_self source.distinct target)

end Metadata

end Transclusion
