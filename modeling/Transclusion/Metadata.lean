import Transclusion.Value

/-!
# Metadata

The metadata of a document are a mapping in which no key stands twice, nor does one in the mappings
that its fields hold. This is part of the type, and all that is done to metadata keeps it.

* `Value.Distinct`, `Mapping.Distinct` — no key stands twice;
* `Value.inductionOnMaps` — induction along mappings;
* `Mapping.Distinct.insert`, `Mapping.Distinct.merge` — storing and merging keep keys distinct;
* `Metadata` — the type, with `empty`, `insert`, `merge`.
-/

namespace Transclusion

/-! ## Distinct keys -/

mutual

/-- No key stands twice in a mapping that the value is, nor in those that are below it as fields.
Merging never looks into a list, and neither does this. -/
def Value.Distinct : Value → Prop
  | .map entries => Mapping.Distinct entries
  | _ => True

/-- No key stands twice, and the values have distinct keys as well. -/
def Mapping.Distinct : Mapping → Prop
  | [] => True
  | (key, value) :: rest =>
      key ∉ Mapping.keys rest ∧ Value.Distinct value ∧ Mapping.Distinct rest

end

mutual

/-- Whether keys are distinct can be decided. -/
protected def Value.decDistinct : (value : Value) → Decidable value.Distinct
  | .map entries =>
    have := Value.decDistinctEntries entries
    decidable_of_iff (Mapping.Distinct entries) (by rw [Value.Distinct])
  | .null | .bool _ | .int _ | .float _ | .str _ | .list _ =>
    isTrue (by simp only [Value.Distinct])

/-- Whether the keys of entries are distinct can be decided. -/
protected def Value.decDistinctEntries :
    (entries : List (String × Value)) → Decidable (Mapping.Distinct entries)
  | [] => isTrue (by simp only [Mapping.Distinct])
  | (key, value) :: rest =>
    have := Value.decDistinct value
    have := Value.decDistinctEntries rest
    decidable_of_iff (key ∉ Mapping.keys rest ∧ value.Distinct ∧ Mapping.Distinct rest)
      (by rw [Mapping.Distinct])

end

instance (fields : Mapping) : Decidable fields.Distinct :=
  Value.decDistinctEntries fields

/-- Induction along mappings: to show something of a value, it may be assumed of the values in it if
it is a mapping. -/
@[elab_as_elim]
theorem Value.inductionOnMaps {motive : Value → Prop}
    (map : ∀ entries, (∀ entry ∈ entries, motive entry.2) → motive (.map entries))
    (other : ∀ value, (∀ entries, value ≠ .map entries) → motive value) (value : Value) :
    motive value :=
  match value with
  | .map entries => map entries fun entry _ => inductionOnMaps map other entry.2
  | .null | .bool _ | .int _ | .float _ | .str _ | .list _ => other _ nofun
termination_by sizeOf value
decreasing_by
  rename_i hentry
  have hless := List.sizeOf_lt_of_mem hentry
  obtain ⟨key, value⟩ := entry
  simp only [Value.map.sizeOf_spec, Prod.mk.sizeOf_spec] at hless ⊢
  omega

@[simp] theorem Value.distinct_map {entries : Mapping} :
    (Value.map entries).Distinct ↔ entries.Distinct := by
  rw [Value.Distinct]

theorem Value.distinct_of_ne_map {value : Value} (h : ∀ entries, value ≠ .map entries) :
    value.Distinct := by
  cases value with
  | map entries => exact absurd rfl (h entries)
  | _ => simp only [Value.Distinct]

namespace Mapping

variable {key : String} {value : Value} {fields target source : Mapping}

@[simp] theorem distinct_nil : Distinct [] := by
  simp only [Distinct]

@[simp] theorem distinct_cons {entry : String × Value} :
    Distinct (entry :: fields) ↔
      entry.1 ∉ keys fields ∧ entry.2.Distinct ∧ fields.Distinct := by
  obtain ⟨key, value⟩ := entry
  rw [Distinct]

theorem Distinct.nodup_keys (h : fields.Distinct) : (keys fields).Nodup := by
  induction fields with
  | nil => exact List.nodup_nil
  | cons entry rest ih =>
    obtain ⟨hfirst, -, hrest⟩ := distinct_cons.mp h
    exact List.nodup_cons.mpr ⟨hfirst, ih hrest⟩

theorem Distinct.of_mem (h : fields.Distinct) {entry : String × Value} (hmem : entry ∈ fields) :
    entry.2.Distinct := by
  induction fields with
  | nil => exact nomatch hmem
  | cons first rest ih =>
    obtain ⟨-, hvalue, hrest⟩ := distinct_cons.mp h
    rcases List.mem_cons.mp hmem with rfl | hmem
    · exact hvalue
    · exact ih hrest hmem

theorem mem_of_get?_eq_some (h : get? key fields = some value) : (key, value) ∈ fields := by
  induction fields with
  | nil => exact nomatch h
  | cons entry rest ih =>
    obtain ⟨k, v⟩ := entry
    rw [get?] at h
    split at h
    · next hkey =>
      cases h
      rw [hkey]
      exact List.mem_cons_self
    · exact List.mem_cons_of_mem _ (ih h)

theorem Distinct.get? (h : fields.Distinct) (hget : Mapping.get? key fields = some value) :
    value.Distinct :=
  h.of_mem (mem_of_get?_eq_some hget)

theorem Distinct.of_get?_map (h : fields.Distinct) {existing : Mapping}
    (hget : Mapping.get? key fields = some (.map existing)) : existing.Distinct :=
  Value.distinct_map.mp (h.get? hget)

/-! ## Storing and merging -/

theorem Distinct.insert (h : fields.Distinct) (hvalue : value.Distinct) (key : String) :
    (insert key value fields).Distinct := by
  induction fields with
  | nil => simpa [Mapping.insert, keys] using hvalue
  | cons entry rest ih =>
    obtain ⟨hfirst, hentry, hrest⟩ := distinct_cons.mp h
    rw [Mapping.insert]
    split
    · exact distinct_cons.mpr ⟨hfirst, hvalue, hrest⟩
    · next hkey =>
      refine distinct_cons.mpr ⟨?_, hentry, ih hrest⟩
      rw [keys_insert]
      split
      · exact hfirst
      · simpa [hfirst] using hkey

theorem overlay_of_ne_map (h : ∀ entries, value ≠ .map entries) (old : Option Value) :
    overlay old value = value := by
  cases value with
  | map entries => exact absurd rfl (h entries)
  | _ => simp [overlay]

@[simp] theorem overlay_map_map (existing entries : Mapping) :
    overlay (some (.map existing)) (.map entries) = .map (merge existing entries) := by
  rw [overlay]

theorem overlay_map_of_ne_map {old : Option Value} (h : ∀ existing, old ≠ some (.map existing))
    (entries : Mapping) : overlay old (.map entries) = .map entries := by
  rw [overlay]
  exact h

theorem merge_cons (target : Mapping) (entry : String × Value) (rest : Mapping) :
    merge target (entry :: rest) =
      merge (insert entry.1 (overlay (get? entry.1 target) entry.2) target) rest := by
  obtain ⟨key, value⟩ := entry
  rw [merge]

/-- What is laid over something has distinct keys if both have. -/
theorem distinct_overlay {old : Option Value} (hold : ∀ v, old = some v → v.Distinct)
    (h : value.Distinct) : (overlay old value).Distinct := by
  induction value using Value.inductionOnMaps generalizing old with
  | other value hother => rwa [overlay_of_ne_map hother]
  | map entries ih =>
    by_cases hmap : ∃ existing, old = some (.map existing)
    · obtain ⟨existing, rfl⟩ := hmap
      rw [overlay_map_map, Value.distinct_map]
      have hexisting := Value.distinct_map.mp (hold _ rfl)
      rw [Value.distinct_map] at h
      clear hold
      induction entries generalizing existing with
      | nil => rwa [merge_nil]
      | cons entry rest ihrest =>
        obtain ⟨-, hvalue, hrest⟩ := distinct_cons.mp h
        obtain ⟨ihfirst, ihothers⟩ := List.forall_mem_cons.mp ih
        rw [merge_cons]
        refine ihrest ihothers hrest _ ?_
        exact hexisting.insert (ihfirst (fun v hv => hexisting.get? hv) hvalue) _
    · rwa [overlay_map_of_ne_map fun existing heq => hmap ⟨existing, heq⟩]

theorem Distinct.merge (htarget : target.Distinct) (hsource : source.Distinct) :
    (merge target source).Distinct := by
  have hold : ∀ v, some (Value.map target) = some v → v.Distinct := by
    rintro v ⟨⟩
    exact Value.distinct_map.mpr htarget
  have hboth := distinct_overlay hold (Value.distinct_map.mpr hsource)
  rwa [overlay_map_map, Value.distinct_map] at hboth

end Mapping

/-! ## The type -/

/-- A mapping in which no key stands twice, nor in the mappings below it. -/
@[ext]
structure Metadata where
  fields : Mapping
  distinct : fields.Distinct
  deriving DecidableEq, Repr

namespace Metadata

instance : Coe Metadata Mapping := ⟨fields⟩

/-- No metadata. -/
def empty : Metadata := ⟨[], Mapping.distinct_nil⟩

instance : Inhabited Metadata := ⟨empty⟩

/-- Stores a value under a key: a key already present keeps its place, a new one goes last. -/
def insert (metadata : Metadata) (key : String) (value : Value) (h : value.Distinct) : Metadata :=
  ⟨metadata.fields.insert key value, metadata.distinct.insert h key⟩

/-- `source` laid over `target`. -/
def merge (target source : Metadata) : Metadata :=
  ⟨Mapping.merge target source, target.distinct.merge source.distinct⟩

@[simp] theorem fields_empty : empty.fields = [] := rfl

@[simp] theorem fields_eq_nil {metadata : Metadata} : metadata.fields = [] ↔ metadata = .empty := by
  rw [Metadata.ext_iff, fields_empty]

@[simp] theorem fields_insert (metadata : Metadata) (key : String) {value : Value}
    (h : value.Distinct) :
    (metadata.insert key value h).fields = metadata.fields.insert key value := rfl

@[simp] theorem fields_merge (target source : Metadata) :
    (merge target source).fields = Mapping.merge target source := rfl

end Metadata

end Transclusion
