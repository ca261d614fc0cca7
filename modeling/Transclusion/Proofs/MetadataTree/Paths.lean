import Transclusion.Proofs.MetadataTree

/-!
# Paths through merged mappings

Which paths there are after one mapping is laid over another, what they lead to, and in which order
the keys of each level stand.

* `MetadataTree.valueAt?_append` — a path is followed front first;
* `MetadataTree.Plain`, `MetadataTree.Nests` — a path that ends at a mapping, or at something else;
* `MetadataTree.Kept` — a path of a mapping that stays when another mapping is laid over it;
* `MetadataTree.merge_along_paths` — the laws of merging.
-/

namespace Transclusion

namespace MetadataTree

open Mapping

variable {level target : Mapping} {source : Metadata} {path front back : List String}

/-! ## Fronts of paths -/

/-- What a path leads to is found by following its front and, in the fields there, the rest. -/
theorem valueAt?_append (hfront : front ≠ []) (hback : back ≠ []) :
    valueAt? level (front ++ back) = valueAt? (fieldsOf (valueAt? level front)) back := by
  induction front generalizing level with
  | nil => exact absurd rfl hfront
  | cons segment front ih =>
    by_cases hlast : front = []
    · subst hlast
      exact valueAt?_cons hback
    · have hmore : front ++ back ≠ [] := by simp [hlast]
      rw [List.cons_append, valueAt?_cons hmore, ih hlast, valueAt?_cons hlast]

/-- A path leads to something else than a mapping. -/
def Plain (level : Mapping) (path : List String) : Prop :=
  ∃ value, valueAt? level path = some value ∧ ∀ fields, value ≠ .map fields

/-- A path leads to a mapping. -/
def Nests (level : Mapping) (path : List String) : Prop :=
  ∃ fields, valueAt? level path = some (.map fields)

theorem plain_or_nests (h : (valueAt? level path).isSome) :
    Plain level path ∨ Nests level path := by
  obtain ⟨value, hvalue⟩ := Option.isSome_iff_exists.mp h
  by_cases hmap : ∃ fields, value = .map fields
  · obtain ⟨fields, rfl⟩ := hmap
    exact .inr ⟨fields, hvalue⟩
  · exact .inl ⟨value, hvalue, fun fields heq => hmap ⟨fields, heq⟩⟩

theorem Plain.not_nests (h : Plain level path) : ¬ Nests level path := by
  intro hnests
  obtain ⟨value, hvalue, hplain⟩ := h
  obtain ⟨fields, hfields⟩ := hnests
  exact hplain fields (Option.some.inj (hvalue.symm.trans hfields))

/-- A path that goes on passes a mapping. -/
theorem nests_of_append (hfront : front ≠ []) (hback : back ≠ [])
    (h : (valueAt? level (front ++ back)).isSome) : Nests level front := by
  rw [valueAt?_append hfront hback] at h
  by_contra hnot
  rw [fieldsOf_of_ne_map fun fields heq => hnot ⟨fields, heq⟩, valueAt?_empty] at h
  exact nomatch h

/-- Nothing is behind something else than a mapping. -/
theorem Plain.eq_of_prefix (h : Plain level front) (hpath : front <+: path)
    (hsome : (valueAt? level path).isSome) : front = path := by
  obtain ⟨back, rfl⟩ := hpath
  have hfront : front ≠ [] := by
    rintro rfl
    obtain ⟨value, hvalue, -⟩ := h
    exact nomatch hvalue
  by_contra hne
  have hback : back ≠ [] := by simpa using hne
  exact h.not_nests (nests_of_append hfront hback hsome)

/-- What stands in a mapping without double keys has none either. -/
theorem distinct_valueAt? {value : Value} (hvalue : valueAt? source path = some value) :
    value.Distinct := by
  induction path generalizing source with
  | nil => exact nomatch hvalue
  | cons segment path ih =>
    by_cases hlast : path = []
    · subst hlast
      exact source.distinct.get? hvalue
    · rw [valueAt?_cons hlast] at hvalue
      let below : Metadata := ⟨fieldsOf (source.fields.get? segment),
        distinct_fieldsOf fun v hv => source.distinct.get? hv⟩
      have hbelow : valueAt? below path = some value := hvalue
      exact ih hbelow

/-- A path that leads nowhere is stopped on its way, or it leaves the mappings. -/
theorem plain_or_misses (hpath : path ≠ []) (hnone : valueAt? level path = none) :
    (∃ front, front <+: path ∧ Plain level front) ∨ Misses level path := by
  induction path generalizing level with
  | nil => exact absurd rfl hpath
  | cons segment path ih =>
    cases hget : level.get? segment with
    | none => exact .inr (misses_cons.mpr (.inl hget))
    | some value =>
      by_cases hmap : ∃ fields, value = .map fields
      · obtain ⟨fields, rfl⟩ := hmap
        have hlast : path ≠ [] := by
          rintro rfl
          exact nomatch hget.symm.trans hnone
        rw [valueAt?_cons hlast, hget, fieldsOf_map] at hnone
        rcases ih hlast hnone with ⟨front, hfront, other, hother, hplain⟩ | hmisses
        · have hne : front ≠ [] := by
            rintro rfl
            exact nomatch hother
          have hlonger := (List.prefix_cons_inj segment).mpr hfront
          refine .inl ⟨segment :: front, hlonger, other, ?_, hplain⟩
          rw [valueAt?_cons hne, hget, fieldsOf_map]
          exact hother
        · exact .inr (misses_cons.mpr (.inr ⟨fields, hget, hmisses⟩))
      · refine .inl ⟨[segment], ?_, value, hget, fun fields heq => hmap ⟨fields, heq⟩⟩
        exact (List.prefix_cons_inj segment).mpr List.nil_prefix

/-! ## Laying a mapping over another one -/

/-- A path of `target` that stays when `source` is laid over it: nowhere on the path, its end
included, does `source` have something else than a mapping, or a mapping where `target` has
something else. -/
structure Kept (target source : Mapping) (path : List String) : Prop where
  found : (valueAt? target path).isSome
  unreplaced : ∀ front, front <+: path → ¬ Plain source front
  undisplaced : ∀ front, front <+: path → Plain target front → ¬ Nests source front

/-- What is no mapping replaces what was there. -/
theorem valueAt?_merge_of_plain {value : Value}
    (hvalue : valueAt? source path = some value) (hplain : ∀ fields, value ≠ .map fields) :
    valueAt? (merge target source) path = some value := by
  rw [valueAt?_merge hvalue, overlay_of_ne_map hplain]

/-- Where both have a mapping, one is laid over the other. -/
theorem valueAt?_merge_of_nests {old new : Mapping}
    (hold : valueAt? target path = some (.map old))
    (hnew : valueAt? source path = some (.map new)) :
    valueAt? (merge target source) path = some (.map (merge old new)) := by
  rw [valueAt?_merge hnew, hold, overlay_map_map]

/-- A path that stays and that the other mapping does not have leads to what it led to. -/
theorem Kept.valueAt?_merge (hkept : Kept target source path)
    (hnone : valueAt? source path = none) :
    valueAt? (merge target source) path = valueAt? target path := by
  have hpath : path ≠ [] := by
    rintro rfl
    exact nomatch hkept.found
  rcases plain_or_misses hpath hnone with ⟨front, hfront, hplain⟩ | hmisses
  · exact absurd hplain (hkept.unreplaced front hfront)
  · exact valueAt?_merge_of_misses hmisses

/-- A path that stays and that the other mapping has as well leads to a mapping in both. -/
theorem Kept.nests (hkept : Kept target source path) (hsome : (valueAt? source path).isSome) :
    Nests target path ∧ Nests source path := by
  have hself : path <+: path := List.prefix_refl path
  have hsource := (plain_or_nests hsome).resolve_left (hkept.unreplaced path hself)
  refine ⟨?_, hsource⟩
  rcases plain_or_nests hkept.found with hplain | hnests
  · exact absurd hsource (hkept.undisplaced path hself hplain)
  · exact hnests

/-- A path that only the old mapping can have led on is one that stays. -/
theorem kept_of_isSome_merge (hnone : valueAt? source path = none)
    (hsome : (valueAt? (merge target source) path).isSome) : Kept target source path := by
  have hpath : path ≠ [] := by
    rintro rfl
    exact nomatch hsome
  have hunreplaced : ∀ front, front <+: path → ¬ Plain source front := by
    intro front hfront hplain
    obtain ⟨value, hvalue, hvalueplain⟩ := hplain
    have hmerged : Plain (merge target source) front :=
      ⟨value, valueAt?_merge_of_plain hvalue hvalueplain, hvalueplain⟩
    rw [hmerged.eq_of_prefix hfront hsome, hnone] at hvalue
    exact nomatch hvalue
  have hmisses : Misses source path := by
    rcases plain_or_misses hpath hnone with ⟨front, hfront, hplain⟩ | hmisses
    · exact absurd hplain (hunreplaced front hfront)
    · exact hmisses
  rw [valueAt?_merge_of_misses hmisses] at hsome
  refine ⟨hsome, hunreplaced, ?_⟩
  intro front hfront hplain hnests
  obtain ⟨fields, hfields⟩ := hnests
  rw [hplain.eq_of_prefix hfront hsome, hnone] at hfields
  exact nomatch hfields

/-- Laying one mapping over another, path by path. What is no mapping in `source` stands at its path
in the result. A path of `target` that stays leads to what it led to, with what `source` has there
merged in below it. There are no other paths than these and those of `source`. At every level that
both have, the old keys come first in their order, and the new ones follow in theirs. Merging a
second time changes nothing, and a mapping merged into itself stays as it is. -/
theorem merge_along_paths (target : Mapping) (source : Metadata) :
    (∀ path value, valueAt? source path = some value → (∀ fields, value ≠ .map fields) →
      valueAt? (merge target source) path = some value) ∧
    (∀ path value, Kept target source path → valueAt? target path = some value →
      (valueAt? source path = none ∧ valueAt? (merge target source) path = some value) ∨
      ∃ old new, value = .map old ∧ valueAt? source path = some (.map new) ∧
        valueAt? (merge target source) path = some (.map (merge old new))) ∧
    (∀ path, (valueAt? (merge target source) path).isSome ↔
      (valueAt? source path).isSome ∨ Kept target source path) ∧
    (keys (merge target source) = keys target ++ (keys source).filter (· ∉ keys target) ∧
      ∀ path old new, valueAt? target path = some (.map old) →
        valueAt? source path = some (.map new) →
        ∃ fields, valueAt? (merge target source) path = some (.map fields) ∧
          keys fields = keys old ++ (keys new).filter (· ∉ keys old)) ∧
    merge (merge target source) source = merge target source ∧
    merge source source = source := by
  refine ⟨?_, ?_, ?_, ⟨keys_merge source.distinct.nodup_keys target, ?_⟩,
    merge_merge_self source.distinct target, merge_self source.distinct⟩
  · intro path value hvalue hplain
    exact valueAt?_merge_of_plain hvalue hplain
  · intro path value hkept hvalue
    cases hsource : valueAt? source path with
    | none => exact .inl ⟨rfl, (hkept.valueAt?_merge hsource).trans hvalue⟩
    | some incoming =>
      obtain ⟨⟨old, hold⟩, ⟨new, hnew⟩⟩ := hkept.nests (by rw [hsource]; rfl)
      refine .inr ⟨old, new, Option.some.inj (hvalue.symm.trans hold), ?_, ?_⟩
      · exact hsource.symm.trans hnew
      · exact valueAt?_merge_of_nests hold hnew
  · intro path
    cases hsource : valueAt? source path with
    | none =>
      simp only [Option.isSome_none, Bool.false_eq_true, false_or]
      constructor
      · exact kept_of_isSome_merge hsource
      · intro hkept
        rw [hkept.valueAt?_merge hsource]
        exact hkept.found
    | some value => simp [valueAt?_merge hsource]
  · intro path old new hold hnew
    have hdistinct := Value.distinct_map.mp (distinct_valueAt? hnew)
    exact ⟨merge old new, valueAt?_merge_of_nests hold hnew,
      keys_merge hdistinct.nodup_keys old⟩

/-- A mapping that replaces a number, adds a key on two levels and meets a key it has at another
place. -/
theorem merge_along_paths_nested :
    let target : Mapping :=
      [("a", .map [("x", .int 1), ("y", .map [("p", .int 1)])]), ("b", .int 2)]
    let source : Metadata :=
      ⟨[("c", .int 3), ("a", .map [("y", .map [("q", .int 2)]), ("x", .int 5)])], by decide⟩
    (valueAt? source ["a", "x"] = some (.int 5) ∧
      valueAt? (merge target source) ["a", "x"] = some (.int 5)) ∧
    (Kept target source ["b"] ∧ valueAt? (merge target source) ["b"] = some (.int 2)) ∧
    (valueAt? (merge target source) ["b"]).isSome ∧
    keys (merge target source) = ["a", "b", "c"] ∧
    (∃ fields, valueAt? (merge target source) ["a", "y"] = some (.map fields) ∧
      keys fields = ["p", "q"]) ∧
    merge (merge target source) source = merge target source ∧
    merge source source = source := by
  intro target source
  obtain ⟨hplain, hkept, hpaths, ⟨hkeys, hlevels⟩, htwice, hself⟩ :=
    merge_along_paths target source
  have hb : Kept target source ["b"] := by
    refine ⟨rfl, ?_, ?_⟩
    · rintro front hfront ⟨value, hvalue, -⟩
      rcases List.prefix_cons_iff.mp hfront with rfl | ⟨rest, rfl, hrest⟩
      · exact nomatch hvalue
      · rw [List.prefix_nil.mp hrest] at hvalue
        exact nomatch hvalue
    · rintro front hfront - ⟨fields, hfields⟩
      rcases List.prefix_cons_iff.mp hfront with rfl | ⟨rest, rfl, hrest⟩
      · exact nomatch hfields
      · rw [List.prefix_nil.mp hrest] at hfields
        exact nomatch hfields
  refine ⟨⟨rfl, hplain _ _ rfl nofun⟩, ⟨hb, ?_⟩, (hpaths _).mpr (.inr hb), hkeys,
    hlevels ["a", "y"] _ _ rfl rfl, htwice, hself⟩
  rcases hkept ["b"] (.int 2) hb rfl with ⟨-, hvalue⟩ | ⟨old, new, hmap, -⟩
  · exact hvalue
  · exact nomatch hmap

end MetadataTree

end Transclusion
