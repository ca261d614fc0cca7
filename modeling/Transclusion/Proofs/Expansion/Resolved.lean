import Transclusion.Proofs.Expansion.Gathering
import Transclusion.Proofs.Expansion.Unfolding

/-!
# What the list of keys and the tree describe

Beside its content an expansion lists the keys of the documents that were put in, and has a tree
with their metadata. Both describe exactly these documents, however often each of them was put in.

* `Piece.resolved_gather` — the keys of fragments are listed in the order in which they first
  appear;
* `Engine.brings_unique` — two fragments with one key that carry metadata carry the same;
* `Engine.Describes`, `Engine.expand_describes` — what the list and the tree say of a content.
-/

namespace Transclusion

open MetadataTree

/-! ## First appearances -/

/-- What is left when only first appearances are kept appears once. -/
theorem nodup_eraseDups {α : Type} [DecidableEq α] (as : List α) : as.eraseDups.Nodup := by
  induction hlength : as.length using Nat.strong_induction_on generalizing as with
  | _ n ih =>
    cases as with
    | nil => simp
    | cons a as =>
      have hless := List.length_filter_le (fun b => !b == a) as
      rw [List.eraseDups_cons, List.nodup_cons]
      refine ⟨?_, ih _ (by rw [← hlength, List.length_cons]; omega) _ rfl⟩
      simp [List.mem_eraseDups]

theorem eraseDups_append_singleton {α : Type} [DecidableEq α] (as : List α) (a : α) :
    (as ++ [a]).eraseDups = if a ∈ as then as.eraseDups else as.eraseDups ++ [a] := by
  rw [List.eraseDups_append]
  by_cases ha : a ∈ as <;> simp [List.removeAll, ha, List.eraseDups_cons]

namespace Piece

theorem keys_eq_records (ps : List Piece) : keys ps = (records ps).map Prod.fst := by
  rw [keys, records, List.map_filterMap]
  congr 1
  funext p
  cases p <;> rfl

/-- The keys of fragments are listed in the order in which they first appear. -/
theorem resolved_gather (seen : List String) {g : Gathered} (h : g.resolved = seen.eraseDups)
    (ps : List Piece) : (ps.foldl gather g).resolved = (seen ++ keys ps).eraseDups := by
  induction ps generalizing seen g with
  | nil => simpa using h
  | cons p ps ih =>
    rw [List.foldl_cons]
    cases p with
    | text cs => exact ih seen h
    | left d => exact ih seen h
    | fragment marker key metadata =>
      rw [keys_fragment, ← List.singleton_append, ← List.append_assoc]
      refine ih (seen ++ [key]) ?_
      simp only [gather, Gathered.record, h, eraseDups_append_singleton, List.contains_iff_mem,
        List.mem_eraseDups]

end Piece

namespace Engine

variable {engine : Engine} {key content : String}

theorem resolved_expansionOf (ps : List Piece) :
    (expansionOf ps).resolved = (Piece.keys ps).eraseDups :=
  Piece.resolved_gather [] rfl ps

/-! ## Fragments that carry metadata -/

section Brings

variable {v : Visit} {k : String} {metadata metadata' : Metadata}
  (hstays : engine.chain.all Resolver.staysInSet)

include hstays

/-- A walk comes to documents of the set only. -/
theorem Brings.mem_keys (h : engine.Brings v k metadata) : k ∈ engine.documents.keys := by
  obtain ⟨w, d, fragment, -, leads, hkey, -⟩ := h
  exact confined_of_staysInSet hstays _ _ _ _ _ leads hkey

/-- A fragment that carries metadata has all those of its document. -/
theorem Brings.exists_frontMatter (h : engine.Brings v k metadata) (hne : metadata ≠ .empty) :
    ∃ document, engine.documents.get? k = some document ∧ document.frontMatter = .ok metadata := by
  obtain ⟨w, d, fragment, -, ⟨-, resolution, hanswer, hfragment⟩, hkey, rfl⟩ := h
  exact Resolver.frontMatter_of_metadata_ne_empty hstays hanswer hfragment hkey hne

/-- Two fragments with one key that carry metadata carry the same. -/
theorem brings_unique (h : engine.Brings v k metadata) (h' : engine.Brings v k metadata')
    (hne : metadata ≠ .empty) (hne' : metadata' ≠ .empty) : metadata = metadata' := by
  obtain ⟨document, hdocument, hfront⟩ := h.exists_frontMatter hstays hne
  obtain ⟨document', hdocument', hfront'⟩ := h'.exists_frontMatter hstays hne'
  obtain rfl := Option.some.inj (hdocument.symm.trans hdocument')
  exact Except.ok.inj (hfront.symm.trans hfront')

end Brings

/-! ## Entries -/

section Entries

variable {ps : List Piece} (hps : engine.fullPieces [key] key content = .ok ps)

include hps

/-- A key is listed exactly if a walk comes to a fragment with it. -/
theorem mem_resolved_iff_brings {k : String} :
    k ∈ (expansionOf ps).resolved ↔ ∃ metadata, engine.Brings (start key content) k metadata := by
  rw [mem_resolved_expansionOf, Piece.keys_eq_records, List.mem_map]
  simp only [← mem_records_iff_brings (v := start key content) hps, Prod.exists,
    exists_and_right, exists_eq_right]

theorem Brings.ne {k : String} {metadata : Metadata}
    (h : engine.Brings (start key content) k metadata) : k ≠ key :=
  ne_of_mem_records hps ((mem_records_iff_brings (v := start key content) hps).mpr h)

variable (hstays : engine.chain.all Resolver.staysInSet)
  (hnormalized : ∀ k ∈ key :: engine.documents.keys, Key.Normalized k)
  (hapart : Key.Apart (key :: engine.documents.keys))

include hstays hnormalized hapart

/-- The paths of different keys diverge, so what one fragment leaves in the tree no other one
touches. -/
theorem get?_of_brings {k : String} {metadata : Metadata}
    (hbrings : engine.Brings (start key content) k metadata) (hne : metadata ≠ .empty) :
    (expansionOf ps).tree.get? k = some (.map metadata) := by
  have hmem : ∀ {k'} {metadata' : Metadata}, engine.Brings (start key content) k' metadata' →
      k' ∈ key :: engine.documents.keys :=
    fun h => List.mem_cons_of_mem key (h.mem_keys hstays)
  rw [tree_expansionOf]
  refine valueAt?_insertAll_of_mem (Key.segments_ne_nil (hnormalized k (hmem hbrings)))
    ((mem_records_iff_brings (v := start key content) hps).mpr hbrings) hne ?_
  rintro ⟨k', metadata'⟩ hrecord hne'
  have hbrings' := (mem_records_iff_brings (v := start key content) hps).mp hrecord
  by_cases hsame : k' = k
  · subst hsame
    exact .inl (by rw [brings_unique hstays hbrings' hbrings hne' hne])
  · exact .inr (Key.diverge_segments hnormalized hapart (hmem hbrings') (hmem hbrings) hsame)

/-- Where no fragment with a key carries metadata, the path of the key leads to nothing. -/
theorem get?_of_not_brings {k : String} (hk : k ∈ key :: engine.documents.keys)
    (hnothing : ∀ metadata, engine.Brings (start key content) k metadata → metadata = .empty) :
    (expansionOf ps).tree.get? k = none := by
  rw [tree_expansionOf, get?,
    valueAt?_insertAll_of_diverge (Key.segments_ne_nil (hnormalized k hk))]
  · exact valueAt?_empty _
  · rintro ⟨k', metadata⟩ hrecord hne
    have hbrings := (mem_records_iff_brings (v := start key content) hps).mp hrecord
    have hother : k' ≠ k := by
      rintro rfl
      exact hne (hnothing metadata hbrings)
    exact Key.diverge_segments hnormalized hapart
      (List.mem_cons_of_mem key (hbrings.mem_keys hstays)) hk hother

end Entries

/-! ## Expansions -/

/-- What an expansion of the content at `key` says beside its own content. -/
structure Describes (engine : Engine) (key content : String) (e : Expansion) : Prop where
  nodup : e.resolved.Nodup
  /-- The document itself is not among those that were put in. -/
  not_mem : key ∉ e.resolved
  /-- The keys are those that a walk along resolved directives comes to. -/
  mem_iff : ∀ k, k ∈ e.resolved ↔ engine.PullsIn (start key content) k
  /-- They are listed in the order in which the walk that goes depth first and from left to right
  first comes to them. -/
  order : ∃ ps, engine.Unfolds (engine.pending key content) ps ∧
    e.resolved = (Piece.keys ps).eraseDups
  /-- Metadata that are carried by a fragment are those of its document. -/
  extracted : ∀ k metadata, engine.Brings (start key content) k metadata → metadata ≠ .empty →
    ∃ document, engine.documents.get? k = some document ∧ document.frontMatter = .ok metadata
  /-- The path of a key leads to something in the tree exactly if the key is listed and metadata
  were split off a fragment with it. -/
  entry_iff : ∀ k ∈ key :: engine.documents.keys, (∃ value, e.tree.get? k = some value) ↔
    k ∈ e.resolved ∧ ∃ metadata, metadata ≠ .empty ∧ engine.Brings (start key content) k metadata
  /-- And it leads to these metadata, however often they were recorded. -/
  entry : ∀ k metadata, engine.Brings (start key content) k metadata → metadata ≠ .empty →
    e.tree.get? k = some (.map metadata)
  /-- The path of the document itself leads to nothing. -/
  own : e.tree.get? key = none

/-- The list of keys and the tree of an expansion describe exactly what was put in, if no key is
that of a directory with another one inside, the key of the document itself included. -/
theorem expand_describes (hstays : engine.chain.all Resolver.staysInSet)
    (hnormalized : ∀ k ∈ key :: engine.documents.keys, Key.Normalized k)
    (hapart : Key.Apart (key :: engine.documents.keys))
    {e : Expansion} (he : engine.expand key content = .ok e) : engine.Describes key content e := by
  obtain ⟨ps, hps, rfl⟩ := expand_eq_ok.mp he
  have hentry : ∀ k metadata, engine.Brings (start key content) k metadata → metadata ≠ .empty →
      (expansionOf ps).tree.get? k = some (.map metadata) :=
    fun k metadata => get?_of_brings hps hstays hnormalized hapart
  exact
    { nodup := by
        rw [resolved_expansionOf]
        exact nodup_eraseDups _
      not_mem := by
        intro hmem
        obtain ⟨metadata, hbrings⟩ := (mem_resolved_iff_brings hps).mp hmem
        exact hbrings.ne hps rfl
      mem_iff := fun k => (mem_resolved_iff_brings hps).trans pullsIn_iff.symm
      order := ⟨ps, unfolds_of_fullPieces hps, resolved_expansionOf ps⟩
      extracted := fun k metadata hbrings => hbrings.exists_frontMatter hstays
      entry_iff := by
        intro k hk
        constructor
        · rintro ⟨value, hvalue⟩
          obtain ⟨metadata, hbrings, hne⟩ : ∃ metadata,
              engine.Brings (start key content) k metadata ∧ metadata ≠ .empty := by
            by_contra! hnothing
            have hnone := get?_of_not_brings hps hstays hnormalized hapart hk hnothing
            exact nomatch hnone.symm.trans hvalue
          have hmem := (mem_resolved_iff_brings hps).mpr ⟨metadata, hbrings⟩
          exact ⟨hmem, metadata, hne, hbrings⟩
        · rintro ⟨-, metadata, hne, hbrings⟩
          exact ⟨_, hentry k metadata hbrings hne⟩
      entry := hentry
      own := get?_of_not_brings hps hstays hnormalized hapart List.mem_cons_self
        fun _ hbrings => absurd rfl (hbrings.ne hps) }

/-- A document that is put in directly, by way of another one, and with its directory, once as it
reads in a file and otherwise without its front matter. -/
theorem expand_describes_repeated :
    let engine : Engine :=
      ⟨default, .ofList
        [("d/a.md", ⟨"A", ⟨[("t", .int 1)], by decide⟩⟩), ("d/b.md", ⟨":[](a)", .empty⟩),
          ("e.md", ⟨":[](d/b)", ⟨[("t", .int 2)], by decide⟩⟩)],
        [.exact false, .folder true fun _ => true], {}⟩
    let content := ":[](e) :[](d) :[](d/a)"
    engine.chain.all Resolver.staysInSet = true ∧
    (∀ k ∈ "i.md" :: engine.documents.keys, Key.Normalized k) ∧
    Key.Apart ("i.md" :: engine.documents.keys) ∧
    ∃ e, engine.expand "i.md" content = .ok e ∧ e.resolved = ["e.md", "d/b.md", "d/a.md"] ∧
      e.tree.get? "d/a.md" = some (.map [("t", .int 1)]) ∧ e.tree.get? "e.md" = none ∧
      engine.Describes "i.md" content e := by
  intro engine content
  have hstays : engine.chain.all Resolver.staysInSet = true := rfl
  have hnormalized : ∀ k ∈ "i.md" :: engine.documents.keys, Key.Normalized k := by decide +kernel
  have hapart : Key.Apart ("i.md" :: engine.documents.keys) := by decide +kernel
  have hruns : (engine.expand "i.md" content).map (fun e =>
      (e.resolved, e.tree.get? "d/a.md", e.tree.get? "e.md")) =
      .ok (["e.md", "d/b.md", "d/a.md"], some (.map [("t", .int 1)]), none) := by decide +kernel
  obtain ⟨e, he, hsays⟩ := map_eq_ok.mp hruns
  simp only [Prod.mk.injEq] at hsays
  exact ⟨hstays, hnormalized, hapart, e, he, hsays.1, hsays.2.1, hsays.2.2,
    expand_describes hstays hnormalized hapart he⟩

end Engine

end Transclusion
