import Transclusion.Proofs.Expansion.Cycles
import Transclusion.Proofs.FrontMatter
import Transclusion.Proofs.Key.Directory
import Transclusion.Proofs.MetadataTree

/-!
# What an expansion gathers

An expansion gathers the metadata of the fragments it puts in. These are the fragments that a walk
along its directives comes to. Where front matter is split off, each has all metadata of its
document.

* `Piece.records`, `Engine.tree_expansionOf` — the tree of an expansion is the metadata of its
  fragments, recorded one after the other;
* `Engine.Brings`, `Engine.mem_records_iff_brings` — the fragments of an expansion are those that a
  walk comes to;
* `Engine.PullsIn`, `Engine.Pulls` — a walk along directives comes to a document, which has these
  metadata;
* `Engine.mem_records_iff` — the fragments of an expansion are the documents it pulls in.
-/

namespace Transclusion

/-! ## Documents and their keys -/

/-- The paths that the keys of a set spell diverge, if no key is that of a directory. -/
theorem Key.diverge_segments {keys : List String} (hnormalized : ∀ key ∈ keys, Normalized key)
    (hapart : Apart keys) {key other : String} (hkey : key ∈ keys) (hother : other ∈ keys)
    (hne : key ≠ other) : MetadataTree.Diverge (segments key) (segments other) := by
  have hnot : ∀ a ∈ keys, ∀ b ∈ keys, a ≠ b → ¬ segments a <+: segments b := by
    intro a ha b hb hne hprefix
    rcases eq_or_isInside_of_prefix (hnormalized a ha) (hnormalized b hb) hprefix with heq | hinside
    · exact hne heq
    · rw [hapart a ha b hb] at hinside
      exact nomatch hinside
  exact ⟨hnot key hkey other hother hne, hnot other hother key hkey hne.symm⟩

/-! ## Fragments among pieces -/

namespace Piece

/-- The key and the metadata of a fragment that starts here. -/
def record? : Piece → Option (String × Metadata)
  | fragment _ key metadata => some (key, metadata)
  | _ => none

/-- The keys and metadata of the fragments that start among the pieces, in order. -/
def records (ps : List Piece) : List (String × Metadata) :=
  ps.filterMap record?

theorem mem_records {key : String} {metadata : Metadata} {ps : List Piece} :
    (key, metadata) ∈ records ps ↔ ∃ marker, .fragment marker key metadata ∈ ps := by
  rw [records, List.mem_filterMap]
  constructor
  · rintro ⟨p, hp, hrecord⟩
    cases p with
    | text cs => exact nomatch hrecord
    | left d => exact nomatch hrecord
    | fragment marker k m =>
      cases hrecord
      exact ⟨marker, hp⟩
  · rintro ⟨marker, hp⟩
    exact ⟨_, hp, rfl⟩

/-- What is gathered from pieces is recorded one fragment after the other. -/
theorem tree_gather (ps : List Piece) (g : Gathered) :
    (ps.foldl gather g).tree = g.tree.insertAll (records ps) := by
  induction ps generalizing g with
  | nil => rfl
  | cons p ps ih =>
    rw [List.foldl_cons, ih]
    cases p <;> rfl

end Piece

namespace Engine

variable {engine : Engine} {v : Visit} {key : String} {metadata : Metadata} {ps : List Piece}

theorem tree_expansionOf (ps : List Piece) :
    (expansionOf ps).tree = MetadataTree.empty.insertAll (Piece.records ps) :=
  Piece.tree_gather ps .empty

/-! ## Documents that are pulled in -/

/-- A walk along directives comes to a fragment with this key and these metadata. -/
def Brings (engine : Engine) (v : Visit) (key : String) (metadata : Metadata) : Prop :=
  ∃ w d fragment, engine.Reaches v w ∧ engine.Leads w.key w.content d fragment ∧
    fragment.key = some key ∧ fragment.metadata = metadata

/-- A walk along directives comes to a fragment with this key. -/
def PullsIn (engine : Engine) (v : Visit) (key : String) : Prop :=
  ∃ w d fragment, engine.Reaches v w ∧ engine.Leads w.key w.content d fragment ∧
    fragment.key = some key

/-- A walk along directives comes to a document of the set, which has these metadata. -/
def Pulls (engine : Engine) (v : Visit) (key : String) (metadata : Metadata) : Prop :=
  engine.PullsIn v key ∧
    ∃ document, engine.documents.get? key = some document ∧ document.frontMatter = .ok metadata

/-- A fragment that starts among the pieces of a level is that of a directive there, or starts among
the pieces below. -/
theorem exists_leads_of_mem {build : Builder} {path : List String} {content marker : String}
    (h : contentPieces engine build path key content = .ok ps) {k : String}
    (hmem : .fragment marker k metadata ∈ ps) :
    ∃ d fragment k' sub, engine.Leads key content d fragment ∧ fragment.key = some k' ∧
      build (path ++ [k']) k' fragment.content = .ok sub ∧
      (k = k' ∧ metadata = fragment.metadata ∨ .fragment marker k metadata ∈ sub) := by
  obtain ⟨all, hall, rfl⟩ := contentPieces_eq_ok.mp h
  rcases List.mem_append.mp hmem with hmem | htail
  · obtain ⟨part, hpart, here, hhere, hmem⟩ := mem_of_collect_eq_ok hall hmem
    obtain ⟨sub, hsub, rfl⟩ := partPieces_eq_ok.mp hhere
    replace hmem : .fragment marker k metadata ∈ sub := by simpa using hmem
    rcases directivePieces_eq_ok.mp hsub with ⟨-, -, rfl⟩ | ⟨resolution, hanswer, hfragments⟩
    · simp at hmem
    · obtain ⟨fragment, hfragment, qs, hqs, hmem⟩ := mem_of_collect_eq_ok hfragments hmem
      rcases fragmentPieces_eq_ok.mp hqs with ⟨-, rfl⟩ | ⟨k', below, hkey, -, hbelow, rfl⟩
      · simp at hmem
      · refine ⟨part.2, fragment, k', below,
          ⟨List.mem_map_of_mem hpart, resolution, hanswer, hfragment⟩, hkey, hbelow, ?_⟩
        rcases List.mem_cons.mp hmem with heq | hmem
        · cases heq
          exact .inl ⟨rfl, rfl⟩
        · exact .inr hmem
  · simp at htail

/-- The pieces that a walk comes to are among those it began with. -/
theorem exists_pieces_of_reaches (h : engine.fullPieces v.path v.key v.content = .ok ps)
    {w : Visit} (hreaches : engine.Reaches v w) :
    ∃ qs, engine.fullPieces w.path w.key w.content = .ok qs ∧ qs ⊆ ps := by
  induction hreaches with
  | refl => exact ⟨ps, h, List.Subset.refl ps⟩
  | tail _ hnext ih =>
    obtain ⟨qs, hqs, hsub⟩ := ih
    cases hnext with
    | follow leads hkey =>
      obtain ⟨-, marker, below, hbelow, hsub'⟩ := exists_pieces_of_leads hqs leads hkey
      exact ⟨below, hbelow, fun p hp => hsub (hsub' (List.mem_cons_of_mem _ hp))⟩

theorem pullsIn_iff : engine.PullsIn v key ↔ ∃ metadata, engine.Brings v key metadata := by
  constructor
  · rintro ⟨w, d, fragment, hreaches, leads, hkey⟩
    exact ⟨fragment.metadata, w, d, fragment, hreaches, leads, hkey, rfl⟩
  · rintro ⟨metadata, w, d, fragment, hreaches, leads, hkey, -⟩
    exact ⟨w, d, fragment, hreaches, leads, hkey⟩

/-- A walk comes to the fragments that start among pieces. -/
theorem brings_of_mem_records {depth : Nat}
    (h : engine.pieces depth v.path v.key v.content = .ok ps)
    (hmem : (key, metadata) ∈ Piece.records ps) : engine.Brings v key metadata := by
  induction depth generalizing v ps with
  | zero => exact nomatch h
  | succ depth ih =>
    obtain ⟨marker, hmem⟩ := Piece.mem_records.mp hmem
    obtain ⟨d, fragment, k, sub, leads, hkey, hsub, hcases⟩ := exists_leads_of_mem h hmem
    rcases hcases with ⟨rfl, rfl⟩ | hmem
    · exact ⟨v, d, fragment, .refl, leads, hkey, rfl⟩
    · -- the walk to a fragment further down begins with this directive
      obtain ⟨w, d', fragment', hreaches, hfragment'⟩ :=
        ih (v := ⟨v.path ++ [k], k, fragment.content⟩) hsub (Piece.mem_records.mpr ⟨marker, hmem⟩)
      exact ⟨w, d', fragment', .head (.follow leads hkey) hreaches, hfragment'⟩

/-- The fragments of an expansion are those that a walk comes to. -/
theorem mem_records_iff_brings (h : engine.fullPieces v.path v.key v.content = .ok ps) :
    (key, metadata) ∈ Piece.records ps ↔ engine.Brings v key metadata := by
  obtain ⟨depth, hdepth⟩ := engine.exists_pieces_eq v.path v.key v.content
  refine ⟨brings_of_mem_records (hdepth.trans h), ?_⟩
  rintro ⟨w, d, fragment, hreaches, leads, hkey, rfl⟩
  obtain ⟨qs, hqs, hsub⟩ := exists_pieces_of_reaches h hreaches
  obtain ⟨-, marker, below, -, hsub'⟩ := exists_pieces_of_leads hqs leads hkey
  exact Piece.mem_records.mpr ⟨marker, hsub (hsub' List.mem_cons_self)⟩

section Extracting

variable (hstays : engine.chain.all Resolver.staysInSet)
  (hextracts : engine.chain.all Resolver.extracts)

include hstays hextracts

/-- A fragment that a directive leads to has all metadata of its document. -/
theorem frontMatter_of_leads {content : String} {d : Directive} {fragment : Fragment}
    (leads : engine.Leads key content d fragment) {k : String} (hkey : fragment.key = some k) :
    ∃ document, engine.documents.get? k = some document ∧
      document.frontMatter = .ok fragment.metadata := by
  obtain ⟨-, resolution, hanswer, hfragment⟩ := leads
  exact Resolver.frontMatter_of_resolveChain hstays hextracts hanswer hfragment hkey

/-- Where front matter is split off, the metadata of all documents that are pulled in can be read.
-/
theorem exists_pulls (h : engine.PullsIn v key) : ∃ metadata, engine.Pulls v key metadata := by
  obtain ⟨w, d, fragment, -, leads, hkey⟩ := id h
  exact ⟨fragment.metadata, h, frontMatter_of_leads hstays hextracts leads hkey⟩

/-- Where front matter is split off, a fragment brings all metadata of its document. -/
theorem brings_iff_pulls : engine.Brings v key metadata ↔ engine.Pulls v key metadata := by
  constructor
  · rintro ⟨w, d, fragment, hreaches, leads, hkey, rfl⟩
    exact ⟨⟨w, d, fragment, hreaches, leads, hkey⟩,
      frontMatter_of_leads hstays hextracts leads hkey⟩
  · rintro ⟨⟨w, d, fragment, hreaches, leads, hkey⟩, document, hdocument, hfront⟩
    obtain ⟨document', hdocument', hfront'⟩ := frontMatter_of_leads hstays hextracts leads hkey
    obtain rfl := Option.some.inj (hdocument'.symm.trans hdocument)
    exact ⟨w, d, fragment, hreaches, leads, hkey, Except.ok.inj (hfront'.symm.trans hfront)⟩

/-- The fragments of an expansion are the documents it pulls in, each with all of its metadata. -/
theorem mem_records_iff (h : engine.fullPieces v.path v.key v.content = .ok ps) :
    (key, metadata) ∈ Piece.records ps ↔ engine.Pulls v key metadata :=
  (mem_records_iff_brings h).trans (brings_iff_pulls hstays hextracts)

end Extracting

/-- A document does not pull itself in. -/
theorem ne_of_mem_records {content : String}
    (h : engine.fullPieces [key] key content = .ok ps) {k : String}
    (hmem : (k, metadata) ∈ Piece.records ps) : k ≠ key := by
  have happend : engine.fullPieces ([key] ++ []) key content = .ok ps := h
  obtain ⟨-, havoids⟩ := fullPieces_append_eq_ok.mp happend
  obtain ⟨marker, hmem⟩ := Piece.mem_records.mp hmem
  have hnot := havoids k (List.mem_filterMap.mpr ⟨_, hmem, rfl⟩)
  simpa using hnot

end Engine

end Transclusion
