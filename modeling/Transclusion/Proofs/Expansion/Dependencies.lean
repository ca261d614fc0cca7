import Transclusion.Proofs.Expansion.Depth
import Transclusion.Proofs.Permalink

/-!
# What an expansion depends on

Of the documents in a set, an expansion reads none but those it puts in. What the others hold is all
the same to it, the one at its own key included; only that they are there matters.

* `Resolver.resolve_of_agree`, `Resolver.resolveChain_of_agree` — an answer depends on the keys of
  the set and on the documents it gives;
* `Engine.onSet` — the same engine over another set;
* `Engine.pieces_onSet` — pieces depend on the keys of the set and on the documents among them;
* `Engine.expand_depends_on_resolved` — the keys that an expansion lists are all it depends on.
-/

namespace Transclusion

/-! ## Answers -/

namespace Resolver

variable {files : FileTree} {a b : DocumentSet} {r : Reference} {chain : List Resolver}

/-- The sets hold the same documents under the keys of some fragments. -/
def Agree (a b : DocumentSet) (fragments : List Fragment) : Prop :=
  ∀ fragment ∈ fragments, ∀ key, fragment.key = some key → b.get? key = a.get? key

theorem resolveExact_of_agree (hkeys : b.keys = a.keys) {extract : Bool}
    {answer : Option Resolution} (h : resolveExact a extract r = .ok answer)
    (hagree : ∀ resolution, answer = some resolution → Agree a b resolution.fragments) :
    resolveExact b extract r = .ok answer := by
  rw [resolveExact] at h ⊢
  cases hlocal : r.localKey? with
  | none => simpa only [hlocal] using h
  | some joined =>
    simp only [hlocal, KeyMap.contains_eq_of_keys_eq hkeys] at h ⊢
    cases hfind : (candidates joined).find? a.contains with
    | none => simpa only [hfind] using h
    | some key =>
      -- a key that is found has a document, which is what the answer gives
      have hcontains : a.contains key := List.find?_some hfind
      obtain ⟨document, hdocument⟩ := KeyMap.mem_keys_iff.mp (KeyMap.contains_iff.mp hcontains)
      simp only [hfind, hdocument] at h ⊢
      obtain ⟨f, hf, hanswer⟩ := bind_eq_ok.mp h
      cases hanswer
      have hsame := hagree _ rfl f List.mem_cons_self key (Document.key_of_fragment hf)
      rw [hsame, hdocument]
      exact h

/-- The fragments of some keys depend on the documents there. -/
theorem fragments_of_agree (hkeys : b.keys = a.keys) {extract : Bool} {source : String}
    {keys : List String} {fs : List Fragment} (h : fragments a extract source keys = .ok fs)
    (hagree : Agree a b fs) : fragments b extract source keys = .ok fs := by
  have hsame : ∀ key ∈ keys, b.get? key = a.get? key := by
    intro key hkey
    cases hdocument : a.get? key with
    | none => rwa [KeyMap.get?_eq_none_iff, hkeys, ← KeyMap.get?_eq_none_iff]
    | some document =>
      have hmem : (key, document) ∈
          keys.filterMap fun key => (a.get? key).map fun document => (key, document) :=
        List.mem_filterMap.mpr ⟨key, hkey, by rw [hdocument, Option.map_some]⟩
      obtain ⟨f, hf, hfragment⟩ := exists_of_mapM_eq_ok h hmem
      rw [← hdocument]
      exact hagree f hf key (Document.key_of_fragment hfragment)
  have hentries : (keys.filterMap fun key => (b.get? key).map fun document => (key, document)) =
      keys.filterMap fun key => (a.get? key).map fun document => (key, document) :=
    List.filterMap_congr fun key hkey => by rw [hsame key hkey]
  rw [fragments, hentries]
  exact h

theorem resolveFolder_of_agree (hkeys : b.keys = a.keys) {extract : Bool}
    {filter : String → Bool} {answer : Option Resolution}
    (h : resolveFolder a extract filter r = .ok answer)
    (hagree : ∀ resolution, answer = some resolution → Agree a b resolution.fragments) :
    resolveFolder b extract filter r = .ok answer := by
  have hfolder : folderKeys b filter = folderKeys a filter := by
    funext directory
    rw [folderKeys, folderKeys, KeyMap.keysUnder_eq_of_keys_eq hkeys]
  rw [resolveFolder] at h ⊢
  simp only [hfolder]
  split at h
  · next hremote => rwa [if_pos hremote]
  · next hlocal =>
    rw [if_neg hlocal]
    cases hjoined : r.joined? with
    | none => simpa only [hjoined] using h
    | some directory =>
      simp only [hjoined] at h ⊢
      cases hmembers : folderKeys a filter directory with
      | nil => simpa only [hmembers] using h
      | cons key keys =>
        simp only [hmembers] at h ⊢
        obtain ⟨fs, hfs, hanswer⟩ := bind_eq_ok.mp h
        cases hanswer
        rw [fragments_of_agree hkeys hfs (hagree _ rfl)]
        rfl

/-- The answer of a resolver depends on the keys of the set and on the documents it gives. -/
theorem resolve_of_agree (hkeys : b.keys = a.keys) {resolver : Resolver}
    (hstays : resolver.staysInSet) {answer : Option Resolution}
    (h : resolver.resolve files a r = .ok answer)
    (hagree : ∀ resolution, answer = some resolution → Agree a b resolution.fragments) :
    resolver.resolve files b r = .ok answer := by
  cases resolver with
  | exact extract => exact resolveExact_of_agree hkeys h hagree
  | folder extract filter => exact resolveFolder_of_agree hkeys h hagree
  | fallback => exact h
  | files root extract missingIsError => exact nomatch hstays
  | custom name answer => exact nomatch hstays

/-- So does the answer of a chain: a resolver that leaves the reference to the next one has read
nothing but keys. -/
theorem resolveChain_of_agree (hkeys : b.keys = a.keys) (hstays : chain.all staysInSet)
    {answer : Option Resolution} (h : resolveChain files a r chain = .ok answer)
    (hagree : ∀ resolution, answer = some resolution → Agree a b resolution.fragments) :
    resolveChain files b r chain = .ok answer := by
  induction chain with
  | nil => exact h
  | cons resolver chain ih =>
    rw [List.all_cons, Bool.and_eq_true] at hstays
    obtain ⟨hfirst, hothers⟩ := hstays
    rw [resolveChain] at h ⊢
    cases hanswer : resolver.resolve files a r with
    | error error =>
      rw [hanswer] at h
      cases h
    | ok given =>
      rw [hanswer] at h
      cases given with
      | none =>
        rw [resolve_of_agree hkeys hfirst hanswer (by simp)]
        exact ih hothers h
      | some resolution =>
        rw [resolve_of_agree hkeys hfirst hanswer]
        · exact h
        · cases h
          exact hagree

end Resolver

/-! ## Pieces -/

namespace Engine

/-- The same engine over another set. -/
def onSet (engine : Engine) (documents : DocumentSet) : Engine :=
  { engine with documents }

/-- Another set holds the same documents under the keys of the fragments among the pieces. -/
def Agree (engine : Engine) (documents : DocumentSet) (ps : List Piece) : Prop :=
  ∀ key ∈ Piece.keys ps, documents.get? key = engine.documents.get? key

variable {engine : Engine} {documents : DocumentSet}

theorem Agree.of_subset {ps qs : List Piece} (h : engine.Agree documents qs) (hsub : ps ⊆ qs) :
    engine.Agree documents ps :=
  fun key hkey => h key (List.filterMap_subset Piece.key? hsub hkey)

theorem agree_append (ps qs : List Piece) (h : engine.Agree documents (ps ++ qs)) :
    engine.Agree documents ps ∧ engine.Agree documents qs :=
  ⟨h.of_subset (List.subset_append_left ps qs), h.of_subset (List.subset_append_right ps qs)⟩

/-! ### Levels -/

section Levels

variable {build build' : Builder} {path : List String} {context : String}

/-- What a builder finds in one set, another one finds in the other set, where these agree. -/
def Follows (engine : Engine) (documents : DocumentSet) (build build' : Builder) : Prop :=
  ∀ path key content ps, build path key content = .ok ps → engine.Agree documents ps →
    build' path key content = .ok ps

theorem fragmentPieces_onSet (hbuild : Follows engine documents build build') {d : Directive}
    {resolver : String} {fragment : Fragment} {ps : List Piece}
    (h : fragmentPieces engine build path context d resolver fragment = .ok ps)
    (hagree : engine.Agree documents ps) :
    fragmentPieces (engine.onSet documents) build' path context d resolver fragment = .ok ps := by
  refine fragmentPieces_eq_ok.mpr ?_
  rcases fragmentPieces_eq_ok.mp h with hliteral | ⟨key, sub, hkey, hpath, hsub, rfl⟩
  · exact .inl hliteral
  · refine .inr ⟨key, sub, hkey, hpath, ?_, rfl⟩
    exact hbuild _ _ _ _ hsub (hagree.of_subset (List.subset_cons_self _ _))

/-- Where the sets agree on the pieces of fragments, they agree on the fragments. -/
theorem agree_of_fragmentPieces {d : Directive} {resolver : String} {fragments : List Fragment}
    {ps : List Piece}
    (h : collect (fragmentPieces engine build path context d resolver) fragments = .ok ps)
    (hagree : engine.Agree documents ps) :
    Resolver.Agree engine.documents documents fragments := by
  intro fragment hfragment key hkey
  obtain ⟨part, hpart, hsub⟩ := exists_of_collect_eq_ok h hfragment
  rcases fragmentPieces_eq_ok.mp hpart with ⟨hnone, -⟩ | ⟨key', sub, hkey', -, -, rfl⟩
  · exact nomatch hnone.symm.trans hkey
  · obtain rfl := Option.some.inj (hkey'.symm.trans hkey)
    exact hagree.of_subset hsub key' List.mem_cons_self

variable (hstays : engine.chain.all Resolver.staysInSet)
  (hkeys : documents.keys = engine.documents.keys)

include hstays hkeys

theorem directivePieces_onSet (hbuild : Follows engine documents build build') {d : Directive}
    {ps : List Piece} (h : directivePieces engine build path context d = .ok ps)
    (hagree : engine.Agree documents ps) :
    directivePieces (engine.onSet documents) build' path context d = .ok ps := by
  refine directivePieces_eq_ok.mpr ?_
  rcases directivePieces_eq_ok.mp h with ⟨hanswer, hremote, rfl⟩ | ⟨resolution, hanswer, hps⟩
  · exact .inl ⟨Resolver.resolveChain_of_agree hkeys hstays hanswer nofun, hremote, rfl⟩
  · refine .inr ⟨resolution, Resolver.resolveChain_of_agree hkeys hstays hanswer ?_, ?_⟩
    · intro resolution' hresolution
      cases hresolution
      exact agree_of_fragmentPieces hps hagree
    · exact collect_eq_ok_of_imp agree_append
        (fun fragment _ ps hfragment => fragmentPieces_onSet hbuild hfragment) hps hagree

theorem contentPieces_onSet (hbuild : Follows engine documents build build') {key content : String}
    {ps : List Piece} (h : contentPieces engine build path key content = .ok ps)
    (hagree : engine.Agree documents ps) :
    contentPieces (engine.onSet documents) build' path key content = .ok ps := by
  have houtline : (engine.onSet documents).outline key content = engine.outline key content := by
    simp only [outline, scanned, onSet, Permalink.retarget_eq_of_keys_eq hkeys]
  obtain ⟨sub, hsub, rfl⟩ := contentPieces_eq_ok.mp h
  rw [contentPieces_eq_ok, houtline]
  refine ⟨sub, ?_, rfl⟩
  refine collect_eq_ok_of_imp agree_append ?_ hsub (agree_append _ _ hagree).1
  intro part _ ps hpart hagree
  obtain ⟨sub, hsub, rfl⟩ := partPieces_eq_ok.mp hpart
  exact partPieces_eq_ok.mpr ⟨sub, directivePieces_onSet hstays hkeys hbuild hsub
    (hagree.of_subset (List.subset_cons_self _ _)), rfl⟩

/-- Pieces depend on the keys of the set and on the documents among them. -/
theorem pieces_onSet (depth : Nat) :
    Follows engine documents (engine.pieces depth) ((engine.onSet documents).pieces depth) := by
  induction depth with
  | zero => exact fun _ _ _ _ h => nomatch h
  | succ depth ih => exact fun _ _ _ _ h hagree => contentPieces_onSet hstays hkeys ih h hagree

end Levels

/-! ## Expansions -/

/-- The keys that an expansion lists are all it depends on: over a set with the same keys that holds
the same documents under these, the content expands to the very same. -/
theorem expand_depends_on_resolved (hstays : engine.chain.all Resolver.staysInSet)
    (hkeys : documents.keys = engine.documents.keys) {key content : String} {e : Expansion}
    (h : engine.expand key content = .ok e)
    (hagree : ∀ k ∈ e.resolved, documents.get? k = engine.documents.get? k) :
    (engine.onSet documents).expand key content = .ok e := by
  obtain ⟨ps, hps, rfl⟩ := expand_eq_ok.mp h
  obtain ⟨depth, hhere, hthere⟩ := ((engine.eventually_pieces_eq [key] key content).and
    ((engine.onSet documents).eventually_pieces_eq [key] key content)).exists
  refine expand_eq_ok.mpr ⟨ps, ?_, rfl⟩
  rw [← hthere]
  exact pieces_onSet hstays hkeys depth _ _ _ _ (hhere.trans hps)
    fun k hk => hagree k (mem_resolved_expansionOf.mpr hk)

/-- A permalink, a directory and a text of its own. Neither the document at the key itself nor the
one that is not put in matters. -/
theorem expand_depends_on_resolved_changed :
    let before : DocumentSet := .ofList
      [("d/x.md", ⟨"---\nt: true\n---\nX", .empty⟩), ("d/y.md", ⟨":[](/p)", .empty⟩), ("i.md", ⟨"I", .empty⟩),
        ("p.md", ⟨"P", .empty⟩), ("q.md", ⟨"Q", .empty⟩)]
    let after : DocumentSet := (before.insert "i.md" ⟨":[](i)", .empty⟩).insert "q.md" ⟨":[](q)", .empty⟩
    let engine : Engine := ⟨default, before, [.exact true, .folder true fun _ => true, .fallback],
      { comments := true, permalink := true }⟩
    let content := ":[](d) :[](z)"
    engine.chain.all Resolver.staysInSet = true ∧ after.keys = before.keys ∧
    ∃ e, engine.expand "i.md" content = .ok e ∧
      e.content = "<!-- transclude: d/x.md -->\nX<!-- transclude: d/y.md -->\n"
        ++ "<!-- transclude: p.md -->\nP z" ∧
      e.resolved = ["d/x.md", "d/y.md", "p.md"] ∧
      (∀ k ∈ e.resolved, after.get? k = before.get? k) ∧ after.get? "i.md" ≠ before.get? "i.md" ∧
      (engine.onSet after).expand "i.md" content = .ok e := by
  intro before after engine content
  have hkeys : after.keys = before.keys := by decide +kernel
  have he : engine.expand "i.md" content = .ok
      ⟨"<!-- transclude: d/x.md -->\nX<!-- transclude: d/y.md -->\n<!-- transclude: p.md -->\nP z",
        ⟨[("d", .map [("x.md", .map [("t", .bool true)])])], by decide⟩,
        ["d/x.md", "d/y.md", "p.md"]⟩ := by
    decide +kernel
  have hagree : ∀ k ∈ ["d/x.md", "d/y.md", "p.md"], after.get? k = before.get? k := by
    decide +kernel
  exact ⟨rfl, hkeys, _, he, rfl, rfl, hagree, by decide +kernel,
    expand_depends_on_resolved rfl hkeys he hagree⟩

end Engine

end Transclusion
