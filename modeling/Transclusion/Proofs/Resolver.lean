import Transclusion.Proofs.KeyMap
import Transclusion.Proofs.Results
import Transclusion.Resolver

/-!
# Resolvers that stay in the set

What a chain of resolvers by exact key, by directory and by the target's own text may answer
(`Resolver.staysInSet`).

* `Resolver.resolveChain_remote` — a URL is left alone;
* `Resolver.fragment_of_resolve` — a fragment is that of a document of the set, or the text of the
  target; `Resolver.contains_of_resolveChain` and `Resolver.content_of_resolveChain` say which;
* `Document.frontMatter`, `Resolver.frontMatter_of_resolveChain` — what metadata a fragment carries.

Each is a statement about one resolver first, and `resolveChain_eq_ok_some` and
`resolveChain_eq_error` take it to a chain: what a chain answers, one of its resolvers answers.
-/

namespace Transclusion

/-! ## Fragments -/

theorem Fragment.key_of_extracted {source key text : String} {metadata : Metadata} {f : Fragment}
    (h : Fragment.extracted source key text metadata = .ok f) : f.key = some key := by
  rw [Fragment.extracted] at h
  split at h
  · exact nomatch h
  · cases h
    rfl

theorem Fragment.key_of_whole {source key text : String} {metadata : Metadata} {f : Fragment}
    (h : Fragment.whole source key text metadata = .ok f) : f.key = some key := by
  rw [Fragment.whole] at h
  split at h
  · cases h
    rfl
  · split at h
    · exact nomatch h
    · cases h
      rfl

/-- A fragment as it would read in a file carries no metadata. -/
theorem Fragment.metadata_of_whole {source key text : String} {metadata : Metadata} {f : Fragment}
    (h : Fragment.whole source key text metadata = .ok f) : f.metadata = .empty := by
  rw [Fragment.whole] at h
  split at h
  · cases h
    rfl
  · split at h
    · exact nomatch h
    · cases h
      rfl

/-- The fragment of a document has the key of the document. -/
theorem Document.key_of_fragment {document : Document} {extract : Bool} {source key : String}
    {f : Fragment} (h : document.fragment extract source key = .ok f) : f.key = some key := by
  rw [Document.fragment] at h
  split at h
  · exact Fragment.key_of_extracted h
  · exact Fragment.key_of_whole h

theorem Fragment.error_of_extracted {source key text : String} {metadata : Metadata} {e : Error}
    (h : Fragment.extracted source key text metadata = .error e) :
    ∃ error, FrontMatter.parse text = .error error ∧
      e = .invalidFrontMatter source key error.message := by
  rw [Fragment.extracted] at h
  split at h
  · next error herror => exact ⟨error, herror, (Except.error.inj h).symm⟩
  · exact nomatch h

theorem Fragment.error_of_whole {source key text : String} {metadata : Metadata} {e : Error}
    (h : Fragment.whole source key text metadata = .error e) :
    ∃ error, FrontMatter.parse text = .error error ∧
      e = .invalidFrontMatter source key error.message := by
  rw [Fragment.whole] at h
  split at h
  · exact nomatch h
  · split at h
    · next error herror => exact ⟨error, herror, (Except.error.inj h).symm⟩
    · exact nomatch h

/-- A document has a fragment unless its front matter cannot be read. -/
theorem Document.fragment_error {document : Document} {extract : Bool} {source key : String}
    {e : Error} (h : document.fragment extract source key = .error e) :
    ∃ error, FrontMatter.parse document.content = .error error ∧
      e = .invalidFrontMatter source key error.message := by
  rw [Document.fragment] at h
  split at h
  · exact Fragment.error_of_extracted h
  · exact Fragment.error_of_whole h

/-- All metadata of a document: its own, with any front matter that its content opens with laid over
them. -/
def Document.frontMatter (document : Document) : Except FrontMatter.Error Metadata :=
  (FrontMatter.parse document.content).map fun parsed =>
    Metadata.merge document.metadata parsed.metadata

/-- A fragment that front matter is split off has all metadata of its document. -/
theorem Document.frontMatter_of_fragment {document : Document} {source key : String} {f : Fragment}
    (h : document.fragment true source key = .ok f) : document.frontMatter = .ok f.metadata := by
  rw [Document.fragment, if_pos rfl, Fragment.extracted] at h
  split at h
  · exact nomatch h
  · next parsed hparsed =>
    cases h
    rw [Document.frontMatter, hparsed]
    rfl

/-- A fragment that carries metadata has all those of its document. -/
theorem Document.frontMatter_of_fragment_ne_nil {document : Document} {extract : Bool}
    {source key : String} {f : Fragment} (h : document.fragment extract source key = .ok f)
    (hne : f.metadata ≠ .empty) : document.frontMatter = .ok f.metadata := by
  cases extract with
  | true => exact Document.frontMatter_of_fragment h
  | false =>
    rw [Document.fragment, if_neg Bool.false_ne_true] at h
    exact absurd (Fragment.metadata_of_whole h) hne

namespace Resolver

variable {files : FileTree} {documents : DocumentSet} {r : Reference} {chain : List Resolver}

/-! ## Chains -/

/-- What a chain answers, one of its resolvers answers. -/
theorem resolveChain_eq_ok_some {resolution : Resolution}
    (h : resolveChain files documents r chain = .ok (some resolution)) :
    ∃ resolver ∈ chain, resolver.resolve files documents r = .ok (some resolution) := by
  induction chain with
  | nil => exact nomatch h
  | cons resolver chain ih =>
    rw [resolveChain] at h
    split at h
    · exact nomatch h
    · next answer hanswer =>
      cases h
      exact ⟨resolver, List.mem_cons_self, hanswer⟩
    · obtain ⟨other, hmem, hanswer⟩ := ih h
      exact ⟨other, List.mem_cons_of_mem _ hmem, hanswer⟩

/-- Where the first resolvers leave a reference alone, the others are asked. -/
theorem resolveChain_append {first others : List Resolver}
    (h : ∀ resolver ∈ first, resolver.resolve files documents r = .ok none) :
    resolveChain files documents r (first ++ others) = resolveChain files documents r others := by
  induction first with
  | nil => rfl
  | cons resolver first ih =>
    obtain ⟨hfirst, hrest⟩ := List.forall_mem_cons.mp h
    rw [List.cons_append, resolveChain, hfirst]
    exact ih hrest

/-- The error of a chain is the error of the first resolver that does not leave the reference alone.
-/
theorem resolveChain_eq_error_iff {e : Error} :
    resolveChain files documents r chain = .error e ↔
      ∃ before resolver after, chain = before ++ resolver :: after ∧
        (∀ other ∈ before, other.resolve files documents r = .ok none) ∧
        resolver.resolve files documents r = .error e := by
  constructor
  · intro h
    induction chain with
    | nil => exact nomatch h
    | cons resolver chain ih =>
      rw [resolveChain] at h
      split at h
      · next error herror =>
        cases h
        exact ⟨[], resolver, chain, rfl, nofun, herror⟩
      · exact nomatch h
      · next hnone =>
        obtain ⟨before, other, after, rfl, hbefore, herror⟩ := ih h
        exact ⟨resolver :: before, other, after, rfl, List.forall_mem_cons.mpr ⟨hnone, hbefore⟩,
          herror⟩
  · rintro ⟨before, resolver, after, rfl, hbefore, herror⟩
    rw [resolveChain_append hbefore, resolveChain, herror]

theorem resolveChain_eq_error {e : Error}
    (h : resolveChain files documents r chain = .error e) :
    ∃ resolver ∈ chain, resolver.resolve files documents r = .error e := by
  obtain ⟨before, resolver, after, rfl, -, herror⟩ := resolveChain_eq_error_iff.mp h
  exact ⟨resolver, List.mem_append_right before List.mem_cons_self, herror⟩

/-- A chain leaves a reference alone if all its resolvers do. -/
theorem resolveChain_eq_ok_none :
    resolveChain files documents r chain = .ok none ↔
      ∀ resolver ∈ chain, resolver.resolve files documents r = .ok none := by
  induction chain with
  | nil => simp [resolveChain]
  | cons resolver chain ih =>
    rw [resolveChain, List.forall_mem_cons]
    split
    · next error herror => simp [herror]
    · next resolution hanswer => simp [hanswer]
    · next hnone => simp [hnone, ih]

/-! ## URLs -/

/-- Whether it is known how the resolver answers: it is not a function that was handed in. -/
def isBuiltIn : Resolver → Bool
  | custom .. => false
  | _ => true

theorem all_isBuiltIn (hstays : chain.all staysInSet) : chain.all isBuiltIn := by
  refine List.all_eq_true.mpr fun resolver hmem => ?_
  have hresolver := List.all_eq_true.mp hstays resolver hmem
  cases resolver with
  | custom name answer => exact nomatch hresolver
  | _ => rfl

theorem localKey?_remote (h : r.isRemote) : r.localKey? = none := by
  rw [Reference.localKey?, if_pos h]

theorem resolve_remote {resolver : Resolver} (hbuiltIn : resolver.isBuiltIn) (h : r.isRemote) :
    resolver.resolve files documents r = .ok none := by
  cases resolver with
  | exact extract => simp only [resolve, resolveExact, localKey?_remote h]
  | folder extract filter => simp only [resolve, resolveFolder, if_pos h]
  | files root extract missingIsError => simp only [resolve, resolveFile, localKey?_remote h]
  | fallback => simp only [resolve, resolveFallback, if_pos h]
  | custom name answer => exact nomatch hbuiltIn

/-- A URL is left alone. -/
theorem resolveChain_remote (hbuiltIn : chain.all isBuiltIn) (h : r.isRemote) :
    resolveChain files documents r chain = .ok none :=
  resolveChain_eq_ok_none.mpr fun _ hmem =>
    resolve_remote (List.all_eq_true.mp hbuiltIn _ hmem) h

/-! ## Fragments of documents -/

theorem resolveExact_eq_ok_some {extract : Bool} {resolution : Resolution}
    (h : resolveExact documents extract r = .ok (some resolution)) :
    ∃ key document f, documents.get? key = some document ∧
      document.fragment extract r.source key = .ok f ∧ resolution = ⟨"exact", [f]⟩ := by
  rw [resolveExact] at h
  split at h
  · exact nomatch h
  · split at h
    · exact nomatch h
    · next key _ =>
      split at h
      · exact nomatch h
      · next document hdocument =>
        obtain ⟨f, hf, h⟩ := bind_eq_ok.mp h
        cases h
        exact ⟨key, document, f, hdocument, hf, rfl⟩

/-- A document under the key of a target is what the target denotes. -/
theorem resolveExact_of_localKey? {extract : Bool} {key : String} {document : Document}
    (hkey : r.localKey? = some key) (hdocument : documents.get? key = some document) :
    resolveExact documents extract r =
      (document.fragment extract r.source key).map fun f => some ⟨"exact", [f]⟩ := by
  have hcontains : documents.contains key :=
    KeyMap.contains_iff.mpr (KeyMap.mem_keys_iff.mpr ⟨document, hdocument⟩)
  have hfind : (candidates key).find? documents.contains = some key :=
    List.find?_cons_of_pos hcontains
  rw [resolveExact, hkey]
  simp only [hfind, hdocument]
  rfl

/-- The fragments of some keys are those of the documents there. -/
theorem mem_fragments {extract : Bool} {source : String} {keys : List String}
    {fs : List Fragment} (h : fragments documents extract source keys = .ok fs) {f : Fragment}
    (hf : f ∈ fs) :
    ∃ key ∈ keys, ∃ document, documents.get? key = some document ∧
      document.fragment extract source key = .ok f := by
  obtain ⟨⟨key, document⟩, hmem, hfragment⟩ := mem_of_mapM_eq_ok h hf
  obtain ⟨k, hk, heq⟩ := List.mem_filterMap.mp hmem
  obtain ⟨document', hdocument, heq⟩ := Option.map_eq_some_iff.mp heq
  obtain ⟨rfl, rfl⟩ := Prod.mk.inj heq
  exact ⟨k, hk, document', hdocument, hfragment⟩

theorem fragments_cons_eq_ok {extract : Bool} {source key : String} {keys : List String}
    {document : Document} (hdocument : documents.get? key = some document) {fs : List Fragment} :
    fragments documents extract source (key :: keys) = .ok fs ↔
      ∃ f rest, document.fragment extract source key = .ok f ∧
        fragments documents extract source keys = .ok rest ∧ fs = f :: rest := by
  unfold fragments
  rw [List.filterMap_cons, hdocument]
  exact mapM_cons_eq_ok

theorem resolveFolder_eq_ok_some {extract : Bool} {filter : String → Bool}
    {resolution : Resolution}
    (h : resolveFolder documents extract filter r = .ok (some resolution)) :
    ∃ directory fs, r.joined? = some directory ∧
      fragments documents extract r.source (folderKeys documents filter directory) = .ok fs ∧
      resolution = ⟨"folder", fs⟩ := by
  rw [resolveFolder] at h
  split at h
  · exact nomatch h
  · split at h
    · exact nomatch h
    · next directory hdirectory =>
      split at h
      · exact nomatch h
      · next keys _ =>
        obtain ⟨fs, hfs, h⟩ := bind_eq_ok.mp h
        cases h
        exact ⟨directory, fs, hdirectory, hfs, rfl⟩

/-- The text of a target is a fragment without a key. -/
theorem resolveFallback_eq_ok_some {resolution : Resolution}
    (h : resolveFallback r = .ok (some resolution)) :
    resolution = ⟨"fallback", [⟨none, r.target, .empty⟩]⟩ := by
  simp only [resolveFallback, Except.ok.injEq] at h
  split at h
  · exact nomatch h
  · exact (Option.some.inj h).symm

/-- Whether front matter is split off the fragments of documents. -/
def extracts : Resolver → Bool
  | .exact extract | .folder extract _ | .files _ extract _ => extract
  | .fallback | .custom .. => true

/-- A fragment is that of a document of the set, or the text of the target as it stands. -/
theorem fragment_of_resolve {resolver : Resolver} (hstays : resolver.staysInSet)
    {resolution : Resolution} (h : resolver.resolve files documents r = .ok (some resolution))
    {f : Fragment} (hf : f ∈ resolution.fragments) :
    (∃ key document, documents.get? key = some document ∧
      document.fragment resolver.extracts r.source key = .ok f) ∨
      f.key = none ∧ f.content = r.target := by
  cases resolver with
  | exact extract =>
    obtain ⟨key, document, f', hdocument, hfragment, rfl⟩ := resolveExact_eq_ok_some h
    obtain rfl := List.mem_singleton.mp hf
    exact .inl ⟨key, document, hdocument, hfragment⟩
  | folder extract filter =>
    obtain ⟨directory, fs, -, hfs, rfl⟩ := resolveFolder_eq_ok_some h
    obtain ⟨key, -, document, hdocument, hfragment⟩ := mem_fragments hfs hf
    exact .inl ⟨key, document, hdocument, hfragment⟩
  | fallback =>
    obtain rfl := resolveFallback_eq_ok_some h
    obtain rfl := List.mem_singleton.mp hf
    exact .inr ⟨rfl, rfl⟩
  | files root extract missingIsError => exact nomatch hstays
  | custom name answer => exact nomatch hstays

/-- A fragment with a key is a document of the set. -/
theorem contains_of_resolveChain (hstays : chain.all staysInSet) {resolution : Resolution}
    (h : resolveChain files documents r chain = .ok (some resolution))
    {f : Fragment} (hf : f ∈ resolution.fragments) {key : String} (hkey : f.key = some key) :
    key ∈ documents.keys := by
  obtain ⟨resolver, hmem, hanswer⟩ := resolveChain_eq_ok_some h
  rcases fragment_of_resolve (List.all_eq_true.mp hstays _ hmem) hanswer hf with
    ⟨k, document, hdocument, hfragment⟩ | ⟨hnone, -⟩
  · rw [Document.key_of_fragment hfragment] at hkey
    cases hkey
    exact KeyMap.mem_keys_iff.mpr ⟨document, hdocument⟩
  · exact nomatch hnone.symm.trans hkey

/-- Where front matter is split off, a fragment with a key has all metadata of the document there.
-/
theorem frontMatter_of_resolveChain (hstays : chain.all staysInSet) (hextracts : chain.all extracts)
    {resolution : Resolution} (h : resolveChain files documents r chain = .ok (some resolution))
    {f : Fragment} (hf : f ∈ resolution.fragments) {key : String} (hkey : f.key = some key) :
    ∃ document, documents.get? key = some document ∧ document.frontMatter = .ok f.metadata := by
  obtain ⟨resolver, hmem, hanswer⟩ := resolveChain_eq_ok_some h
  rcases fragment_of_resolve (List.all_eq_true.mp hstays _ hmem) hanswer hf with
    ⟨k, document, hdocument, hfragment⟩ | ⟨hnone, -⟩
  · obtain rfl := Option.some.inj ((Document.key_of_fragment hfragment).symm.trans hkey)
    rw [List.all_eq_true.mp hextracts _ hmem] at hfragment
    exact ⟨document, hdocument, Document.frontMatter_of_fragment hfragment⟩
  · exact nomatch hnone.symm.trans hkey

/-- A fragment that carries metadata has all those of the document of the set with its key. -/
theorem frontMatter_of_metadata_ne_empty (hstays : chain.all staysInSet) {resolution : Resolution}
    (h : resolveChain files documents r chain = .ok (some resolution))
    {f : Fragment} (hf : f ∈ resolution.fragments) {key : String} (hkey : f.key = some key)
    (hne : f.metadata ≠ .empty) :
    ∃ document, documents.get? key = some document ∧ document.frontMatter = .ok f.metadata := by
  obtain ⟨resolver, hmem, hanswer⟩ := resolveChain_eq_ok_some h
  rcases fragment_of_resolve (List.all_eq_true.mp hstays _ hmem) hanswer hf with
    ⟨k, document, hdocument, hfragment⟩ | ⟨hnone, -⟩
  · obtain rfl := Option.some.inj ((Document.key_of_fragment hfragment).symm.trans hkey)
    exact ⟨document, hdocument, Document.frontMatter_of_fragment_ne_nil hfragment hne⟩
  · exact nomatch hnone.symm.trans hkey

/-- Text that is put in as it stands is the text of the target. -/
theorem content_of_resolveChain (hstays : chain.all staysInSet) {resolution : Resolution}
    (h : resolveChain files documents r chain = .ok (some resolution))
    {f : Fragment} (hf : f ∈ resolution.fragments) (hkey : f.key = none) :
    f.content = r.target := by
  obtain ⟨resolver, hmem, hanswer⟩ := resolveChain_eq_ok_some h
  rcases fragment_of_resolve (List.all_eq_true.mp hstays _ hmem) hanswer hf with
    ⟨k, document, -, hfragment⟩ | ⟨-, hcontent⟩
  · exact nomatch (Document.key_of_fragment hfragment).symm.trans hkey
  · exact hcontent

/-! ## Files -/

section Files

variable {root : String} {extract missingIsError : Bool}

/-- A file that answers stands at one of the candidates of the target. -/
theorem resolveFile_eq_ok_some {resolution : Resolution}
    (h : resolveFile files root extract missingIsError r = .ok (some resolution)) :
    ∃ joined key f, r.localKey? = some joined ∧ key ∈ candidates joined ∧
      files.isFile (FilePath.join root key) ∧ f.key = some key ∧
      resolution = ⟨"filesystem", [f]⟩ := by
  rw [resolveFile] at h
  split at h
  · exact nomatch h
  · next joined hjoined =>
    split at h
    · next key hfind =>
      split at h
      · exact nomatch h
      · have hmem := List.mem_of_find?_eq_some hfind
        have hfile := List.find?_some hfind
        dsimp only at h
        split at h
        · obtain ⟨f, hf, h⟩ := bind_eq_ok.mp h
          cases h
          exact ⟨joined, key, f, hjoined, hmem, hfile, Fragment.key_of_extracted hf, rfl⟩
        · cases h
          exact ⟨joined, key, _, hjoined, hmem, hfile, rfl, rfl⟩
    · split at h <;> exact nomatch h

/-- A file that is there may be hard to read. One that is missing is an error only if it is to be.
-/
theorem resolveFile_error {e : Error}
    (h : resolveFile files root extract missingIsError r = .error e) :
    (∃ reason, e = .io reason) ∨ (∃ key reason, e = .invalidFrontMatter r.source key reason) ∨
      missingIsError ∧ ∃ joined, r.localKey? = some joined ∧
        e = .missingSourceFile r.source r.target (FilePath.join root joined) := by
  rw [resolveFile] at h
  split at h
  · exact nomatch h
  · next joined hjoined =>
    split at h
    · next key hfind =>
      split at h
      · cases h
        exact .inl ⟨_, rfl⟩
      · dsimp only at h
        split at h
        · rcases bind_eq_error.mp h with h | ⟨f, -, h⟩
          · obtain ⟨error, -, rfl⟩ := Fragment.error_of_extracted h
            exact .inr (.inl ⟨key, error.message, rfl⟩)
          · exact nomatch h
        · exact nomatch h
    · split at h
      · next hmissing =>
        cases h
        exact .inr (.inr ⟨hmissing, joined, hjoined, rfl⟩)
      · exact nomatch h

end Files

end Resolver

end Transclusion
