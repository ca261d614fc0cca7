import Transclusion.Proofs.Resolver

/-!
# Which document a chain stumbles on

A resolver that stays in the set looks some keys up, and takes the fragments of the documents there
for its answer. All of them are built before any is used, so one with front matter that cannot be
read is an error, wherever it stands among the others.

* `Resolver.answerKeys` — the keys that are looked up, and `Resolver.resolve_eq_error_iff` — an
  error is that of a document at one of them;
* `Resolver.resolve_error`, `Resolver.resolveChain_error` — the only error is front matter that
  cannot be read;
* `Resolver.Stumbles` — the chain comes to a document that has no fragment, and
  `Resolver.resolveChain_eq_error_iff_stumbles` — which document that error is about.
-/

namespace Transclusion.Resolver

variable {files : FileTree} {documents : DocumentSet} {r : Reference} {chain : List Resolver}

/-! ## Fragments of some keys -/

/-- The fragments of some keys, key by key. -/
theorem fragments_eq_collect (extract : Bool) (source : String) (keys : List String) :
    fragments documents extract source keys =
      collect (fun key => (documents.get? key).elim (.ok []) fun document =>
        (document.fragment extract source key).map ([·])) keys := by
  induction keys with
  | nil => rfl
  | cons key keys ih =>
    rw [collect, ← ih, fragments, List.filterMap_cons]
    cases documents.get? key with
    | none =>
      show _ = (fragments documents extract source keys >>= pure)
      rw [bind_pure]
      rfl
    | some document =>
      simp only [Option.map_some, Option.elim_some, List.mapM_cons]
      cases document.fragment extract source key <;> rfl

section Fragments

variable {extract : Bool} {source : String} {keys : List String}

/-- There are no fragments of some keys if there is none of a document among those, and the first
such document is to blame. -/
theorem fragments_eq_error {e : Error} :
    fragments documents extract source keys = .error e ↔
      ∃ front key back document, keys = front ++ key :: back ∧
        (∃ fs, fragments documents extract source front = .ok fs) ∧
        documents.get? key = some document ∧ document.fragment extract source key = .error e := by
  simp only [fragments_eq_collect, collect_eq_error]
  constructor
  · rintro ⟨front, key, back, rfl, hfront, h⟩
    cases hdocument : documents.get? key with
    | none =>
      rw [hdocument] at h
      exact nomatch h
    | some document =>
      rw [hdocument] at h
      exact ⟨front, key, back, document, rfl, hfront, hdocument, map_eq_error.mp h⟩
  · rintro ⟨front, key, back, document, rfl, hfront, hdocument, h⟩
    refine ⟨front, key, back, rfl, hfront, ?_⟩
    rw [hdocument, Option.elim_some, h]
    rfl

end Fragments

/-! ## Keys that are looked up -/

/-- The keys of the set that a resolver looks up, to answer with the documents there. -/
def answerKeys (documents : DocumentSet) (r : Reference) : Resolver → List String
  | exact _ => (r.localKey?.bind fun key => (candidates key).find? documents.contains).toList
  | folder _ filter => if r.isRemote then [] else r.joined?.elim [] (folderKeys documents filter)
  | _ => []

theorem mem_keys_of_answerKeys {resolver : Resolver} {key : String}
    (h : key ∈ resolver.answerKeys documents r) : key ∈ documents.keys := by
  cases resolver with
  | exact extract =>
    rw [answerKeys, Option.mem_toList, Option.bind_eq_some_iff] at h
    obtain ⟨joined, -, hfind⟩ := h
    exact KeyMap.contains_iff.mp (List.find?_some hfind)
  | folder extract filter =>
    rw [answerKeys] at h
    split at h
    · exact nomatch h
    · cases hjoined : r.joined? with
      | none =>
        rw [hjoined] at h
        exact nomatch h
      | some directory =>
        rw [hjoined, Option.elim_some, folderKeys, KeyMap.keysUnder_eq_filter] at h
        exact List.mem_of_mem_filter (List.mem_of_mem_filter h)
  | files root extract missingIsError => exact nomatch h
  | fallback => exact nomatch h
  | custom name answer => exact nomatch h

/-- What a resolver makes of a reference that looks keys up for it. -/
def lookUp (documents : DocumentSet) (r : Reference) (resolver : Resolver) :
    Except Error (Option Resolution) :=
  match resolver.answerKeys documents r with
  | [] => .ok none
  | keys =>
      (fragments documents resolver.extracts r.source keys).map fun fs => some ⟨resolver.name, fs⟩

theorem resolveExact_eq_lookUp (extract : Bool) :
    resolveExact documents extract r = (exact extract).lookUp documents r := by
  simp only [resolveExact, lookUp, answerKeys, extracts, name]
  cases r.localKey? with
  | none => rfl
  | some joined =>
    simp only [Option.bind_some]
    cases hfind : (candidates joined).find? documents.contains with
    | none => rfl
    | some key =>
      obtain ⟨document, hdocument⟩ :=
        KeyMap.mem_keys_iff.mp (KeyMap.contains_iff.mp (List.find?_some hfind))
      simp only [fragments_eq_collect, Option.toList_some, collect, hdocument, Option.elim_some]
      cases document.fragment extract r.source key <;> rfl

theorem resolveFolder_eq_lookUp (extract : Bool) (filter : String → Bool) :
    resolveFolder documents extract filter r = (folder extract filter).lookUp documents r := by
  simp only [resolveFolder, lookUp, answerKeys, extracts, name]
  split
  · rfl
  · cases r.joined? with
    | none => rfl
    | some directory =>
      simp only [Option.elim_some]
      cases folderKeys documents filter directory with
      | nil => rfl
      | cons key keys =>
        simp only
        cases fragments documents extract r.source (key :: keys) <;> rfl

theorem lookUp_eq_error_iff {resolver : Resolver} {e : Error} :
    resolver.lookUp documents r = .error e ↔
      fragments documents resolver.extracts r.source (resolver.answerKeys documents r) =
        .error e := by
  rw [lookUp]
  split
  · next hnone =>
    rw [hnone]
    exact iff_of_false nofun nofun
  · exact map_eq_error

/-- An error is that of a document at one of these keys. -/
theorem resolve_eq_error_iff {resolver : Resolver} (hstays : resolver.staysInSet) {e : Error} :
    resolver.resolve files documents r = .error e ↔
      fragments documents resolver.extracts r.source (resolver.answerKeys documents r) =
        .error e := by
  cases resolver with
  | exact extract =>
    show resolveExact documents extract r = .error e ↔ _
    rw [resolveExact_eq_lookUp, lookUp_eq_error_iff]
  | folder extract filter =>
    show resolveFolder documents extract filter r = .error e ↔ _
    rw [resolveFolder_eq_lookUp, lookUp_eq_error_iff]
  | fallback => exact iff_of_false nofun nofun
  | files root extract missingIsError => exact nomatch hstays
  | custom name answer => exact nomatch hstays

/-- The only error is front matter that cannot be read. -/
theorem resolve_error {resolver : Resolver} (hstays : resolver.staysInSet) {e : Error}
    (h : resolver.resolve files documents r = .error e) :
    ∃ key reason, e = .invalidFrontMatter r.source key reason := by
  obtain ⟨front, key, back, document, -, -, -, hfragment⟩ :=
    fragments_eq_error.mp ((resolve_eq_error_iff hstays).mp h)
  obtain ⟨error, -, rfl⟩ := Document.fragment_error hfragment
  exact ⟨key, error.message, rfl⟩

/-! ## Chains -/

theorem resolveChain_error (hstays : chain.all staysInSet) {e : Error}
    (h : resolveChain files documents r chain = .error e) :
    ∃ key reason, e = .invalidFrontMatter r.source key reason := by
  obtain ⟨resolver, hmem, herror⟩ := resolveChain_eq_error h
  exact resolve_error (List.all_eq_true.mp hstays resolver hmem) herror

/-- The chain stumbles on the document at `key`, as its front matter cannot be read: the first
resolver that does not leave the reference alone looks this key up, and there are fragments of the
documents at those that it looks up before. -/
def Stumbles (files : FileTree) (documents : DocumentSet) (r : Reference)
    (chain : List Resolver) (key : String) (error : FrontMatter.Error) : Prop :=
  ∃ before resolver after front back document, chain = before ++ resolver :: after ∧
    (∀ other ∈ before, other.resolve files documents r = .ok none) ∧
    resolver.answerKeys documents r = front ++ key :: back ∧
    (∃ fs, fragments documents resolver.extracts r.source front = .ok fs) ∧
    documents.get? key = some document ∧ FrontMatter.parse document.content = .error error ∧
    document.fragment resolver.extracts r.source key =
      .error (.invalidFrontMatter r.source key error.message)

/-- An error of a chain that stays in the set is about the document that the chain stumbles on. -/
theorem resolveChain_eq_error_iff_stumbles (hstays : chain.all staysInSet) {e : Error} :
    resolveChain files documents r chain = .error e ↔
      ∃ key error, Stumbles files documents r chain key error ∧
        e = .invalidFrontMatter r.source key error.message := by
  rw [resolveChain_eq_error_iff]
  constructor
  · rintro ⟨before, resolver, after, rfl, hbefore, h⟩
    have hresolver := List.all_eq_true.mp hstays resolver
      (List.mem_append_right before List.mem_cons_self)
    obtain ⟨front, key, back, document, hkeys, hfront, hdocument, hfragment⟩ :=
      fragments_eq_error.mp ((resolve_eq_error_iff hresolver).mp h)
    obtain ⟨error, herror, rfl⟩ := Document.fragment_error hfragment
    exact ⟨key, error, ⟨before, resolver, after, front, back, document, rfl, hbefore, hkeys, hfront,
      hdocument, herror, hfragment⟩, rfl⟩
  · rintro ⟨key, error, stumbles, rfl⟩
    obtain ⟨before, resolver, after, front, back, document, rfl, hbefore, hkeys, hfront, hdocument,
      -, hfragment⟩ := stumbles
    have hresolver := List.all_eq_true.mp hstays resolver
      (List.mem_append_right before List.mem_cons_self)
    refine ⟨before, resolver, after, rfl, hbefore, (resolve_eq_error_iff hresolver).mpr ?_⟩
    exact fragments_eq_error.mpr ⟨front, key, back, document, hkeys, hfront, hdocument, hfragment⟩

end Transclusion.Resolver
