import Mathlib.Data.List.Find
import Transclusion.Proofs.Expansion.Cycles
import Transclusion.Proofs.Key

/-!
# No target leads out of the root

From a normalized key a target denotes a normalized key, or the root, or nothing. So however the
documents on the way spell their targets, an expansion that starts in normalized keys stays in them,
and it looks for files below the roots of its resolvers only.

* `Reference.normalized_of_localKey?`, `Resolver.normalized_of_mem_candidates` — the keys that a
  target is looked up under;
* `Resolver.Below`, `Resolver.below_of_mem_probes` — the paths at which a file is looked for;
* `Resolver.normalized_of_resolve` — the keys of fragments;
* `Visit.Normalized`, `Engine.normalized_of_reaches` — one step of a walk keeps all keys normalized,
  and so does a whole walk;
* `Engine.onFiles`, `Engine.pieces_onFiles` — files elsewhere make no difference;
* `Engine.StaysBelow`, `Engine.staysBelow` — what an expansion does not leave.
-/

namespace Transclusion

/-- Two trees show the same at a path: whether a file is there, and its text. -/
def FileTree.SameAt (a b : FileTree) (path : String) : Prop :=
  a.isFile path = b.isFile path ∧ a.readText path = b.readText path

/-! ## Keys of a target -/

/-- Seen from a document with a normalized key, a local target denotes the root or a normalized key.
-/
theorem Reference.normalized_of_localKey? {r : Reference} (hsource : Key.Normalized r.source)
    {key : String} (h : r.localKey? = some key) : Key.Normalized key := by
  unfold localKey? at h
  split at h
  · exact nomatch h
  · obtain ⟨hjoined, hne⟩ := Option.filter_eq_some_iff.mp h
    exact Key.join_normalized hsource hjoined (of_decide_eq_true hne)

namespace Resolver

variable {files files' : FileTree} {documents : DocumentSet} {r : Reference}
  {chain : List Resolver} {root : String}

theorem normalized_of_mem_candidates {joined key : String} (hjoined : Key.Normalized joined)
    (h : key ∈ candidates joined) : Key.Normalized key := by
  rcases List.mem_cons.mp h with rfl | h
  · exact hjoined
  · obtain rfl := List.mem_singleton.mp h
    exact Key.normalized_append_suffix hjoined

/-! ## Paths of a target -/

/-- The directory that a resolver takes files from. -/
def root? : Resolver → Option String
  | .files root .. => some root
  | _ => none

/-- The path is a directory continued by a relative path, which is a normalized key. -/
def Below (root path : String) : Prop :=
  ∃ key, Key.Normalized key ∧ FilePath.isAbsolute key = false ∧ path = FilePath.join root key

theorem below_join {key : String} (h : Key.Normalized key) : Below root (FilePath.join root key) :=
  ⟨key, h, decide_eq_false (Key.head?_ne_slash h), rfl⟩

/-- The paths at which a file is looked for. -/
def probes (root : String) (r : Reference) : List String :=
  (r.localKey?.toList.flatMap candidates).map (FilePath.join root)

theorem mem_probes {path : String} :
    path ∈ probes root r ↔
      ∃ joined key, r.localKey? = some joined ∧ key ∈ candidates joined ∧
        path = FilePath.join root key := by
  simp only [probes, List.mem_map, List.mem_flatMap, Option.mem_toList, eq_comm (a := path)]
  constructor
  · intro h
    obtain ⟨key, ⟨joined, hjoined, hkey⟩, hpath⟩ := h
    exact ⟨joined, key, hjoined, hkey, hpath⟩
  · intro h
    obtain ⟨joined, key, hjoined, hkey, hpath⟩ := h
    exact ⟨key, ⟨joined, hjoined, hkey⟩, hpath⟩

theorem below_of_mem_probes (hsource : Key.Normalized r.source) {path : String}
    (h : path ∈ probes root r) : Below root path := by
  obtain ⟨joined, key, hjoined, hkey, rfl⟩ := mem_probes.mp h
  have hnormalized := Reference.normalized_of_localKey? hsource hjoined
  exact below_join (normalized_of_mem_candidates hnormalized hkey)

/-- No other paths matter. -/
theorem resolveFile_congr {extract missingIsError : Bool}
    (h : ∀ path ∈ probes root r, files'.SameAt files path) :
    resolveFile files' root extract missingIsError r =
      resolveFile files root extract missingIsError r := by
  rw [resolveFile, resolveFile]
  cases hjoined : r.localKey? with
  | none => rfl
  | some joined =>
    have hsame : ∀ key ∈ candidates joined, files'.SameAt files (FilePath.join root key) :=
      fun key hkey => h _ (mem_probes.mpr ⟨joined, key, hjoined, hkey, rfl⟩)
    have hfind : (candidates joined).find? (fun key => files'.isFile (FilePath.join root key)) =
        (candidates joined).find? fun key => files.isFile (FilePath.join root key) :=
      List.find?_congr fun key hkey => (hsame key hkey).1
    simp only [hfind]
    -- the file that is read is one of those that were looked for
    cases hkey : (candidates joined).find? fun key => files.isFile (FilePath.join root key) with
    | none => rfl
    | some key => simp only [(hsame key (List.mem_of_find?_eq_some hkey)).2]

variable (hsource : Key.Normalized r.source)

include hsource

/-- What a resolver makes of a reference depends on files below its root only. -/
theorem resolve_congr {resolver : Resolver}
    (h : ∀ root, resolver.root? = some root → ∀ path, Below root path → files'.SameAt files path) :
    resolver.resolve files' documents r = resolver.resolve files documents r := by
  cases resolver with
  | files root extract missingIsError =>
    exact resolveFile_congr fun path hpath => h root rfl path (below_of_mem_probes hsource hpath)
  | _ => rfl

theorem resolveChain_congr
    (h : ∀ root ∈ chain.filterMap root?, ∀ path, Below root path → files'.SameAt files path) :
    resolveChain files' documents r chain = resolveChain files documents r chain := by
  induction chain with
  | nil => rfl
  | cons resolver chain ih =>
    have hfirst : resolver.resolve files' documents r = resolver.resolve files documents r :=
      resolve_congr hsource fun root hroot => h root (by simp [hroot])
    have hsublist := (List.sublist_cons_self resolver chain).filterMap root?
    have hothers : resolveChain files' documents r chain =
        resolveChain files documents r chain :=
      ih fun root hroot => h root (hsublist.subset hroot)
    rw [resolveChain, resolveChain, hfirst, hothers]

/-- The path of a file that is missing is below the root of the resolver that misses it. -/
theorem below_of_missingSourceFile {resolver : Resolver} (hbuiltIn : resolver.isBuiltIn)
    {document target path : String}
    (h : resolver.resolve files documents r = .error (.missingSourceFile document target path)) :
    document = r.source ∧ ∃ root, resolver.root? = some root ∧ Below root path := by
  cases resolver with
  | exact extract =>
    obtain ⟨key, reason, herror⟩ := resolve_error rfl h
    exact nomatch herror
  | folder extract filter =>
    obtain ⟨key, reason, herror⟩ := resolve_error rfl h
    exact nomatch herror
  | files root extract missingIsError =>
    rcases resolveFile_error h with ⟨_, herror⟩ | ⟨_, _, herror⟩ | ⟨-, joined, hjoined, herror⟩
    · exact nomatch herror
    · exact nomatch herror
    · cases herror
      exact ⟨rfl, root, rfl, below_join (Reference.normalized_of_localKey? hsource hjoined)⟩
  | fallback => exact nomatch h
  | custom name answer => exact nomatch hbuiltIn

/-- A fragment has the key of a document of the set, or one under which its target is looked up. -/
theorem normalized_of_resolve {resolver : Resolver} (hbuiltIn : resolver.isBuiltIn)
    (hdocuments : ∀ key ∈ documents.keys, Key.Normalized key) {resolution : Resolution}
    (h : resolver.resolve files documents r = .ok (some resolution)) {f : Fragment}
    (hf : f ∈ resolution.fragments) {key : String} (hkey : f.key = some key) :
    Key.Normalized key := by
  by_cases hstays : resolver.staysInSet
  · rcases fragment_of_resolve hstays h hf with ⟨k, document, hdocument, hfragment⟩ | ⟨hnone, -⟩
    · obtain rfl := Option.some.inj ((Document.key_of_fragment hfragment).symm.trans hkey)
      exact hdocuments k (KeyMap.mem_keys_iff.mpr ⟨document, hdocument⟩)
    · exact nomatch hnone.symm.trans hkey
  · cases resolver with
    | files root extract missingIsError =>
      obtain ⟨joined, k, f', hjoined, hcandidate, -, hf', rfl⟩ := resolveFile_eq_ok_some h
      obtain rfl := List.mem_singleton.mp hf
      obtain rfl := Option.some.inj (hf'.symm.trans hkey)
      exact normalized_of_mem_candidates (Reference.normalized_of_localKey? hsource hjoined)
        hcandidate
    | custom name answer => exact nomatch hbuiltIn
    | _ => exact absurd rfl hstays

end Resolver

/-! ## Walks -/

/-- The key of a visit is normalized, and so are the keys of the documents it came through. -/
structure Visit.Normalized (v : Visit) : Prop where
  path : ∀ key ∈ v.path, Key.Normalized key
  key : Key.Normalized v.key

/-- One more document that is put in. -/
theorem Visit.Normalized.append {v : Visit} (h : v.Normalized) {key : String}
    (hkey : Key.Normalized key) (content : String) :
    Visit.Normalized ⟨v.path ++ [key], key, content⟩ where
  path := List.forall_mem_append.mpr ⟨h.path, List.forall_mem_singleton.mpr hkey⟩
  key := hkey

namespace Engine

variable {engine : Engine}

/-- The same engine over other files. -/
def onFiles (engine : Engine) (files : FileTree) : Engine :=
  { engine with files }

/-- The directories that the resolvers of the chain take files from. -/
def roots (engine : Engine) : List String :=
  engine.chain.filterMap Resolver.root?

section Walks

variable (hbuiltIn : engine.chain.all Resolver.isBuiltIn)
  (hdocuments : ∀ key ∈ engine.documents.keys, Key.Normalized key)

include hbuiltIn hdocuments

theorem normalized_of_leads {key content : String} (hkey : Key.Normalized key) {d : Directive}
    {fragment : Fragment} (leads : engine.Leads key content d fragment) {k : String}
    (hk : fragment.key = some k) : Key.Normalized k := by
  obtain ⟨-, resolution, hanswer, hfragment⟩ := leads
  obtain ⟨resolver, hmem, hanswer⟩ := Resolver.resolveChain_eq_ok_some hanswer
  exact Resolver.normalized_of_resolve hkey (List.all_eq_true.mp hbuiltIn resolver hmem) hdocuments
    hanswer hfragment hk

/-- A step keeps all keys normalized. -/
theorem normalized_of_next {v w : Visit} (hv : v.Normalized) (h : engine.Next v w) :
    w.Normalized := by
  cases h with
  | follow leads hkey =>
    exact hv.append (normalized_of_leads hbuiltIn hdocuments hv.key leads hkey) _

/-- And so does a walk. -/
theorem normalized_of_reaches {v w : Visit} (hv : v.Normalized) (h : engine.Reaches v w) :
    w.Normalized := by
  induction h with
  | refl => exact hv
  | tail _ hnext ih => exact normalized_of_next hbuiltIn hdocuments ih hnext

end Walks

/-! ## Files elsewhere -/

section Files

variable {files : FileTree}
  (hsame : ∀ root ∈ engine.roots, ∀ path, Resolver.Below root path → files.SameAt engine.files path)

include hsame

theorem contentPieces_onFiles (build : Builder) (path : List String) {key : String}
    (hkey : Key.Normalized key) (content : String) :
    contentPieces (engine.onFiles files) build path key content =
      contentPieces engine build path key content := by
  -- of all that pieces are made from, only the answers of the chain may depend on files
  have hresolve : ∀ d, (engine.onFiles files).resolve key d = engine.resolve key d :=
    fun d => Resolver.resolveChain_congr hkey hsame
  have hpart : partPieces (engine.onFiles files) build path key =
      partPieces engine build path key := by
    funext part
    simp only [partPieces, directivePieces, hresolve]
    rfl
  rw [contentPieces, contentPieces, hpart]
  rfl

/-- Pieces depend on the files below the roots only. -/
theorem pieces_onFiles (hbuiltIn : engine.chain.all Resolver.isBuiltIn)
    (hdocuments : ∀ key ∈ engine.documents.keys, Key.Normalized key) (depth : Nat)
    (path : List String) {key : String} (hkey : Key.Normalized key) (content : String) :
    (engine.onFiles files).pieces depth path key content =
      engine.pieces depth path key content := by
  induction depth generalizing path key content with
  | zero => rfl
  | succ depth ih =>
    -- the keys one level down are normalized again, so both trees give the same pieces there
    rw [pieces, contentPieces_onFiles hsame _ path hkey]
    refine contentPieces_congr fun d fragment leads k hk _ => ?_
    exact ih _ (normalized_of_leads hbuiltIn hdocuments hkey leads hk) _

theorem fullPieces_onFiles (hbuiltIn : engine.chain.all Resolver.isBuiltIn)
    (hdocuments : ∀ key ∈ engine.documents.keys, Key.Normalized key) (path : List String)
    {key : String} (hkey : Key.Normalized key) (content : String) :
    (engine.onFiles files).fullPieces path key content = engine.fullPieces path key content := by
  obtain ⟨depth, hthere, hhere⟩ :=
    (((engine.onFiles files).eventually_pieces_eq path key content).and
      (engine.eventually_pieces_eq path key content)).exists
  rw [← hthere, ← hhere, pieces_onFiles hsame hbuiltIn hdocuments depth path hkey]

end Files

/-! ## Expansions -/

/-- All keys on a path are normalized. -/
def allNormalized (path : List String) : Bool :=
  path.all fun key => decide (Key.Normalized key)

/-- To give an alarm where a key is not normalized makes no difference. -/
theorem watched_allNormalized_eq (hbuiltIn : engine.chain.all Resolver.isBuiltIn)
    (hdocuments : ∀ key ∈ engine.documents.keys, Key.Normalized key) (alarm : Error) (depth : Nat)
    {path : List String} {key content : String} (h : Visit.Normalized ⟨path, key, content⟩)
    (g : Gathered) :
    watched engine allNormalized alarm depth path key content g =
      expandContent engine depth path key content g := by
  refine watched_eq_of_invariant (fun path key => Visit.Normalized ⟨path, key, content⟩) ?_ ?_ alarm
    depth h content g
  · intro path key h
    exact List.all_eq_true.mpr fun k hk => decide_eq_true (h.path k hk)
  · intro path key content' d fragment k h leads hk _
    exact h.append (normalized_of_leads hbuiltIn hdocuments h.key leads hk) content

/-- The keys and the paths that an expansion of the content at `key` does not leave. -/
structure StaysBelow (engine : Engine) (key content : String) : Prop where
  /-- To give an alarm where the key of a document on the way is not normalized makes no
  difference. -/
  watched_eq : ∀ alarm depth g,
    watched engine allNormalized alarm depth [key] key content g =
      expandContent engine depth [key] key content g
  /-- The keys of all contexts are normalized. -/
  visits : ∀ v, engine.Reaches (start key content) v → v.Normalized
  /-- So are the keys of all fragments. -/
  fragments : ∀ v, engine.Reaches (start key content) v → ∀ d fragment k,
    engine.Leads v.key v.content d fragment → fragment.key = some k → Key.Normalized k
  /-- A target denotes the root or a normalized key there, whatever it says. -/
  joins : ∀ v, engine.Reaches (start key content) v → ∀ target k,
    Key.join v.key target = some k → k = "" ∨ Key.Normalized k
  /-- The keys under which the target of a reference is looked up are normalized. -/
  candidates : ∀ v, engine.Reaches (start key content) v → ∀ r : Reference, r.source = v.key →
    ∀ joined, r.localKey? = some joined → ∀ k ∈ Resolver.candidates joined, Key.Normalized k
  /-- The paths at which files are looked for are below the root. -/
  probes : ∀ v, engine.Reaches (start key content) v → ∀ r : Reference, r.source = v.key →
    ∀ root ∈ engine.roots, ∀ path ∈ Resolver.probes root r, Resolver.Below root path
  /-- Files elsewhere make no difference. -/
  expand_onFiles : ∀ files : FileTree,
    (∀ root ∈ engine.roots, ∀ path, Resolver.Below root path → files.SameAt engine.files path) →
    (engine.onFiles files).expand key content = engine.expand key content
  /-- A missing file that is reported is below a root, too. -/
  reports : ∀ document target path,
    engine.expand key content = .error (.error (.missingSourceFile document target path)) →
    Key.Normalized document ∧ ∃ root ∈ engine.roots, Resolver.Below root path

/-- If the keys of the set and the key of the content are normalized, nothing that a target may say
leads an expansion out of the roots of its resolvers. -/
theorem staysBelow (hbuiltIn : engine.chain.all Resolver.isBuiltIn)
    (hdocuments : ∀ key ∈ engine.documents.keys, Key.Normalized key) {key : String}
    (hkey : Key.Normalized key) (content : String) : engine.StaysBelow key content := by
  have hvisit : (start key content).Normalized := ⟨List.forall_mem_singleton.mpr hkey, hkey⟩
  have hvisits : ∀ v, engine.Reaches (start key content) v → v.Normalized :=
    fun v hreaches => normalized_of_reaches hbuiltIn hdocuments hvisit hreaches
  constructor
  · intro alarm depth g
    exact watched_allNormalized_eq hbuiltIn hdocuments alarm depth hvisit g
  · exact hvisits
  · intro v hreaches d fragment k leads hk
    exact normalized_of_leads hbuiltIn hdocuments (hvisits v hreaches).key leads hk
  · intro v hreaches target k hjoin
    exact or_iff_not_imp_left.mpr (Key.join_normalized (hvisits v hreaches).key hjoin)
  · intro v hreaches r hr joined hjoined k hk
    have hsource : Key.Normalized r.source := hr ▸ (hvisits v hreaches).key
    exact Resolver.normalized_of_mem_candidates
      (Reference.normalized_of_localKey? hsource hjoined) hk
  · intro v hreaches r hr root _ path hpath
    exact Resolver.below_of_mem_probes (hr ▸ (hvisits v hreaches).key) hpath
  · intro files hsame
    rw [expand_eq, expand_eq, fullPieces_onFiles hsame hbuiltIn hdocuments _ hkey]
  · intro document target path h
    obtain ⟨w, d, hreaches, -, hcause⟩ := exists_walk_of_error h
    have hw := (hvisits w hreaches).key
    cases hcause with
    | resolution hresolve =>
      obtain ⟨resolver, hmem, herror⟩ := Resolver.resolveChain_eq_error hresolve
      obtain ⟨rfl, root, hroot, hbelow⟩ := Resolver.below_of_missingSourceFile hw
        (List.all_eq_true.mp hbuiltIn resolver hmem) herror
      exact ⟨hw, root, List.mem_filterMap.mpr ⟨resolver, hmem, hroot⟩, hbelow⟩

/-- Targets that climb, with a directory for files, from a document in a directory. -/
theorem staysBelow_climbing :
    let engine : Engine :=
      ⟨default, .ofList [("a.md", ⟨"A:[](/../../etc)", .empty⟩), ("d/b.md", ⟨":[](.././/a)", .empty⟩)],
        [.exact false, .folder false fun _ => true, .files "src" false true, .fallback],
        { permalink := true }⟩
    let content := ":[](./../d//b.md) :[](../../../etc/passwd)"
    engine.chain.all Resolver.isBuiltIn = true ∧
    (∀ key ∈ engine.documents.keys, Key.Normalized key) ∧ Key.Normalized "d/c.md" ∧
    engine.expand "d/c.md" content =
      .ok ⟨"A/../../etc ../../../etc/passwd", .empty, ["d/b.md", "a.md"]⟩ ∧
    engine.StaysBelow "d/c.md" content := by
  intro engine content
  have hbuiltIn : engine.chain.all Resolver.isBuiltIn = true := rfl
  have hdocuments : ∀ key ∈ engine.documents.keys, Key.Normalized key := by decide +kernel
  have hkey : Key.Normalized "d/c.md" := by decide +kernel
  have hexpand : engine.expand "d/c.md" content =
      .ok ⟨"A/../../etc ../../../etc/passwd", .empty, ["d/b.md", "a.md"]⟩ := by decide +kernel
  exact ⟨hbuiltIn, hdocuments, hkey, hexpand, staysBelow hbuiltIn hdocuments hkey content⟩

end Engine

end Transclusion
