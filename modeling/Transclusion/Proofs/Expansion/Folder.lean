import Transclusion.Proofs.Directive.Scan
import Transclusion.Proofs.Expansion.Fully
import Transclusion.Proofs.Key
import Transclusion.Proofs.Key.Directory
import Transclusion.Proofs.Resolver

/-!
# A directory is its members in a row

A directive that names a directory is replaced like the directives that name its documents, one
behind the other.

* `Directive.bare`, `Directive.written` — a directive with nothing but a target, and its text;
* `Outline.ofText_join_written` — the outline of such texts in a row;
* `Resolver.members` — the documents of a directory, and `Resolver.folderKeys_eq_members` — the walk
  through the set finds these;
* `Engine.resolve_directory`, `Engine.resolve_member` — what the two kinds of targets resolve to;
* `Engine.replaceAll_members_eq_ok` — the members in a row come to what the fragments of the
  directory come to;
* `Engine.expand_directory_eq_members` — and so do the expansions.

The directory has all its fragments before the first one is expanded, and its errors name other
targets. So the two expansions fail together, but not with the same error.
-/

namespace Transclusion

/-! ## Directives in a row -/

namespace Directive

/-- The text of a directive with nothing but a target. -/
def written (target : String) : String :=
  ":[](" ++ target ++ ")"

/-- The parts of a directive with nothing but a target. -/
def bareParts (target : String) : Parts :=
  ⟨[], target.toList, [], []⟩

/-- A directive with nothing but a target. -/
def bare (target : String) : Directive :=
  (bareParts target).directive

@[simp] theorem target_bare (target : String) : (bare target).target = target :=
  String.ofList_toList

theorem toList_source_bare (target : String) :
    (bare target).source.toList = (written target).toList := by
  rw [bare, Parts.toList_source_directive]
  simp [Parts.toChars, bareParts, written]

theorem grammatical_bareParts {target : String} (h : IsTarget target) :
    (bareParts target).Grammatical where
  label_chars := nofun
  target_ne_nil := by simpa [bareParts] using h.1
  target_chars := h.2
  gap_chars := nofun
  behind_chars := nofun
  behind_eq_nil _ := rfl

theorem isTarget_rooted {key : String} (h : IsTarget key) : IsTarget ("/" ++ key) :=
  h.append_left (by simp)

theorem written_rooted (key : String) : written ("/" ++ key) = ":[](/" ++ key ++ ")" := by
  rw [written, ← String.append_assoc]
  rfl

end Directive

open Directive

/-- The outline of directives in a row: there is nothing between them and nothing behind them. -/
theorem Outline.ofText_join_written {targets : List String} (h : ∀ t ∈ targets, IsTarget t) :
    Outline.ofText (String.join (targets.map written)) =
      ⟨targets.map fun target => ([], bare target), []⟩ := by
  refine Outline.ofText_eq_iff.mpr ⟨?_, ?_⟩
  · show LeftmostParts [] (targets.map _)
    induction targets with
    | nil => exact silent_nil _
    | cons target targets ih =>
      obtain ⟨htarget, hothers⟩ := List.forall_mem_cons.mp h
      refine ⟨silent_nil _, ?_, ih hothers⟩
      refine ⟨bareParts target, grammatical_bareParts htarget, rfl, ?_⟩
      rw [bare, Parts.toList_source_directive]
  · rw [Outline.toChars_eq_flatten]
    show flatten [] (targets.map _) = _
    clear h
    induction targets with
    | nil => rfl
    | cons target targets ih =>
      rw [List.map_cons, List.map_cons, String.join_cons, String.toList_append,
        ← toList_source_bare, ← ih, flatten, List.nil_append]

/-! ## Directories -/

namespace Resolver

variable {documents : DocumentSet} {filter : String → Bool} {source target directory : String}

/-- The documents inside a directory that a filter lets through, in key order. -/
def members (documents : DocumentSet) (filter : String → Bool) (directory : String) :
    List String :=
  documents.keys.filter fun key => filter key && Key.isInside directory key

/-- The walk through the keys of a directory finds its members. -/
theorem folderKeys_eq_members (hjoin : Key.join source target = some directory) :
    folderKeys documents filter directory = members documents filter directory := by
  rw [folderKeys, KeyMap.keysUnder_eq_filter, List.filter_filter, members]
  congr 1
  funext key
  by_cases hroot : directory = ""
  · simp [hroot, Key.isInside, KeyMap.directoryStart]
  · simp [hroot, Key.isInside, Key.directoryStart_of_join hjoin hroot]

end Resolver

namespace Engine

variable {engine : Engine} {extract : Bool} {filter : String → Bool} {source : String}

/-! ## What the targets resolve to -/

/-- The question that a directive with nothing but a target asks. -/
def bareReference (source target : String) : Reference :=
  ⟨(bare target).target, (bare target).label, (bare target).secondary, source⟩

section Resolve

variable {documents : DocumentSet} {target key : String}

theorem isRemote_bareReference (h : isRemoteTarget target = false) :
    (bareReference source target).isRemote = false := by
  rw [Reference.isRemote, bareReference, target_bare, h]

theorem joined?_bareReference : (bareReference source target).joined? = Key.join source target := by
  rw [Reference.joined?, bareReference, target_bare]

theorem localKey?_bareReference (hlocal : isRemoteTarget target = false)
    (hjoin : Key.join source target = some key) :
    (bareReference source target).localKey? = if key = "" then none else some key := by
  rw [Reference.localKey?, isRemote_bareReference hlocal, joined?_bareReference, hjoin]
  by_cases hroot : key = "" <;> simp [hroot]

/-- A directory is no document. -/
theorem resolveExact_directory (hlocal : isRemoteTarget target = false)
    (hjoin : Key.join source target = some key)
    (hfree : key ≠ "" → ∀ k ∈ Resolver.candidates key, k ∉ documents.keys) :
    Resolver.resolveExact documents extract (bareReference source target) = .ok none := by
  unfold Resolver.resolveExact
  rw [localKey?_bareReference hlocal hjoin]
  by_cases hroot : key = ""
  · rw [if_pos hroot]
  · have hfind : (Resolver.candidates key).find? documents.contains = none := by
      refine List.find?_eq_none.mpr ?_
      intro k hk hcontains
      exact hfree hroot k hk (KeyMap.contains_iff.mp hcontains)
    rw [if_neg hroot]
    simp only [hfind]

theorem resolveFolder_directory (hlocal : isRemoteTarget target = false)
    (hjoin : Key.join source target = some key)
    (hmembers : Resolver.members documents filter key ≠ []) :
    Resolver.resolveFolder documents extract filter (bareReference source target) =
      (Resolver.fragments documents extract source
        (Resolver.members documents filter key)).map fun fs => some ⟨"folder", fs⟩ := by
  unfold Resolver.resolveFolder
  rw [isRemote_bareReference hlocal, joined?_bareReference, hjoin]
  dsimp only
  rw [Resolver.folderKeys_eq_members hjoin]
  cases hkeys : Resolver.members documents filter key with
  | nil => exact absurd hkeys hmembers
  | cons first keys => rfl

/-- A slash and the key of a document denote that document. -/
theorem resolveExact_member (hnormalized : Key.Normalized key) {document : Document}
    (hdocument : documents.get? key = some document) :
    Resolver.resolveExact documents extract (bareReference source ("/" ++ key)) =
      (document.fragment extract source key).map fun f => some ⟨"exact", [f]⟩ := by
  refine Resolver.resolveExact_of_localKey? ?_ hdocument
  rw [localKey?_bareReference (Key.isRemoteTarget_rooted hnormalized)
    (Key.join_rooted hnormalized source), if_neg hnormalized.1]

end Resolve

/-! ## One behind the other -/

section Row

variable {expand : Expander} {path : List String} {g : Gathered} {answer : String × Gathered}
  {d : Directive}

section Fragments

variable {resolver : String} {fragment : Fragment} {fragments : List Fragment}

theorem substituteAll_cons_eq_ok :
    substituteAll engine expand path source d resolver (fragment :: fragments) g = .ok answer ↔
      ∃ here behind, substitute engine expand path source d resolver fragment g = .ok here ∧
        substituteAll engine expand path source d resolver fragments here.2 = .ok behind ∧
        answer = (here.1 ++ behind.1, behind.2) := by
  rw [substituteAll]
  exact bind_bind_pure_eq_ok

theorem substituteAll_singleton_eq_ok :
    substituteAll engine expand path source d resolver [fragment] g = .ok answer ↔
      substitute engine expand path source d resolver fragment g = .ok answer := by
  rw [substituteAll_cons_eq_ok]
  constructor
  · rintro ⟨here, behind, hhere, hbehind, rfl⟩
    cases hbehind
    simpa using hhere
  · intro h
    exact ⟨answer, _, h, rfl, by simp⟩

end Fragments

section Parts

variable {gap tail : List Char} {parts : List (List Char × Directive)}

theorem replaceAll_cons_eq_ok :
    replaceAll engine expand path source tail ((gap, d) :: parts) g = .ok answer ↔
      ∃ here behind, replace engine expand path source d g = .ok here ∧
        replaceAll engine expand path source tail parts here.2 = .ok behind ∧
        answer = (String.ofList gap ++ here.1 ++ behind.1, behind.2) := by
  rw [replaceAll]
  exact bind_bind_pure_eq_ok

theorem replaceAll_singleton_eq_ok :
    replaceAll engine expand path source [] [([], d)] g = .ok answer ↔
      replace engine expand path source d g = .ok answer := by
  rw [replaceAll_cons_eq_ok]
  constructor
  · rintro ⟨here, behind, hhere, hbehind, rfl⟩
    cases hbehind
    simpa using hhere
  · intro h
    exact ⟨answer, _, h, rfl, by simp⟩

end Parts

end Row

/-! ## Expansion -/

section Expand

variable (hchain : engine.chain = [.exact extract, .folder extract filter])
  {expand : Expander} {path : List String} {g : Gathered} {answer : String × Gathered}

/-- Without the details in comments, the text for a fragment does not depend on the directive. -/
theorem substitute_eq_ok_of_not_verbose (hverbose : engine.options.verbose = false)
    {d d' : Directive} {resolver resolver' : String} {fragment : Fragment}
    (h : substitute engine expand path source d resolver fragment g = .ok answer) :
    substitute engine expand path source d' resolver' fragment g = .ok answer := by
  have hmarker : ∀ key, engine.marker source d.target resolver key =
      engine.marker source d'.target resolver' key := by
    intro key
    simp [marker, hverbose]
  unfold substitute at h ⊢
  cases hkey : fragment.key with
  | none =>
    rw [hkey] at h
    exact h
  | some key =>
    simp only [hkey, hmarker] at h ⊢
    split at h
    · exact nomatch h
    · next hpath => rwa [if_neg hpath]

/-- Directives in a row come to what is put in their places. -/
theorem expand_join_written_eq_ok (hpermalink : engine.options.permalink = false)
    {targets : List String} (h : ∀ t ∈ targets, IsTarget t) {e : Expansion} :
    engine.expand source (String.join (targets.map written)) = .ok e ↔
      ∃ answer, replaceAll engine engine.expandFully [source] source []
          (targets.map fun target => ([], bare target)) .empty = .ok answer ∧
        e = ⟨answer.1, answer.2.tree, answer.2.resolved⟩ := by
  have hscanned : ∀ content, engine.scanned source content = content := by
    intro content
    simp [scanned, hpermalink]
  unfold expand
  rw [bind_eq_ok, expandFully_eq_replaceAll]
  simp only [outline, hscanned, Outline.ofText_join_written h]
  refine exists_congr fun answer => and_congr_right fun _ => ?_
  exact ⟨fun h => (Except.ok.inj h).symm, fun h => congrArg Except.ok h.symm⟩

include hchain

section Directory

variable {target directory : String} (hlocal : isRemoteTarget target = false)
  (hjoin : Key.join source target = some directory)
  (hfree : directory ≠ "" → ∀ key ∈ Resolver.candidates directory, key ∉ engine.documents.keys)
  (hmembers : Resolver.members engine.documents filter directory ≠ [])

include hlocal hjoin hfree hmembers

/-- A directory resolves to the fragments of its members. -/
theorem resolve_directory :
    engine.resolve source (bare target) =
      (Resolver.fragments engine.documents extract source
        (Resolver.members engine.documents filter directory)).map
        fun fragments => some ⟨"folder", fragments⟩ := by
  show Resolver.resolveChain engine.files engine.documents (bareReference source target)
    engine.chain = _
  rw [hchain, Resolver.resolveChain, Resolver.resolve, resolveExact_directory hlocal hjoin hfree]
  dsimp only
  rw [Resolver.resolveChain, Resolver.resolve, resolveFolder_directory hlocal hjoin hmembers]
  cases Resolver.fragments engine.documents extract source
    (Resolver.members engine.documents filter directory) <;> rfl

/-- A directory is replaced by the fragments of its members in a row. -/
theorem replace_directory_eq_ok :
    replace engine expand path source (bare target) g = .ok answer ↔
      ∃ fragments, Resolver.fragments engine.documents extract source
          (Resolver.members engine.documents filter directory) = .ok fragments ∧
        substituteAll engine expand path source (bare target) "folder" fragments g
          = .ok answer := by
  unfold replace
  rw [resolve_directory hchain hlocal hjoin hfree hmembers]
  cases Resolver.fragments engine.documents extract source
    (Resolver.members engine.documents filter directory) with
  | error error => simp [Except.map, Except.mapError, bind, Except.bind]
  | ok fragments => simp [Except.map, Except.mapError, bind, Except.bind]

end Directory

/-- A rooted key resolves to the fragment of the document there. -/
theorem resolve_member {key : String} (hnormalized : Key.Normalized key) {document : Document}
    (hdocument : engine.documents.get? key = some document) :
    engine.resolve source (bare ("/" ++ key)) =
      (document.fragment extract source key).map fun fragment => some ⟨"exact", [fragment]⟩ := by
  show Resolver.resolveChain engine.files engine.documents (bareReference source ("/" ++ key))
    engine.chain = _
  rw [hchain, Resolver.resolveChain, Resolver.resolve, resolveExact_member hnormalized hdocument]
  cases document.fragment extract source key <;> rfl

/-- A member is replaced by its fragment, as any directive would have it. -/
theorem replace_member_eq_ok (hverbose : engine.options.verbose = false) {key : String}
    (hnormalized : Key.Normalized key) {document : Document}
    (hdocument : engine.documents.get? key = some document) (d : Directive) (resolver : String) :
    replace engine expand path source (bare ("/" ++ key)) g = .ok answer ↔
      ∃ fragment, document.fragment extract source key = .ok fragment ∧
        substitute engine expand path source d resolver fragment g = .ok answer := by
  unfold replace
  rw [resolve_member hchain hnormalized hdocument]
  cases document.fragment extract source key with
  | error error => simp [Except.map, Except.mapError, bind, Except.bind]
  | ok fragment =>
    simp only [Except.map, Except.mapError, bind, Except.bind, Except.ok.injEq, exists_eq_left']
    rw [substituteAll_singleton_eq_ok]
    exact ⟨substitute_eq_ok_of_not_verbose hverbose, substitute_eq_ok_of_not_verbose hverbose⟩

/-- Members in a row come to what their fragments come to in the place of any directive. -/
theorem replaceAll_members_eq_ok (hverbose : engine.options.verbose = false) (d : Directive)
    (resolver : String) {keys : List String}
    (hkeys : ∀ key ∈ keys, Key.Normalized key ∧ key ∈ engine.documents.keys) :
    replaceAll engine expand path source []
        (keys.map fun key => ([], bare ("/" ++ key))) g = .ok answer ↔
      ∃ fragments, Resolver.fragments engine.documents extract source keys = .ok fragments ∧
        substituteAll engine expand path source d resolver fragments g = .ok answer := by
  induction keys generalizing g answer with
  | nil => simp [replaceAll, substituteAll, Resolver.fragments, pure, Except.pure]
  | cons key keys ih =>
    obtain ⟨⟨hnormalized, hkey⟩, hothers⟩ := List.forall_mem_cons.mp hkeys
    obtain ⟨document, hdocument⟩ := KeyMap.mem_keys_iff.mp hkey
    rw [List.map_cons, replaceAll_cons_eq_ok]
    constructor
    · rintro ⟨here, behind, hhere, hbehind, rfl⟩
      obtain ⟨fragment, hfragment, hhere⟩ :=
        (replace_member_eq_ok hchain hverbose hnormalized hdocument d resolver).mp hhere
      obtain ⟨fragments, hfragments, hbehind⟩ := (ih hothers).mp hbehind
      refine ⟨fragment :: fragments,
        (Resolver.fragments_cons_eq_ok hdocument).mpr ⟨_, _, hfragment, hfragments, rfl⟩, ?_⟩
      exact substituteAll_cons_eq_ok.mpr ⟨here, behind, hhere, hbehind, by simp⟩
    · rintro ⟨fragments, hfragments, h⟩
      obtain ⟨fragment, rest, hfragment, hrest, rfl⟩ :=
        (Resolver.fragments_cons_eq_ok hdocument).mp hfragments
      obtain ⟨here, behind, hhere, hbehind, rfl⟩ := substituteAll_cons_eq_ok.mp h
      refine ⟨here, behind, ?_, (ih hothers).mpr ⟨rest, hrest, hbehind⟩, by simp⟩
      exact (replace_member_eq_ok hchain hverbose hnormalized hdocument d resolver).mpr
        ⟨fragment, hfragment, hhere⟩

/-- A directive that names a directory comes to the same as directives for its members in a row:
what one of the two texts expands to, the other one expands to as well. The target is neither a
document itself nor without the suffix, the directory has members, and all of them can stand in a
directive. -/
theorem expand_directory_eq_members (hpermalink : engine.options.permalink = false)
    (hverbose : engine.options.verbose = false)
    (hnormalized : ∀ key ∈ engine.documents.keys, Key.Normalized key)
    {target directory : String} (htarget : IsTarget target)
    (hlocal : isRemoteTarget target = false) (hjoin : Key.join source target = some directory)
    (hfree : directory ≠ "" → directory ∉ engine.documents.keys ∧
      directory ++ Key.markdownSuffix ∉ engine.documents.keys)
    (hmembers : Resolver.members engine.documents filter directory ≠ [])
    (htargets : ∀ key ∈ Resolver.members engine.documents filter directory, IsTarget key)
    (e : Expansion) :
    engine.expand source (":[](" ++ target ++ ")") = .ok e ↔
      engine.expand source (String.join
        ((Resolver.members engine.documents filter directory).map fun key =>
          ":[](/" ++ key ++ ")")) = .ok e := by
  have hcandidates : directory ≠ "" →
      ∀ k ∈ Resolver.candidates directory, k ∉ engine.documents.keys := by
    intro hroot
    simpa [Resolver.candidates] using hfree hroot
  have hkeys : ∀ key ∈ Resolver.members engine.documents filter directory,
      Key.Normalized key ∧ key ∈ engine.documents.keys := by
    intro key hkey
    have hmem := (List.mem_filter.mp hkey).1
    exact ⟨hnormalized key hmem, hmem⟩
  have hrooted : ∀ t ∈ (Resolver.members engine.documents filter directory).map ("/" ++ ·),
      IsTarget t := by
    intro t ht
    obtain ⟨key, hkey, rfl⟩ := List.mem_map.mp ht
    exact isTarget_rooted (htargets key hkey)
  have hrow : ((Resolver.members engine.documents filter directory).map fun key =>
      ":[](/" ++ key ++ ")") =
        ((Resolver.members engine.documents filter directory).map ("/" ++ ·)).map written := by
    rw [List.map_map]
    exact List.map_congr_left fun key _ => (written_rooted key).symm
  have hsingle : ":[](" ++ target ++ ")" = String.join ([target].map written) := by
    simp [written]
  rw [hsingle, hrow, expand_join_written_eq_ok hpermalink (by simpa using htarget),
    expand_join_written_eq_ok hpermalink hrooted, List.map_map]
  refine exists_congr fun answer => and_congr_left fun _ => ?_
  -- both come to the fragments of the members, put in the place of the first directive
  rw [Function.comp_def, replaceAll_members_eq_ok hchain hverbose (bare target) "folder" hkeys,
    ← replace_directory_eq_ok hchain hlocal hjoin hcandidates hmembers]
  rw [List.map_singleton, replaceAll_singleton_eq_ok]

end Expand

/-- A directory with two members, one with front matter and one that leads on, and a key that the
filter keeps out. -/
theorem expand_directory_eq_members_two :
    let documents : DocumentSet := .ofList
      [("d/a.md", ⟨"---\nt: true\n---\nA", .empty⟩), ("d/b.md", ⟨":[](../x.md)", .empty⟩),
        ("d/c.txt", ⟨"C", .empty⟩), ("x.md", ⟨"X", .empty⟩)]
    let engine : Engine := ⟨default, documents,
      [.exact true, .folder true fun key => key ≠ "d/c.txt"], { comments := true }⟩
    let e : Expansion :=
      ⟨"<!-- transclude: d/a.md -->\nA<!-- transclude: d/b.md -->\n<!-- transclude: x.md -->\nX",
        ⟨[("d", .map [("a.md", .map [("t", .bool true)])])], by decide⟩,
        ["d/a.md", "d/b.md", "x.md"]⟩
    (∀ key ∈ documents.keys, Key.Normalized key) ∧ IsTarget "./d" ∧ isRemoteTarget "./d" = false ∧
    Key.join "i.md" "./d" = some "d" ∧ "d" ∉ documents.keys ∧
    "d" ++ Key.markdownSuffix ∉ documents.keys ∧
    Resolver.members documents (fun key => key ≠ "d/c.txt") "d" = ["d/a.md", "d/b.md"] ∧
    engine.expand "i.md" ":[](./d)" = .ok e ∧
    engine.expand "i.md" ":[](/d/a.md):[](/d/b.md)" = .ok e := by
  intro documents engine e
  have hnormalized : ∀ key ∈ documents.keys, Key.Normalized key := by decide +kernel
  have htarget : IsTarget "./d" := by decide +kernel
  have hlocal : isRemoteTarget "./d" = false := by decide +kernel
  have hjoin : Key.join "i.md" "./d" = some "d" := by decide +kernel
  have hfree : "d" ∉ documents.keys := by decide +kernel
  have hfree' : "d" ++ Key.markdownSuffix ∉ documents.keys := by decide +kernel
  have hchain : engine.chain = [.exact true, .folder true fun key => key ≠ "d/c.txt"] := rfl
  have hmembers : Resolver.members engine.documents (fun key => key ≠ "d/c.txt") "d" =
      ["d/a.md", "d/b.md"] := by decide +kernel
  have he : engine.expand "i.md" ":[](./d)" = .ok e := by decide +kernel
  have hrow := expand_directory_eq_members hchain rfl rfl hnormalized htarget hlocal hjoin
    (fun _ => ⟨hfree, hfree'⟩) (by rw [hmembers]; decide) (by rw [hmembers]; decide +kernel) e
  rw [hmembers] at hrow
  exact ⟨hnormalized, htarget, hlocal, hjoin, hfree, hfree', hmembers, he, hrow.mp he⟩

end Engine

end Transclusion
