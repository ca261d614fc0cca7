import Transclusion.Proofs.Expansion.Folder
import Transclusion.Proofs.Permalink
import Transclusion.Proofs.Resolver.Lookup
import Transclusion.Proofs.Text.ByteOrder

/-!
# The members of a directory

The walk through the keys of a directory begins at the first key that is not below it and ends at
the first that does not lie in it. It sees no key twice and overlooks none, whatever other keys
stand around those of the directory, and a resolver by directory answers with what it sees.

* `KeyMap.LiesIn` — what the keys in a directory are;
* `KeyMap.mem_keysUnder_iff`, `KeyMap.pairwise_keysUnder` — the walk finds them, in order;
* `Resolver.FragmentsOf` — one fragment for each of some keys, in their order, and
  `Resolver.lookUp_eq_ok_some_iff` — a resolver that looks keys up answers with these;
* `Resolver.membersOf` — the keys that a resolver by directory looks up;
* `Resolver.folder_answers_members` — all of this.
-/

namespace Transclusion

namespace KeyMap

variable {α : Type}

/-- The key starts with the name of the directory, without the slashes that it may end in, and one
slash. Every key lies in the directory without a name. -/
def LiesIn (directory key : String) : Prop :=
  directory = "" ∨ ∃ name slashes, directory.toList = name ++ slashes ∧
    name.getLast? ≠ some '/' ∧ (∀ c ∈ slashes, c = '/') ∧ name ++ ['/'] <+: key.toList

theorem directoryStart_eq {directory : String} (hne : directory ≠ "") {name slashes : List Char}
    (hdirectory : directory.toList = name ++ slashes) (hname : name.getLast? ≠ some '/')
    (hslashes : ∀ c ∈ slashes, c = '/') : directoryStart directory = name ++ ['/'] := by
  have hpass : ∀ c ∈ slashes.reverse, decide (c = '/') = true := fun c hc =>
    decide_eq_true (hslashes c (List.mem_reverse.mp hc))
  have hstop : ∀ c ∈ name.reverse.head?, decide (c = '/') = false := fun c hc => by
    rw [List.head?_reverse] at hc
    exact decide_eq_false fun heq => hname (heq ▸ hc)
  rw [directoryStart, if_neg hne, hdirectory, List.reverse_append,
    Directive.dropWhile_run hpass hstop, List.reverse_reverse]

theorem liesIn_iff {directory key : String} :
    LiesIn directory key ↔ directoryStart directory <+: key.toList := by
  by_cases hempty : directory = ""
  · simp [LiesIn, hempty, directoryStart]
  · constructor
    · rintro (heq | ⟨name, slashes, hdirectory, hname, hslashes, hprefix⟩)
      · exact absurd heq hempty
      · rwa [directoryStart_eq hempty hdirectory hname hslashes]
    · intro hprefix
      obtain ⟨slashes, hslashes, hdirectory⟩ := Permalink.exists_trailing_slashes directory
      have hname := Permalink.getLast?_withoutTrailingSlashes directory
      rw [directoryStart_eq hempty hdirectory hname hslashes] at hprefix
      exact .inr ⟨_, slashes, hdirectory, hname, hslashes, hprefix⟩

/-- The walk through a directory finds the keys that lie in it. -/
theorem mem_keysUnder_iff {m : KeyMap α} {directory key : String} :
    key ∈ m.keysUnder directory ↔ key ∈ m.keys ∧ LiesIn directory key := by
  rw [keysUnder_eq_filter, List.mem_filter, List.isPrefixOf_iff_prefix, liesIn_iff]

/-- It finds them in key order, and none of them twice. -/
theorem pairwise_keysUnder (m : KeyMap α) (directory : String) :
    (m.keysUnder directory).Pairwise (· < ·) := by
  rw [keysUnder_eq_filter]
  exact m.pairwise_keys.filter _

end KeyMap

namespace Resolver

variable {documents : DocumentSet} {extract : Bool} {source : String} {r : Reference}

/-- The fragments are those of the documents at some keys, one for each, in the order of the keys.
-/
def FragmentsOf (documents : DocumentSet) (extract : Bool) (source : String) (keys : List String)
    (fs : List Fragment) : Prop :=
  List.Forall₂ (fun key f => f.key = some key ∧ ∃ document, documents.get? key = some document ∧
    document.fragment extract source key = .ok f) keys fs

theorem fragments_eq_ok_iff {keys : List String} (hkeys : ∀ key ∈ keys, key ∈ documents.keys)
    {fs : List Fragment} :
    fragments documents extract source keys = .ok fs ↔
      FragmentsOf documents extract source keys fs := by
  induction keys generalizing fs with
  | nil =>
    rw [FragmentsOf, List.forall₂_nil_left_iff]
    exact ⟨fun h => (Except.ok.inj h).symm, fun h => h ▸ rfl⟩
  | cons key keys ih =>
    obtain ⟨hfirst, hothers⟩ := List.forall_mem_cons.mp hkeys
    obtain ⟨document, hdocument⟩ := KeyMap.mem_keys_iff.mp hfirst
    rw [fragments_cons_eq_ok hdocument, FragmentsOf, List.forall₂_cons_left_iff]
    constructor
    · rintro ⟨f, rest, hf, hrest, rfl⟩
      exact ⟨f, rest, ⟨Document.key_of_fragment hf, document, hdocument, hf⟩,
        (ih hothers).mp hrest, rfl⟩
    · rintro ⟨f, rest, ⟨-, document', hdocument', hf⟩, hrest, rfl⟩
      cases hdocument.symm.trans hdocument'
      exact ⟨f, rest, hf, (ih hothers).mpr hrest, rfl⟩

/-- A resolver leaves a reference alone if it looks no key up for it. -/
theorem lookUp_eq_ok_none_iff {resolver : Resolver} :
    resolver.lookUp documents r = .ok none ↔ resolver.answerKeys documents r = [] := by
  rw [lookUp]
  split
  · next hnone => simp [hnone]
  · next hsome =>
    refine iff_of_false (fun h => ?_) hsome
    obtain ⟨fs, -, heq⟩ := map_eq_ok.mp h
    exact Option.some_ne_none _ heq

/-- It answers with the fragments of the keys it looks up. -/
theorem lookUp_eq_ok_some_iff {resolver : Resolver} {resolution : Resolution} :
    resolver.lookUp documents r = .ok (some resolution) ↔
      resolver.answerKeys documents r ≠ [] ∧ ∃ fs,
        FragmentsOf documents resolver.extracts r.source (resolver.answerKeys documents r) fs ∧
        resolution = ⟨resolver.name, fs⟩ := by
  rw [lookUp]
  split
  · next hnone => simp [hnone]
  · next hsome =>
    rw [map_eq_ok, and_iff_right hsome]
    refine exists_congr fun fs => ?_
    rw [fragments_eq_ok_iff fun key => mem_keys_of_answerKeys, Option.some.injEq, eq_comm]

/-- The members of the directory that a reference denotes; none if it is a URL, or leads above the
root. -/
def membersOf (documents : DocumentSet) (filter : String → Bool) (r : Reference) : List String :=
  if r.isRemote then [] else r.joined?.elim [] (members documents filter)

theorem answerKeys_folder (extract : Bool) (filter : String → Bool) :
    answerKeys documents r (folder extract filter) = membersOf documents filter r := by
  rw [answerKeys, membersOf]
  split
  · rfl
  · cases hjoin : r.joined? with
    | none => rfl
    | some directory => exact folderKeys_eq_members hjoin

/-- A set is in the order of the bytes of its keys. The walk through a directory finds exactly the
keys that lie in it, in this order and none twice. A resolver by directory leaves a reference alone
exactly if the directory has no members. Otherwise it answers with one fragment for each member, in
order, unless there is no fragment of one of them: then the first of these is to blame. -/
theorem folder_answers_members (documents : DocumentSet) :
    (documents.keys.Pairwise fun a b => a.toUTF8.data.toList < b.toUTF8.data.toList) ∧
    (∀ directory, (documents.keysUnder directory).Pairwise (· < ·) ∧
      ∀ key, key ∈ documents.keysUnder directory ↔
        key ∈ documents.keys ∧ KeyMap.LiesIn directory key) ∧
    ∀ files extract filter r,
      let answer := (folder extract filter).resolve files documents r
      let keys := membersOf documents filter r
      (answer = .ok none ↔ keys = []) ∧
      (∀ resolution, answer = .ok (some resolution) ↔ keys ≠ [] ∧
        ∃ fs, FragmentsOf documents extract r.source keys fs ∧ resolution = ⟨"folder", fs⟩) ∧
      ∀ e, answer = .error e ↔ ∃ front key back document, keys = front ++ key :: back ∧
        (∃ fs, FragmentsOf documents extract r.source front fs) ∧
        documents.get? key = some document ∧ document.fragment extract r.source key = .error e := by
  refine ⟨documents.pairwise_keys.imp Text.toUTF8_lt_iff.mpr, fun directory =>
    ⟨documents.pairwise_keysUnder directory, fun key => KeyMap.mem_keysUnder_iff⟩, ?_⟩
  intro files extract filter r answer keys
  have hanswer : answer = (folder extract filter).lookUp documents r :=
    resolveFolder_eq_lookUp extract filter
  have hkeys : answerKeys documents r (folder extract filter) = keys :=
    answerKeys_folder extract filter
  have hset : ∀ key ∈ keys, key ∈ documents.keys := fun key hkey =>
    mem_keys_of_answerKeys (hkeys ▸ hkey)
  rw [hanswer, ← hkeys]
  refine ⟨lookUp_eq_ok_none_iff, fun resolution => lookUp_eq_ok_some_iff, fun e => ?_⟩
  rw [lookUp_eq_error_iff, fragments_eq_error, hkeys]
  refine exists_congr fun front => exists_congr fun key => exists_congr fun back =>
    exists_congr fun document => and_congr_right fun hsplit => ?_
  have hfront : ∀ key ∈ front, key ∈ documents.keys := fun key hkey =>
    hset key (hsplit ▸ List.mem_append_left _ hkey)
  simp only [fragments_eq_ok_iff hfront]
  rfl

/-- Keys that sort around those of the directory, and one that only starts with its name. -/
example :
    let key := fun (name : String) => (name, (⟨"", .empty⟩ : Document))
    let documents : DocumentSet := KeyMap.ofList
      (["dir", "dir-x", "dir.md", "dir/", "dir/..", "dir/a.md", "dir/é.md", "dir0",
        "dirs/a.md"].map key)
    documents.keysUnder "dir//" = ["dir/", "dir/..", "dir/a.md", "dir/é.md"] := by
  decide +kernel

end Resolver

end Transclusion
