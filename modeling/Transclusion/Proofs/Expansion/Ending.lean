import Mathlib.Data.FinEnum
import Mathlib.Data.Set.Finite.List
import Transclusion.Proofs.Expansion.Depth

/-!
# Expansions that end

Nothing bounds how far a function leads on that is handed in as a resolver. The other resolvers give
the keys of documents and of files, and the path of a file has a limited number of bytes. So they
give finitely many keys, each of which can stand on a path once.

* `FileTree.utf8ByteSize_lt_of_isFile` — the path of a file is short;
* `Resolver.mem_or_isFile_of_resolveChain` — where the keys of fragments come from;
* `Engine.exists_confined` — they are among finitely many;
* `Engine.expand_ne_endless_of_isBuiltIn` — so every expansion comes to its end;
* `Resolver.onward`, `Engine.expand_onward` — a resolver that is handed in need not do so.
-/

namespace Transclusion

/-! ## Short paths -/

/-- There are finitely many texts with less than a given number of bytes. -/
theorem finite_utf8ByteSize_lt (limit : Nat) :
    {text : String | text.utf8ByteSize < limit}.Finite := by
  let bytes (text : String) : List UInt8 := text.toByteArray.data.toList
  have hinjective : bytes.Injective := by
    intro text text' heq
    exact String.toByteArray_inj.mp (ByteArray.ext (Array.toList_inj.mp heq))
  exact (List.finite_length_lt UInt8 limit).preimage hinjective.injOn

theorem FilePath.utf8ByteSize_le_join (root path : String) :
    path.utf8ByteSize ≤ (join root path).utf8ByteSize := by
  unfold join
  split
  · exact Nat.le_refl _
  · split <;> simp only [String.utf8ByteSize_append] <;> omega

/-- No file is found at a long path. -/
theorem FileTree.utf8ByteSize_lt_of_isFile {tree : FileTree} {path : String}
    (h : tree.isFile path) : path.utf8ByteSize < pathLimit := by
  by_contra hlong
  have hfollow : ∃ error, tree.follow true path = .error error := by
    unfold follow
    rw [if_pos (Nat.le_of_not_lt hlong)]
    split
    · exact ⟨_, rfl⟩
    · split <;> exact ⟨_, rfl⟩
  obtain ⟨error, hfollow⟩ := hfollow
  simp only [isFile, node, place, hfollow, Bool.false_eq_true] at h

/-! ## Keys of fragments -/

namespace Resolver

variable {files : FileTree} {documents : DocumentSet} {r : Reference} {chain : List Resolver}

/-- A fragment has the key of a document of the set or of a file. -/
theorem mem_or_isFile_of_resolveChain (hbuiltIn : chain.all isBuiltIn) {resolution : Resolution}
    (h : resolveChain files documents r chain = .ok (some resolution)) {f : Fragment}
    (hf : f ∈ resolution.fragments) {key : String} (hkey : f.key = some key) :
    key ∈ documents.keys ∨ ∃ root, files.isFile (FilePath.join root key) := by
  obtain ⟨resolver, hmem, hresolve⟩ := resolveChain_eq_ok_some h
  by_cases hstays : resolver.staysInSet
  · rcases fragment_of_resolve hstays hresolve hf with ⟨k, document, hget, hfragment⟩ | ⟨hnone, -⟩
    · obtain rfl := Option.some.inj ((Document.key_of_fragment hfragment).symm.trans hkey)
      exact .inl (KeyMap.mem_keys_iff.mpr ⟨document, hget⟩)
    · exact nomatch hnone.symm.trans hkey
  · cases resolver with
    | files root extract missingIsError =>
      obtain ⟨-, k, f', -, -, hfile, hf', rfl⟩ := resolveFile_eq_ok_some hresolve
      obtain rfl := List.mem_singleton.mp hf
      obtain rfl := Option.some.inj (hf'.symm.trans hkey)
      exact .inr ⟨root, hfile⟩
    | custom name answer => exact nomatch List.all_eq_true.mp hbuiltIn _ hmem
    | _ => exact absurd rfl hstays

end Resolver

namespace Engine

variable {engine : Engine}

/-- The keys that a chain gives are among finitely many. -/
theorem exists_confined (hbuiltIn : engine.chain.all Resolver.isBuiltIn) :
    ∃ keys, engine.Confined keys := by
  let short := (finite_utf8ByteSize_lt FileTree.pathLimit).toFinset.toList
  refine ⟨engine.documents.keys ++ short, ?_⟩
  rintro key content d fragment k ⟨-, resolution, hanswer, hfragment⟩ hk
  rcases Resolver.mem_or_isFile_of_resolveChain hbuiltIn hanswer hfragment hk with
    hmem | ⟨root, hfile⟩
  · exact List.mem_append_left _ hmem
  · have hshort : k.utf8ByteSize < FileTree.pathLimit :=
      Nat.lt_of_le_of_lt (FilePath.utf8ByteSize_le_join root k)
        (FileTree.utf8ByteSize_lt_of_isFile hfile)
    exact List.mem_append_right _ (by simpa [short] using hshort)

/-- Without a function that was handed in, every expansion ends. -/
theorem expand_ne_endless_of_isBuiltIn (hbuiltIn : engine.chain.all Resolver.isBuiltIn)
    (key content : String) : engine.expand key content ≠ .error .endless := by
  obtain ⟨keys, hconfined⟩ := exists_confined hbuiltIn
  exact expand_ne_endless hconfined key content

end Engine

/-! ## A chain that leads on -/

/-- A function that answers every reference with one fragment, which has a longer key than the
document it is for and a reference of its own. -/
def Resolver.onward : Resolver :=
  .custom "onward" fun _ r => .ok (some ⟨"onward", [⟨some (r.source ++ "+"), ":[](on)", .empty⟩]⟩)

namespace Engine

variable {engine : Engine}

theorem exists_parts_onward (hpermalink : ¬ engine.options.permalink) (key : String) :
    ∃ part, (engine.outline key ":[](on)").parts = [part] := by
  rw [outline, scanned, if_neg hpermalink]
  exact List.length_eq_one_iff.mp (by decide +kernel)

/-- No depth is enough, as no key on a path is as long as that of the next fragment. -/
theorem pieces_onward (hchain : engine.chain = [.onward]) (hpermalink : ¬ engine.options.permalink)
    {path : List String} {key : String} (hpath : ∀ k ∈ path, k.length ≤ key.length) (depth : Nat) :
    engine.pieces depth path key ":[](on)" = .error .endless := by
  induction depth generalizing path key with
  | zero => rfl
  | succ depth ih =>
    have hlength : (key ++ "+").length = key.length + 1 := String.length_append key "+"
    have hanswer (d : Directive) : engine.resolve key d =
        .ok (some ⟨"onward", [⟨some (key ++ "+"), ":[](on)", .empty⟩]⟩) := by
      rw [resolve, hchain]
      rfl
    have hnew : key ++ "+" ∉ path := by
      intro hmem
      have hle := hpath _ hmem
      omega
    have hbelow : engine.pieces depth (path ++ [key ++ "+"]) (key ++ "+") ":[](on)" =
        .error .endless := by
      refine ih ?_
      simp only [List.mem_append, List.mem_singleton]
      rintro k (hk | rfl)
      · have hle := hpath k hk
        omega
      · exact Nat.le_refl _
    obtain ⟨part, hparts⟩ := exists_parts_onward hpermalink key
    refine contentPieces_eq_error.mpr (collect_eq_error.mpr
      ⟨[], part, [], hparts, ⟨[], rfl⟩, ?_⟩)
    rw [partPieces_eq_error, directivePieces_eq_error]
    refine .inr (.inr ⟨_, hanswer _, collect_eq_error.mpr ⟨[], _, [], rfl, ⟨[], rfl⟩, ?_⟩⟩)
    exact fragmentPieces_eq_error.mpr ⟨_, rfl, .inr ⟨hnew, hbelow⟩⟩

theorem expand_onward (hchain : engine.chain = [.onward]) (hpermalink : ¬ engine.options.permalink)
    (key : String) : engine.expand key ":[](on)" = .error .endless := by
  rw [expand_eq_error, fullPieces_eq_endless_iff]
  exact pieces_onward hchain hpermalink (List.forall_mem_singleton.mpr (Nat.le_refl _))

end Engine

end Transclusion
