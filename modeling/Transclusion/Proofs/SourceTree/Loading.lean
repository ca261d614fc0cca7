import Transclusion.Proofs.FilePath.Ancestors
import Transclusion.Proofs.FileTree.Listing
import Transclusion.Proofs.KeyMap
import Transclusion.Proofs.Results

/-!
# What is loaded

A file is loaded under the key of its path, in place of what has that key already. So all files are
kept if their keys are different.

* `SourceTree.Holds` — a tree holds a file: as a document or as an asset, and not as both;
* `SourceTree.agrees_of_insertAll`, `SourceTree.holds_of_insertAll` — what loading some files
  changes, and that it keeps them;
* `SourceTree.keys_perm_of_insertAll` — which keys there are then;
* `SourceTree.IsSource`, `SourceTree.isSource_of_mem`, `SourceTree.nodup_relativeTo` — the paths of
  the files of a directory.
-/

namespace Transclusion.SourceTree

open FilePath (descend)

variable {tree after : SourceTree} {files : FileTree} {directory key other : String}
  {bytes : ByteArray} {paths : List String}

/-! ## Files in a tree -/

/-- A tree holds the file with these bytes under a key: a text as a document, and other bytes as an
asset. -/
inductive Holds (tree : SourceTree) (key : String) (bytes : ByteArray) : Prop
  | document {text : String} {document : Document} (htext : String.fromUTF8? bytes = some text)
      (hdocument : documentOf key text = .ok document)
      (here : tree.documents.get? key = some document) (notThere : tree.assets.get? key = none)
  | asset (hbytes : String.fromUTF8? bytes = none) (here : tree.assets.get? key = some bytes)
      (notThere : tree.documents.get? key = none)

/-- Nothing has the key. -/
def Lacks (tree : SourceTree) (key : String) : Prop :=
  tree.documents.get? key = none ∧ tree.assets.get? key = none

/-- The keys of the documents, then those of the assets. -/
def keys (tree : SourceTree) : List String :=
  tree.documents.keys ++ tree.assets.keys

theorem mem_keys_iff : key ∈ tree.keys ↔ ¬ tree.Lacks key := by
  rw [keys, List.mem_append, Lacks, KeyMap.get?_eq_none_iff, KeyMap.get?_eq_none_iff, not_and_or,
    not_not, not_not]

theorem length_keys (tree : SourceTree) :
    tree.keys.length = tree.documents.size + tree.assets.size := by
  rw [keys, List.length_append, KeyMap.length_keys, KeyMap.length_keys]

/-- Both trees have the same under a key. -/
def Agrees (tree after : SourceTree) (key : String) : Prop :=
  after.documents.get? key = tree.documents.get? key ∧
    after.assets.get? key = tree.assets.get? key

theorem Agrees.trans {between : SourceTree} (h : Agrees tree between key)
    (h' : Agrees between after key) : Agrees tree after key :=
  ⟨h'.1.trans h.1, h'.2.trans h.2⟩

theorem Agrees.lacks_iff (h : Agrees tree after key) : after.Lacks key ↔ tree.Lacks key := by
  rw [Lacks, Lacks, h.1, h.2]

theorem Agrees.holds (h : Agrees tree after key) (hholds : tree.Holds key bytes) :
    after.Holds key bytes := by
  cases hholds with
  | document htext hdocument here notThere =>
    exact .document htext hdocument (h.1.trans here) (h.2.trans notThere)
  | asset hbytes here notThere => exact .asset hbytes (h.2.trans here) (h.1.trans notThere)

/-! ## Loading files -/

theorem insert_eq_ok :
    tree.insert key bytes = .ok after ↔
      (∃ text document, String.fromUTF8? bytes = some text ∧ documentOf key text = .ok document ∧
        after = { tree with documents := tree.documents.insert key document }) ∨
      (String.fromUTF8? bytes = none ∧
        after = { tree with assets := tree.assets.insert key bytes }) := by
  rw [SourceTree.insert]
  cases hbytes : String.fromUTF8? bytes with
  | none => simp [eq_comm]
  | some text =>
    dsimp only
    rw [bind_eq_ok]
    constructor
    · rintro ⟨document, hdocument, ⟨⟩⟩
      exact .inl ⟨text, document, rfl, hdocument, rfl⟩
    · rintro (⟨_, document, ⟨⟩, hdocument, rfl⟩ | ⟨⟨⟩, -⟩)
      exact ⟨document, hdocument, rfl⟩

theorem agrees_of_insert (h : tree.insert key bytes = .ok after) (hne : other ≠ key) :
    Agrees tree after other := by
  rcases insert_eq_ok.mp h with ⟨text, document, -, -, rfl⟩ | ⟨-, rfl⟩
  · exact ⟨KeyMap.get?_insert_of_ne _ hne _, rfl⟩
  · exact ⟨rfl, KeyMap.get?_insert_of_ne _ hne _⟩

theorem holds_of_insert (h : tree.insert key bytes = .ok after) (hlacks : tree.Lacks key) :
    after.Holds key bytes := by
  rcases insert_eq_ok.mp h with ⟨text, document, htext, hdocument, rfl⟩ | ⟨hbytes, rfl⟩
  · exact .document htext hdocument (KeyMap.get?_insert_self ..) hlacks.2
  · exact .asset hbytes (KeyMap.get?_insert_self ..) hlacks.1

theorem insertAll_cons_eq_ok {path : String} :
    insertAll files directory tree (path :: paths) = .ok after ↔
      ∃ bytes next, files.read path = .ok bytes ∧
        tree.insert (keyOf directory path) bytes = .ok next ∧
        insertAll files directory next paths = .ok after := by
  rw [insertAll]
  cases files.read path with
  | error error => simp
  | ok bytes => simp [bind_eq_ok]

/-- Loading some files changes what their keys have, and nothing else. -/
theorem agrees_of_insertAll (h : insertAll files directory tree paths = .ok after)
    (hnot : other ∉ paths.map (keyOf directory)) : Agrees tree after other := by
  induction paths generalizing tree with
  | nil =>
    cases h
    exact ⟨rfl, rfl⟩
  | cons path paths ih =>
    rw [List.map_cons, List.mem_cons, not_or] at hnot
    obtain ⟨hne, hnot⟩ := hnot
    obtain ⟨bytes, next, -, hinsert, hrest⟩ := insertAll_cons_eq_ok.mp h
    exact (agrees_of_insert hinsert hne).trans (ih hrest hnot)

/-- Files with keys of their own are all held in the end. -/
theorem holds_of_insertAll (h : insertAll files directory tree paths = .ok after)
    (hnodup : (paths.map (keyOf directory)).Nodup)
    (hlacks : ∀ key ∈ paths.map (keyOf directory), tree.Lacks key) :
    ∀ path ∈ paths, ∃ bytes, files.read path = .ok bytes ∧
      after.Holds (keyOf directory path) bytes := by
  induction paths generalizing tree with
  | nil => exact nofun
  | cons path paths ih =>
    obtain ⟨hfirst, hnodup⟩ := List.nodup_cons.mp hnodup
    obtain ⟨hfree, hlacks⟩ := List.forall_mem_cons.mp hlacks
    obtain ⟨bytes, next, hread, hinsert, hrest⟩ := insertAll_cons_eq_ok.mp h
    refine List.forall_mem_cons.mpr ⟨⟨bytes, hread, ?_⟩, ih hrest hnodup fun key hkey => ?_⟩
    · exact (agrees_of_insertAll hrest hfirst).holds (holds_of_insert hinsert hfree)
    · have hne : key ≠ keyOf directory path := fun heq => hfirst (heq ▸ hkey)
      exact (agrees_of_insert hinsert hne).lacks_iff.mpr (hlacks key hkey)

theorem lacks_empty (key : String) : empty.Lacks key := ⟨rfl, rfl⟩

/-- Whatever is loaded has the key of one of the files. -/
theorem mem_of_mem_keys (h : insertAll files directory empty paths = .ok after)
    (hkey : key ∈ after.keys) : key ∈ paths.map (keyOf directory) := by
  by_contra hnot
  exact mem_keys_iff.mp hkey ((agrees_of_insertAll h hnot).lacks_iff.mpr (lacks_empty key))

theorem mem_keys_of_holds (h : tree.Holds key bytes) : key ∈ tree.keys := by
  rw [mem_keys_iff]
  rintro ⟨hdocument, hasset⟩
  cases h with
  | document _ _ here => exact nomatch hdocument.symm.trans here
  | asset _ here => exact nomatch hasset.symm.trans here

/-- Files with keys of their own make as many documents and assets. -/
theorem keys_perm_of_insertAll (h : insertAll files directory empty paths = .ok after)
    (hnodup : (paths.map (keyOf directory)).Nodup) :
    after.keys.Perm (paths.map (keyOf directory)) := by
  have hholds := holds_of_insertAll h hnodup fun key _ => lacks_empty key
  have hmem : ∀ key, key ∈ after.keys ↔ key ∈ paths.map (keyOf directory) := by
    refine fun key => ⟨mem_of_mem_keys h, fun hkey => ?_⟩
    obtain ⟨path, hpath, rfl⟩ := List.mem_map.mp hkey
    obtain ⟨bytes, -, hhere⟩ := hholds path hpath
    exact mem_keys_of_holds hhere
  refine (List.perm_ext_iff_of_nodup ?_ hnodup).mpr hmem
  -- no key is in both maps
  refine List.nodup_append.mpr ⟨KeyMap.nodup_keys _, KeyMap.nodup_keys _, ?_⟩
  rintro key hdocument _ hasset rfl
  obtain ⟨path, hpath, rfl⟩ := List.mem_map.mp ((hmem key).mp (List.mem_append_left _ hdocument))
  obtain ⟨bytes, -, hhere⟩ := hholds path hpath
  cases hhere with
  | document _ _ _ notThere => exact KeyMap.get?_eq_none_iff.mp notThere hasset
  | asset _ _ notThere => exact KeyMap.get?_eq_none_iff.mp notThere hdocument

/-! ## Paths of files -/

/-- The names that lead to a file, seen from a directory. -/
def rowOf (directory path : String) : List String :=
  FilePath.parts (FilePath.relativeTo directory path)

/-- Names lead from a directory through others to a file. -/
structure IsSource (files : FileTree) (directory path : String) : Prop where
  ne_nil : rowOf directory path ≠ []
  isName : ∀ name ∈ rowOf directory path, Key.IsName name.toList
  descend_eq : descend directory (rowOf directory path) = path
  file : files.isDirectory path = false
  above : ∀ front, front <+: rowOf directory path → front ≠ rowOf directory path →
    files.isDirectory (descend directory front) = true

theorem sources_eq_ok {options : LoadOptions}
    (h : sources files directory options = .ok paths) :
    ∃ leaveOut, paths = files.filesBelow leaveOut directory := by
  obtain ⟨excluded, hexcluded, -⟩ := bind_eq_ok.mp h
  rw [sources_of_excludeRules hexcluded] at h
  exact ⟨_, (Except.ok.inj h).symm⟩

theorem isSource_of_mem {options : LoadOptions} {path : String} (hwell : files.WellFormed)
    (hsources : sources files directory options = .ok paths) (hmem : path ∈ paths) :
    IsSource files directory path := by
  obtain ⟨leaveOut, rfl⟩ := sources_eq_ok hsources
  obtain ⟨events, after, hwalks⟩ := files.exists_walks leaveOut [] [(directory, true)]
  obtain ⟨front, name, rfl, hfile, hshown, -⟩ :=
    hwalks.exists_found ((FileTree.mem_filesBelow hwalks).mp hmem)
  have hnames := hshown.isName hwell
  have hrow : rowOf directory (descend directory (front ++ [name])) = front ++ [name] := by
    rw [rowOf, FilePath.relativeTo_descend (by simp) hnames,
      FilePath.parts_ofParts_of_isName (by simp) hnames]
  refine ⟨by rw [hrow]; simp, by rwa [hrow], by rw [hrow], hfile, fun before hbefore hne => ?_⟩
  rw [hrow] at hbefore hne
  obtain ⟨rest, hrest⟩ := hbefore
  cases rest with
  | nil => exact absurd (by simpa using hrest) hne
  | cons next rest => exact (hshown before next ⟨rest, by simpa using hrest⟩).isDirectory

/-- The path of a file, seen from the directory, leads along the same names from another one. -/
theorem IsSource.join_eq {path : String} (h : IsSource files directory path)
    (destination : String) :
    FilePath.join destination (FilePath.relativeTo directory path) =
      descend destination (rowOf directory path) := by
  rw [← FilePath.join_ofParts h.ne_nil h.isName, rowOf, FilePath.ofParts_parts]

/-- Seen from the directory, files have different paths. -/
theorem nodup_relativeTo {options : LoadOptions} (hwell : files.WellFormed)
    (hsources : sources files directory options = .ok paths) :
    (paths.map (FilePath.relativeTo directory)).Nodup := by
  obtain ⟨leaveOut, rfl⟩ := sources_eq_ok hsources
  have hnodup : (files.filesBelow leaveOut directory).Nodup := by
    refine (FileTree.pairwise_filesBelow hwell leaveOut directory).imp ?_
    rintro a b hlt rfl
    exact List.lt_irrefl _ hlt
  refine hnodup.map_on fun a ha b hb heq => ?_
  rw [← (isSource_of_mem hwell hsources ha).descend_eq,
    ← (isSource_of_mem hwell hsources hb).descend_eq, rowOf, rowOf, heq]

end Transclusion.SourceTree
