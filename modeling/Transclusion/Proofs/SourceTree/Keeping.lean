import Transclusion.Proofs.SourceTree.Loading
import Transclusion.Proofs.SourceTree.Writing

/-!
# Loading and writing all files

* `SourceTree.Keeps` — what is loaded from a directory keeps all its files, and writing it brings
  them back;
* `SourceTree.load_keeps_files_iff` — this is so exactly if no name holds a backslash.

In a key a backslash becomes a slash, though in a name it is a character like any other. So two
files may come to have one key, and the second takes the place of the first. A file alone with its
key is kept, but it is written under another name.
-/

namespace Transclusion

theorem Key.ofPath_of_not_mem {path : String} (h : '\\' ∉ path.toList) :
    Key.ofPath path = path := by
  have hmap : path.toList.map (fun c => if c = '\\' then '/' else c) = path.toList := by
    refine (List.map_congr_left fun c hc => if_neg ?_).trans (List.map_id _)
    rintro rfl
    exact h hc
  rw [Key.ofPath, hmap, String.ofList_toList]

theorem Key.not_mem_ofPath (path : String) : '\\' ∉ (Key.ofPath path).toList := by
  rw [Key.ofPath, String.toList_ofList, List.mem_map]
  rintro ⟨c, -, hc⟩
  split at hc
  · exact absurd hc (by decide)
  · next hne => exact hne hc

namespace SourceTree

open FilePath (descend)
open FileTree (Apart IsFileName Takable Vacant)

variable {files : FileTree} {directory destination key path : String} {options : LoadOptions}
  {paths : List String} {tree : SourceTree} {bytes : ByteArray}

/-! ## What is written for a file -/

/-- What the bytes of a file become when it is loaded and written again: markdown is rendered from
its document, and everything else stays as it is. -/
inductive Rewrites (key : String) (bytes : ByteArray) : ByteArray → Prop
  | rendered {text file : String} {document : Document}
      (markdown : Key.markdownSuffix.toList.isSuffixOf key.toList)
      (htext : String.fromUTF8? bytes = some text) (hdocument : documentOf key text = .ok document)
      (hrender : document.render key = .ok file) : Rewrites key bytes file.toUTF8
  | same
      (other : ¬ Key.markdownSuffix.toList.isSuffixOf key.toList ∨
        String.fromUTF8? bytes = none) : Rewrites key bytes bytes

theorem toUTF8_of_fromUTF8? {text : String} (h : String.fromUTF8? bytes = some text) :
    text.toUTF8 = bytes := by
  rw [String.fromUTF8?] at h
  split at h
  · cases h
    rfl
  · exact nomatch h

/-- A file that is held is written. -/
theorem exists_output_of_holds (h : tree.Holds key bytes) :
    ∃ result, (key, result) ∈ tree.outputs ∧
      ∀ written, result = .ok written → Rewrites key bytes written := by
  cases h with
  | @document text document htext hdocument here =>
    refine ⟨_, List.mem_append_left _
      (List.mem_map.mpr ⟨(key, document), KeyMap.get?_eq_some_iff.mp here, rfl⟩), ?_⟩
    intro written hwritten
    obtain ⟨file, hrender, rfl⟩ := map_eq_ok.mp hwritten
    by_cases hmarkdown : Key.markdownSuffix.toList.isSuffixOf key.toList
    · exact .rendered hmarkdown htext hdocument hrender
    · -- the document is the text itself
      rw [documentOf, if_neg hmarkdown] at hdocument
      cases hdocument
      cases hrender
      rw [toUTF8_of_fromUTF8? htext]
      exact .same (.inl hmarkdown)
  | asset hbytes here =>
    refine ⟨_, List.mem_append_right _
      (List.mem_map.mpr ⟨(key, bytes), KeyMap.get?_eq_some_iff.mp here, rfl⟩), ?_⟩
    rintro written ⟨⟩
    exact .same (.inr hbytes)

/-- Where all documents can be rendered, all files have bytes. -/
theorem exists_bytes_of_mem_outputs {output : String × Except Error ByteArray}
    (hrender : ∀ key document, tree.documents.get? key = some document →
      ∃ file, document.render key = .ok file)
    (h : output ∈ tree.outputs) : ∃ bytes, output.2 = .ok bytes := by
  rcases List.mem_append.mp h with h | h
  · obtain ⟨⟨key, document⟩, hmem, rfl⟩ := List.mem_map.mp h
    obtain ⟨file, hfile⟩ := hrender key document (KeyMap.get?_eq_some_iff.mpr hmem)
    exact ⟨file.toUTF8, by rw [hfile]; rfl⟩
  · obtain ⟨⟨key, bytes⟩, -, rfl⟩ := List.mem_map.mp h
    exact ⟨bytes, rfl⟩

theorem map_fst_outputs (tree : SourceTree) : tree.outputs.map Prod.fst = tree.keys := by
  simp [outputs, keys, KeyMap.keys, Function.comp_def]

/-! ## Keeping all files -/

/-- Nothing is lost of the files that are found at some paths in a directory. -/
structure Keeps (files : FileTree) (directory : String) (paths : List String) (tree : SourceTree) :
    Prop where
  /-- Different files have different keys. -/
  nodup : (paths.map (keyOf directory)).Nodup
  /-- Each file is a document or an asset, and not both, under its path seen from the directory. -/
  holds : ∀ path ∈ paths, ∃ bytes, files.read path = .ok bytes ∧
    tree.Holds (FilePath.relativeTo directory path) bytes
  /-- There are as many documents and assets as files. -/
  size : tree.documents.size + tree.assets.size = paths.length
  /-- When the tree was written to any place on a disk without links, each file is there at the path
  it was read from. -/
  written : ∀ (disk after : FileTree) (destination : String) (clean : Bool) (n : Nat),
    disk.root.linkFree → (tree.write destination clean).run.run disk = (.ok n, after) →
    n = paths.length ∧ ∀ path ∈ paths, ∃ bytes result, files.read path = .ok bytes ∧
      Rewrites (FilePath.relativeTo directory path) bytes result ∧
      after.read (FilePath.join destination (FilePath.relativeTo directory path)) = .ok result
  /-- And it can be written where nothing is in the way, if each document has a text to be written
  as and no path is too long. -/
  writes : ∀ (disk : FileTree) (destination : String) (clean : Bool),
    disk.root.linkFree → Vacant disk destination →
    (clean && disk.isDirectory destination) = false →
    (∀ path ∈ paths,
      (FilePath.join destination (FilePath.relativeTo directory path)).utf8ByteSize <
        FileTree.pathLimit) →
    (∀ key document, tree.documents.get? key = some document →
      ∃ file, document.render key = .ok file) →
    ∃ after, (tree.write destination clean).run.run disk = (.ok paths.length, after)

section Loaded

variable (hwell : files.WellFormed) (hsources : sources files directory options = .ok paths)

include hwell hsources

/-- No file is on the way to another one. -/
theorem apart_rows : Apart (paths.map (rowOf directory)) := by
  intro row hrow other hother hstarts
  obtain ⟨path, hpath, rfl⟩ := List.mem_map.mp hrow
  obtain ⟨path', hpath', rfl⟩ := List.mem_map.mp hother
  by_contra hne
  have hsource := isSource_of_mem hwell hsources hpath
  have habove := (isSource_of_mem hwell hsources hpath').above _ hstarts hne
  rw [hsource.descend_eq, hsource.file] at habove
  exact nomatch habove

theorem isFileName_of_read (hpath : path ∈ paths) (hread : files.read path = .ok bytes) :
    ∀ name ∈ rowOf directory path, IsFileName name := by
  have hsource := isSource_of_mem hwell hsources hpath
  obtain ⟨place, hplace, -⟩ := FileTree.read_eq_ok_iff.mp hread
  rw [← hsource.descend_eq] at hplace
  exact FileTree.isFileName_of_place hsource.isName hplace

section Plain

variable (hkeys : ∀ path ∈ paths, keyOf directory path = FilePath.relativeTo directory path)

include hkeys

theorem nodup_keys_of_plain : (paths.map (keyOf directory)).Nodup := by
  rw [List.map_congr_left hkeys]
  exact nodup_relativeTo hwell hsources

variable (htree : insertAll files directory empty paths = .ok tree)

include htree

omit hwell hsources in
/-- What is written is written for one of the files. -/
theorem exists_path_of_mem_outputs {output : String × Except Error ByteArray}
    (h : output ∈ tree.outputs) :
    ∃ path ∈ paths, output.1 = FilePath.relativeTo directory path := by
  have hkey : output.1 ∈ tree.keys := by
    rw [← map_fst_outputs]
    exact List.mem_map_of_mem h
  obtain ⟨path, hpath, heq⟩ := List.mem_map.mp (mem_of_mem_keys htree hkey)
  exact ⟨path, hpath, by rw [← heq, hkeys path hpath]⟩

/-- No two of the files that are written are at one place. -/
theorem pairwise_target_outputs (disk : FileTree) (destination : String) :
    tree.outputs.Pairwise fun a b =>
      disk.target (FilePath.join destination a.1) ≠
        disk.target (FilePath.join destination b.1) := by
  have hnodup := nodup_keys_of_plain hwell hsources hkeys
  have hapart : (tree.outputs.map Prod.fst).Nodup := by
    rw [map_fst_outputs]
    exact (keys_perm_of_insertAll htree hnodup).nodup_iff.mpr hnodup
  refine List.Pairwise.imp_of_mem ?_ (List.pairwise_map.mp hapart)
  intro a b ha hb hne heq
  obtain ⟨path, hpath, hpatha⟩ := exists_path_of_mem_outputs hkeys htree ha
  obtain ⟨path', hpath', hpathb⟩ := exists_path_of_mem_outputs hkeys htree hb
  have hsource := isSource_of_mem hwell hsources hpath
  have hsource' := isSource_of_mem hwell hsources hpath'
  rw [hpatha, hpathb, hsource.join_eq, hsource'.join_eq, FileTree.target_descend hsource.isName,
    FileTree.target_descend hsource'.isName] at heq
  refine hne ?_
  rw [hpatha, hpathb, ← FilePath.ofParts_parts (FilePath.relativeTo directory path),
    ← FilePath.ofParts_parts (FilePath.relativeTo directory path')]
  exact congrArg _ (List.append_cancel_left heq)

/-- Where nothing is in the way all files can be written. -/
theorem exists_run_outputs_of_plain {disk : FileTree} (hfree : disk.root.linkFree)
    (hvacant : Vacant disk destination)
    (hshort : ∀ path ∈ paths,
      (FilePath.join destination (FilePath.relativeTo directory path)).utf8ByteSize <
        FileTree.pathLimit)
    (hrender : ∀ key document, tree.documents.get? key = some document →
      ∃ file, document.render key = .ok file)
    (hreads : ∀ path ∈ paths, ∃ bytes, files.read path = .ok bytes) :
    ∃ after, (forM tree.outputs (writeOutput destination)).run.run disk = (.ok (), after) := by
  have hsources' : ∀ path ∈ paths, IsSource files directory path := fun _ hpath =>
    isSource_of_mem hwell hsources hpath
  have hnames : ∀ path ∈ paths, ∀ name ∈ rowOf directory path, IsFileName name := by
    intro path hpath
    obtain ⟨bytes, hread⟩ := hreads path hpath
    exact isFileName_of_read hwell hsources hpath hread
  have hne : [] ∉ paths.map (rowOf directory) := by
    intro hmem
    obtain ⟨path, hpath, hnil⟩ := List.mem_map.mp hmem
    exact (hsources' path hpath).ne_nil hnil
  obtain ⟨above, before, hempty, hbefore, hdescend, htakable, hroomy⟩ :=
    hvacant.exists_roomy hfree hne
  refine exists_run_outputs hempty ?_ ?_ hroomy ?_
  · intro row hrow other hother hstarts
    obtain ⟨below, hbelow, rfl⟩ := List.mem_map.mp hrow
    obtain ⟨below', hbelow', rfl⟩ := List.mem_map.mp hother
    rw [apart_rows hwell hsources below hbelow below' hbelow'
      ((List.prefix_append_right_inj before).mp hstarts)]
  · intro row hrow name hname
    obtain ⟨below, hbelow, rfl⟩ := List.mem_map.mp hrow
    obtain ⟨path, hpath, rfl⟩ := List.mem_map.mp hbelow
    rcases List.mem_append.mp hname with hname | hname
    · exact hbefore name hname
    · exact hnames path hpath name hname
  · intro output houtput
    obtain ⟨path, hpath, hkey⟩ := exists_path_of_mem_outputs hkeys htree houtput
    obtain ⟨bytes, hbytes⟩ := exists_bytes_of_mem_outputs hrender houtput
    have hsource := hsources' path hpath
    have hlength := hshort path hpath
    rw [hsource.join_eq] at hlength
    refine ⟨bytes, before ++ rowOf directory path, hbytes,
      List.mem_map_of_mem (List.mem_map_of_mem hpath), by simp [hsource.ne_nil], ?_, ?_⟩
    · rw [hkey, hsource.join_eq, hdescend]
    · rw [← hdescend]
      exact FileTree.takable_descend htakable hsource.ne_nil (hnames path hpath) hlength

/-- Where keys are paths, all files are kept. -/
theorem keeps_of_plain : Keeps files directory paths tree := by
  have hnodup := nodup_keys_of_plain hwell hsources hkeys
  have hholds : ∀ path ∈ paths, ∃ bytes, files.read path = .ok bytes ∧
      tree.Holds (FilePath.relativeTo directory path) bytes := by
    intro path hpath
    rw [← hkeys path hpath]
    exact holds_of_insertAll htree hnodup (fun key _ => lacks_empty key) path hpath
  have hsize : tree.documents.size + tree.assets.size = paths.length := by
    rw [← length_keys, (keys_perm_of_insertAll htree hnodup).length_eq, List.length_map]
  refine ⟨hnodup, hholds, hsize, ?_, ?_⟩
  · intro disk after destination clean n hfree hrun
    obtain ⟨hn, hreads⟩ := read_of_run_write hfree
      (pairwise_target_outputs hwell hsources hkeys htree disk destination) hrun
    refine ⟨hn.trans hsize, fun path hpath => ?_⟩
    obtain ⟨bytes, hread, hhere⟩ := hholds path hpath
    obtain ⟨result, hmem, hrewrites⟩ := exists_output_of_holds hhere
    obtain ⟨written, hwritten, hafter⟩ := hreads _ hmem
    exact ⟨bytes, written, hread, hrewrites written hwritten, hafter⟩
  · intro disk destination clean hfree hvacant hclean hshort hrender
    rw [← hsize]
    refine exists_run_write hclean
      (exists_run_outputs_of_plain hwell hsources hkeys htree hfree hvacant hshort hrender ?_)
    intro path hpath
    obtain ⟨bytes, hread, -⟩ := hholds path hpath
    exact ⟨bytes, hread⟩

end Plain

end Loaded

section FolderAndFile

variable {folder inner name : String} {first second : ByteArray}

/-- A directory `src` that holds a folder with one file, and another file. -/
def folderAndFile (folder inner name : String) (first second : ByteArray) : FileTree :=
  ⟨.directory [("src", .directory [
    (folder, .directory [(inner, .file first)]), (name, .file second)])], []⟩

variable (hfiles : files = folderAndFile folder inner name first second)
  (hnames : ∀ entry ∈ [folder, inner, name], IsFileName entry) (hne : folder ≠ name)
  (hshort : ∀ names ∈ [[folder], [folder, inner], [name]],
    (descend "src" names).utf8ByteSize < FileTree.pathLimit)

include hfiles

theorem place_src : files.place "src" = .ok ["src"] := by
  subst hfiles
  refine (FileTree.place_eq_ok_iff rfl).mpr ⟨⟨by decide, by decide, by decide⟩, ?_, rfl⟩
  exact ⟨⟨⟨_, rfl⟩, fun _ => ⟨by decide, _, rfl⟩⟩, trivial⟩

/-- There is no ignore file. -/
theorem exists_error_of_ignoreFile (hfolder : folder ≠ ignoreFileName)
    (hname : name ≠ ignoreFileName) :
    ∃ error, files.read (FilePath.join "src" ignoreFileName) = .error error := by
  cases hread : files.read (FilePath.join "src" ignoreFileName) with
  | error error => exact ⟨error, rfl⟩
  | ok bytes =>
    obtain ⟨place, hplace, hat⟩ := FileTree.read_eq_ok_iff.mp hread
    subst hfiles
    obtain ⟨-, -, rfl⟩ := (FileTree.place_eq_ok_iff rfl).mp hplace
    have htarget : (folderAndFile folder inner name first second).target
        (FilePath.join "src" ignoreFileName) = ["src", ignoreFileName] := by
      rfl
    rw [htarget] at hat
    simp [folderAndFile, FileNode.at?, FileNode.lookup, hfolder, hname] at hat

include hnames hne hshort

theorem place_folderAndFile :
    files.place (descend "src" [folder]) = .ok ["src", folder] ∧
    files.read (descend "src" [folder, inner]) = .ok first ∧
    files.read (descend "src" [name]) = .ok second := by
  have hsrc := place_src hfiles
  subst hfiles
  simp only [List.forall_mem_cons] at hnames hshort
  obtain ⟨hfolder, hinner, hname, -⟩ := hnames
  obtain ⟨hshortFolder, hshortInner, hshortName, -⟩ := hshort
  have hatFolder : (folderAndFile folder inner name first second).root.at? ["src", folder] =
      some (.directory [(inner, .file first)]) := by
    simp [folderAndFile, FileNode.at?, FileNode.lookup]
  have hatInner : (folderAndFile folder inner name first second).root.at? ["src", folder, inner] =
      some (.file first) := by
    simp [folderAndFile, FileNode.at?, FileNode.lookup]
  have hatName : (folderAndFile folder inner name first second).root.at? ["src", name] =
      some (.file second) := by
    simp [folderAndFile, FileNode.at?, FileNode.lookup, hne]
  refine ⟨?_, FileTree.read_eq_ok_iff.mpr ⟨_, ?_, hatInner⟩,
    FileTree.read_eq_ok_iff.mpr ⟨_, ?_, hatName⟩⟩
  · exact FileTree.place_descend rfl hsrc (by simpa using hfolder) hshortFolder hatFolder
  · exact FileTree.place_descend rfl hsrc (by simpa using ⟨hfolder, hinner⟩) hshortInner hatInner
  · exact FileTree.place_descend rfl hsrc (by simpa using hname) hshortName hatName

/-- Both files are found, if no name is hidden. -/
theorem sources_folderAndFile
    (hshown : ∀ entry ∈ [folder, inner, name], FileTree.isHidden entry = false)
    (hle : FileTree.pathLe (descend "src" [folder, inner]) (descend "src" [name])) :
    sources files "src" ⟨[], false⟩ =
      .ok [descend "src" [folder, inner], descend "src" [name]] := by
  have htop := place_src hfiles
  obtain ⟨hbelow, hreadInner, hreadName⟩ := place_folderAndFile hfiles hnames hne hshort
  simp only [List.forall_mem_cons] at hshown
  obtain ⟨hfolder, hinner, hname, -⟩ := hshown
  have hlist : files.list "src" = .ok [folder, name] := by
    refine FileTree.list_eq_ok_iff.mpr
      ⟨_, [(folder, .directory [(inner, .file first)]), (name, .file second)], htop, ?_, rfl⟩
    subst hfiles
    rfl
  have hlistBelow : files.list (descend "src" [folder]) = .ok [inner] := by
    refine FileTree.list_eq_ok_iff.mpr ⟨_, [(inner, .file first)], hbelow, ?_, rfl⟩
    subst hfiles
    simp [folderAndFile, FileNode.at?, FileNode.lookup]
  have hrules : leavesOut files "src" ⟨[], false⟩ ⟨"src", []⟩ = fun _ _ => false := by
    obtain ⟨error, herror⟩ := exists_error_of_ignoreFile hfiles
      (fun heq => by rw [heq] at hfolder; exact absurd hfolder (by decide))
      (fun heq => by rw [heq] at hname; exact absurd hname (by decide))
    funext path isDirectory
    simp only [leavesOut, ignoreFileRules, herror]
    rfl
  have hinside : FileTree.Walks files (fun _ _ => false) [["src", folder], ["src"]]
      (files.visible (fun _ _ => false) (descend "src" [folder]) [inner])
      [.found (descend "src" [folder, inner])] [["src", folder], ["src"]] := by
    have hfile : files.isDirectory (FilePath.join (descend "src" [folder]) inner) = false :=
      FileTree.isDirectory_of_read hreadInner
    rw [FileTree.visible_cons _ hinner rfl, hfile]
    exact .file .done
  have hentries : FileTree.Walks files (fun _ _ => false) [["src"]]
      (files.visible (fun _ _ => false) "src" [folder, name])
      [.listed (descend "src" [folder]) ["src", folder], .found (descend "src" [folder, inner]),
        .found (descend "src" [name])] [["src", folder], ["src"]] := by
    have hdirectory : files.isDirectory (FilePath.join "src" folder) = true :=
      FileTree.isDirectory_of_list hlistBelow
    have hfile : files.isDirectory (FilePath.join "src" name) = false :=
      FileTree.isDirectory_of_read hreadName
    rw [FileTree.visible_cons _ hfolder rfl, FileTree.visible_cons _ hname rfl, hdirectory, hfile]
    exact .enter hbelow (by simp) hlistBelow hinside (.file .done)
  have hwalks : FileTree.Walks files (fun _ _ => false) [] [("src", true)]
      [.listed "src" ["src"], .listed (descend "src" [folder]) ["src", folder],
        .found (descend "src" [folder, inner]), .found (descend "src" [name])]
      [["src", folder], ["src"]] :=
    .enter htop List.not_mem_nil hlist hentries .done
  have hsources : sources files "src" ⟨[], false⟩ =
      .ok (files.filesBelow (leavesOut files "src" ⟨[], false⟩ ⟨"src", []⟩) "src") :=
    sources_of_excludeRules rfl files
  rw [hsources, hrules, FileTree.filesBelow, hwalks.walk_eq]
  exact congrArg _ (List.mergeSort_of_pairwise (by simpa using hle))

end FolderAndFile

/-- Loading a directory keeps all its files exactly if none of their paths below it holds a
backslash. -/
theorem load_keeps_files_iff (hwell : files.WellFormed)
    (hsources : sources files directory options = .ok paths)
    (hload : load files directory options = .ok tree) :
    Keeps files directory paths tree ↔
      ∀ path ∈ paths, '\\' ∉ (FilePath.relativeTo directory path).toList := by
  have htree : insertAll files directory empty paths = .ok tree := by
    rw [load, hsources] at hload
    exact hload
  constructor
  · intro hkeeps path hpath hmem
    obtain ⟨bytes, -, hholds⟩ := hkeeps.holds path hpath
    obtain ⟨other, -, hkey⟩ := List.mem_map.mp (mem_of_mem_keys htree (mem_keys_of_holds hholds))
    rw [← hkey] at hmem
    exact Key.not_mem_ofPath _ hmem
  · intro hplain
    exact keeps_of_plain hwell hsources
      (fun path hpath => Key.ofPath_of_not_mem (hplain path hpath)) htree

/-- A text and a file of other bytes, which are both kept. -/
theorem load_keeps_files_iff_plain :
    let files : FileTree := ⟨.directory [("src", .directory [
      ("a", .directory [("x.bin", .file ⟨#[255]⟩)]), ("b.md", .file ⟨#[66]⟩)])], []⟩
    let paths := ["src/a/x.bin", "src/b.md"]
    let tree : SourceTree :=
      ⟨KeyMap.ofList [("b.md", ⟨"B", .empty⟩)], KeyMap.ofList [("a/x.bin", ⟨#[255]⟩)]⟩
    files.WellFormed ∧ sources files "src" ⟨[], false⟩ = .ok paths ∧
    load files "src" ⟨[], false⟩ = .ok tree ∧ Keeps files "src" paths tree := by
  intro files paths tree
  have hwell : files.WellFormed := by decide
  have hfiles : files = folderAndFile "a" "x.bin" "b.md" ⟨#[255]⟩ ⟨#[66]⟩ := rfl
  obtain ⟨-, hreadInner, hreadName⟩ :=
    place_folderAndFile hfiles (by decide) (by decide) (by decide)
  have hsources : sources files "src" ⟨[], false⟩ = .ok paths :=
    sources_folderAndFile hfiles (by decide) (by decide) (by decide) (by decide) (by decide)
  have hload : load files "src" ⟨[], false⟩ = .ok tree := by
    have hkeys : keyOf "src" "src/a/x.bin" = "a/x.bin" ∧ keyOf "src" "src/b.md" = "b.md" := by
      decide
    have hbytes : String.fromUTF8? ⟨#[255]⟩ = none := by decide +kernel
    have htext : String.fromUTF8? ⟨#[66]⟩ = some "B" := by decide +kernel
    have hdocument : documentOf "b.md" "B" = .ok ⟨"B", .empty⟩ := by decide +kernel
    rw [load, hsources]
    refine insertAll_cons_eq_ok.mpr ⟨_, _, hreadInner, insert_eq_ok.mpr (.inr ⟨hbytes, rfl⟩),
      insertAll_cons_eq_ok.mpr ⟨_, _, hreadName,
        insert_eq_ok.mpr (.inl ⟨_, _, htext, hkeys.2 ▸ hdocument, rfl⟩), ?_⟩⟩
    rw [hkeys.1, hkeys.2]
    rfl
  exact ⟨hwell, hsources, hload, (load_keeps_files_iff hwell hsources hload).mpr (by decide)⟩

/-- Two files of which one has a backslash in its name where the other has a slash in its path: they
have one key, and only the second is kept. -/
theorem load_loses_file_beside_backslash :
    let files : FileTree := ⟨.directory [("src", .directory [
      ("a", .directory [("b.md", .file ⟨#[50]⟩)]), ("a\\b.md", .file ⟨#[49]⟩)])], []⟩
    let paths := ["src/a/b.md", "src/a\\b.md"]
    let tree : SourceTree := ⟨KeyMap.ofList [("a/b.md", ⟨"1", .empty⟩)], .empty⟩
    files.WellFormed ∧ files.root.linkFree ∧ sources files "src" ⟨[], false⟩ = .ok paths ∧
    load files "src" ⟨[], false⟩ = .ok tree ∧
    keyOf "src" "src/a/b.md" = keyOf "src" "src/a\\b.md" ∧
    tree.documents.size + tree.assets.size < paths.length ∧ ¬ Keeps files "src" paths tree := by
  intro files paths tree
  have hfiles : files = folderAndFile "a" "b.md" "a\\b.md" ⟨#[50]⟩ ⟨#[49]⟩ := rfl
  obtain ⟨-, hreadInner, hreadName⟩ :=
    place_folderAndFile hfiles (by decide) (by decide) (by decide)
  have hsources : sources files "src" ⟨[], false⟩ = .ok paths :=
    sources_folderAndFile hfiles (by decide) (by decide) (by decide) (by decide) (by decide)
  have hkeys : keyOf "src" "src/a/b.md" = "a/b.md" ∧ keyOf "src" "src/a\\b.md" = "a/b.md" := by
    decide
  have hload : load files "src" ⟨[], false⟩ = .ok tree := by
    have htexts : String.fromUTF8? ⟨#[50]⟩ = some "2" ∧ String.fromUTF8? ⟨#[49]⟩ = some "1" := by
      decide +kernel
    have hdocuments : documentOf "a/b.md" "2" = .ok ⟨"2", .empty⟩ ∧
        documentOf "a/b.md" "1" = .ok ⟨"1", .empty⟩ := by decide +kernel
    rw [load, hsources]
    refine insertAll_cons_eq_ok.mpr ⟨_, _, hreadInner,
      insert_eq_ok.mpr (.inl ⟨_, _, htexts.1, hkeys.1 ▸ hdocuments.1, rfl⟩),
      insertAll_cons_eq_ok.mpr ⟨_, _, hreadName,
        insert_eq_ok.mpr (.inl ⟨_, _, htexts.2, hkeys.2 ▸ hdocuments.2, rfl⟩), ?_⟩⟩
    rw [hkeys.1, hkeys.2]
    rfl
  refine ⟨by decide, rfl, hsources, hload, hkeys.1.trans hkeys.2.symm, by decide, fun h => ?_⟩
  exact absurd h.nodup (by simp [paths, hkeys])

end SourceTree

end Transclusion
