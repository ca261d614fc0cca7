import Transclusion.Proofs.FileTree.Below
import Transclusion.SourceTree

/-!
# Writing a source tree

A tree is written file by file. Files at different places do not touch each other, so in the end
each of them is read as it was written.
-/

namespace Transclusion.SourceTree

open FileTree (Leaves Stays)

variable {tree : SourceTree} {files after : FileTree} {directory path : String} {bytes : ByteArray}

/-! ## One file -/

theorem run_change {α : Type} (action : FileTree.Change α) (files : FileTree) :
    (change action).run.run files =
      ((action.run.run files).1.mapError (.io ·.message), (action.run.run files).2) := by
  rw [change, ExceptT.run_mk, StateT.run_bind]
  show StateT.run _ (action.run.run files).2 = _
  match action.run.run files with
  | (.ok a, after) => rfl
  | (.error error, after) => rfl

theorem run_change_eq_ok {α : Type} {action : FileTree.Change α} {a : α} :
    (change action).run.run files = (.ok a, after) ↔ action.run.run files = (.ok a, after) := by
  rw [run_change]
  obtain ⟨error | a', after'⟩ := action.run.run files
  · constructor <;> intro h <;> cases (Prod.mk.inj h).1
  · constructor <;> rintro ⟨⟩ <;> rfl

/-- A file that was written is read, and all else is as it was. -/
theorem read_of_run_writeFile (hfree : files.root.linkFree)
    (h : (writeFile path bytes).run.run files = (.ok (), after)) :
    after.read path = .ok bytes ∧ Leaves (· = files.target path) files after := by
  have hmade := FileTree.moves_makeDirectoriesFrom (FilePath.ancestors (FilePath.parent path)) files
  rw [writeFile, run_change_eq_ok, run_run_bind, FileTree.makeDirectories] at h
  split at h
  · next middle hrun =>
    rw [hrun] at hmade
    obtain ⟨hread, hleaves⟩ := FileTree.read_of_run_write (hmade.linkFree hfree) h
    rw [hmade.target_eq] at hleaves
    exact ⟨hread, (hmade.mono nofun).trans hleaves⟩
  · cases (Prod.mk.inj h).1

/-! ## All files -/

/-- The files that a tree is written as: the documents, then the assets. -/
def outputs (tree : SourceTree) : List (String × Except Error ByteArray) :=
  (tree.documents.toList.map fun entry =>
    (entry.1, (entry.2.render entry.1).map String.toUTF8)) ++
  tree.assets.toList.map fun entry => (entry.1, .ok entry.2)

/-- Writes one of the files of a tree. -/
def writeOutput (directory : String) (output : String × Except Error ByteArray) : Writing Unit := do
  writeFile (FilePath.join directory output.1) (← ExceptT.mk (pure output.2))

theorem forIn_eq_forM {α : Type} (as : List α) (f : α → Writing Unit) :
    (forIn as PUnit.unit fun a _ => do
        f a
        pure (ForInStep.yield PUnit.unit) : Writing PUnit) = forM as f := by
  induction as with
  | nil => rfl
  | cons a as ih =>
    rw [List.forIn_cons, List.forM_cons, ← ih, bind_assoc]
    simp only [pure_bind]

theorem writeAll_eq (tree : SourceTree) (directory : String) :
    tree.writeAll directory = forM tree.outputs (writeOutput directory) := by
  rw [outputs, List.forM_append, List.forM_map, List.forM_map, ← forIn_eq_forM, ← forIn_eq_forM,
    writeAll]
  simp only [writeOutput, mk_pure_map_bind, mk_pure_ok_bind, bind_assoc]
  exact bind_congr fun _ => bind_pure _

/-- In the end all files are read as they were written, if no two of them are at one place. -/
theorem read_of_run_outputs {outputs : List (String × Except Error ByteArray)}
    (hfree : files.root.linkFree)
    (hapart : outputs.Pairwise fun a b =>
      files.target (FilePath.join directory a.1) ≠ files.target (FilePath.join directory b.1))
    (h : (forM outputs (writeOutput directory)).run.run files = (.ok (), after)) :
    (∀ output ∈ outputs, ∃ bytes, output.2 = .ok bytes ∧
      after.read (FilePath.join directory output.1) = .ok bytes) ∧
    Leaves
      (fun place => ∃ output ∈ outputs, place = files.target (FilePath.join directory output.1))
      files after := by
  induction outputs generalizing files with
  | nil =>
    obtain ⟨-, rfl⟩ := Prod.mk.inj h
    exact ⟨nofun, .refl _ files⟩
  | cons output outputs ih =>
    obtain ⟨hfirst, hothers⟩ := List.pairwise_cons.mp hapart
    rw [List.forM_cons, run_run_bind, writeOutput, run_run_bind, run_run_mk_pure] at h
    obtain ⟨key, result⟩ := output
    cases result with
    | error error => cases (Prod.mk.inj h).1
    | ok bytes =>
      dsimp only at h
      split at h
      · next middle hrun =>
        obtain ⟨hread, hhere⟩ := read_of_run_writeFile hfree hrun
        simp only [← hhere.target_eq] at hothers
        obtain ⟨hreads, hrest⟩ := ih (hhere.linkFree hfree) hothers h
        simp only [hhere.target_eq] at hrest
        refine ⟨List.forall_mem_cons.mpr ⟨⟨bytes, rfl, ?_⟩, hreads⟩,
          .trans (?_ : Leaves _ files middle) ?_⟩
        · refine hrest.read_eq (hhere.linkFree hfree) hread ?_
          rw [hhere.target_eq]
          rintro ⟨output, hmem, heq⟩
          exact hfirst output hmem heq
        · exact hhere.mono fun place heq => ⟨_, List.mem_cons_self, heq⟩
        · refine hrest.mono ?_
          rintro place ⟨output, hmem, heq⟩
          exact ⟨output, List.mem_cons_of_mem _ hmem, heq⟩
      · cases (Prod.mk.inj h).1

/-- Where writing succeeds, all files of the tree are read afterwards, if no two are at one place.
-/
theorem read_of_run_write {clean : Bool} {n : Nat} (hfree : files.root.linkFree)
    (hapart : tree.outputs.Pairwise fun a b =>
      files.target (FilePath.join directory a.1) ≠ files.target (FilePath.join directory b.1))
    (h : (tree.write directory clean).run.run files = (.ok n, after)) :
    n = tree.documents.size + tree.assets.size ∧ ∀ output ∈ tree.outputs, ∃ bytes,
      output.2 = .ok bytes ∧ after.read (FilePath.join directory output.1) = .ok bytes := by
  -- the tree is written in what is there, or in what the directory leaves when it is removed
  suffices hall : ∃ before, Stays files before ∧
      (tree.writeAll directory >>= fun _ =>
        pure (tree.documents.size + tree.assets.size) : Writing Nat).run.run before =
          (.ok n, after) by
    obtain ⟨before, hbefore, h⟩ := hall
    rw [run_run_bind, writeAll_eq] at h
    split at h
    · next middle hrun =>
      obtain ⟨hn, rfl⟩ := Prod.mk.inj h
      simp only [← hbefore.target_eq] at hapart
      exact ⟨(Except.ok.inj hn).symm,
        (read_of_run_outputs (hbefore.linkFree hfree) hapart hrun).1⟩
    · cases (Prod.mk.inj h).1
  rw [write, run_run_bind, run_run_get] at h
  dsimp only at h
  split at h
  · rw [run_run_bind] at h
    split at h
    · next middle hrun =>
      have hstays := FileTree.moves_removeAll directory files
      rw [run_change_eq_ok.mp hrun] at hstays
      exact ⟨middle, hstays, h⟩
    · cases (Prod.mk.inj h).1
  · exact ⟨files, .refl files, h⟩

/-! ## Writing into room -/

section Room

open FileTree (Apart IsFileName Roomy Takable)

variable {rows : List (List String)}

/-- A file can be written where there is room for it. -/
theorem exists_run_writeFile {row : List String} (hempty : directory ≠ "") (hapart : Apart rows)
    (hnames : ∀ row ∈ rows, ∀ name ∈ row, IsFileName name)
    (h : Roomy files (files.start directory) (FilePath.parts directory) rows)
    (hrow : row ∈ rows) (hne : row ≠ []) (htakable : Takable (FilePath.descend directory row))
    (bytes : ByteArray) :
    ∃ after, (writeFile (FilePath.descend directory row) bytes).run.run files = (.ok (), after) ∧
      Stays files after ∧
      Roomy after (files.start directory) (FilePath.parts directory) rows := by
  obtain ⟨names, name, rfl⟩ := (List.eq_nil_or_concat' row).resolve_left hne
  obtain ⟨middle, after, hmake, hwrite, hafter⟩ :=
    FileTree.exists_run_create hempty hapart hnames h hrow htakable bytes
  refine ⟨after, ?_, hafter⟩
  rw [writeFile, run_change_eq_ok, run_run_bind, hmake]
  exact hwrite

/-- All files of a tree can be written where there is room for them. -/
theorem exists_run_outputs {destination : String} {outputs : List (String × Except Error ByteArray)}
    (hempty : directory ≠ "") (hapart : Apart rows)
    (hnames : ∀ row ∈ rows, ∀ name ∈ row, IsFileName name)
    (h : Roomy files (files.start directory) (FilePath.parts directory) rows)
    (houtputs : ∀ output ∈ outputs, ∃ bytes row, output.2 = .ok bytes ∧ row ∈ rows ∧ row ≠ [] ∧
      FilePath.join destination output.1 = FilePath.descend directory row ∧
      Takable (FilePath.descend directory row)) :
    ∃ after, (forM outputs (writeOutput destination)).run.run files = (.ok (), after) := by
  induction outputs generalizing files with
  | nil => exact ⟨files, rfl⟩
  | cons output outputs ih =>
    obtain ⟨⟨bytes, row, hbytes, hrow, hne, hpath, htakable⟩, hothers⟩ :=
      List.forall_mem_cons.mp houtputs
    obtain ⟨middle, hrun, hstays, hmiddle⟩ :=
      exists_run_writeFile hempty hapart hnames h hrow hne htakable bytes
    rw [← hstays.start_eq] at hmiddle
    obtain ⟨after, hrest⟩ := ih hmiddle hothers
    refine ⟨after, ?_⟩
    rw [List.forM_cons, run_run_bind, writeOutput, run_run_bind, run_run_mk_pure, hbytes]
    dsimp only
    rw [hpath, hrun]
    exact hrest

end Room

/-- A tree is written as its files are, where nothing is to be removed first. -/
theorem exists_run_write {clean : Bool} (hclean : (clean && files.isDirectory directory) = false)
    (h : ∃ after, (forM tree.outputs (writeOutput directory)).run.run files = (.ok (), after)) :
    ∃ after, (tree.write directory clean).run.run files =
      (.ok (tree.documents.size + tree.assets.size), after) := by
  obtain ⟨after, hrun⟩ := h
  refine ⟨after, ?_⟩
  rw [write, run_run_bind, run_run_get]
  dsimp only
  rw [hclean, if_neg Bool.false_ne_true, run_run_bind, writeAll_eq, hrun]
  rfl

end Transclusion.SourceTree
