import Transclusion.Proofs.FileTree.Follow
import Transclusion.Proofs.Results

/-!
# Changing a tree without links

What making directories and writing files leaves as it was, and what is read where a file was
written.
-/

namespace Transclusion.FileTree

open FileNode (Kept)

variable {tree middle other : FileTree} {path : String} {place : Place} {bytes : ByteArray}
  {changed : Place → Prop}

/-! ## What a change leaves -/

/-- The current directory is the same, and there is no link where there was none. -/
structure Stays (tree other : FileTree) : Prop where
  current : other.current = tree.current
  linkFree : tree.root.linkFree → other.root.linkFree

/-- In a tree without links all is still there, but for the content of files at some places. -/
structure Leaves (changed : Place → Prop) (tree other : FileTree) : Prop
    extends Stays tree other where
  kept : tree.root.linkFree → Kept changed tree.root other.root

theorem Stays.refl (tree : FileTree) : Stays tree tree := ⟨rfl, id⟩

theorem Stays.trans (h : Stays tree middle) (h' : Stays middle other) : Stays tree other :=
  ⟨h'.current.trans h.current, fun hfree => h'.linkFree (h.linkFree hfree)⟩

theorem Leaves.refl (changed : Place → Prop) (tree : FileTree) : Leaves changed tree tree :=
  ⟨.refl tree, fun _ => .refl changed tree.root⟩

theorem Leaves.trans (h : Leaves changed tree middle) (h' : Leaves changed middle other) :
    Leaves changed tree other :=
  ⟨h.toStays.trans h'.toStays, fun hfree => (h.kept hfree).trans (h'.kept (h.linkFree hfree))⟩

theorem Leaves.mono {others : Place → Prop} (h : Leaves changed tree other)
    (hsub : ∀ place, changed place → others place) : Leaves others tree other :=
  ⟨h.toStays, fun hfree => (h.kept hfree).mono hsub⟩

theorem stays_put {new : Option FileNode} (hnew : ∀ node, new = some node → node.linkFree)
    (tree : FileTree) (place : Place) : Stays tree (tree.put place new) :=
  ⟨rfl, fun hfree => FileNode.linkFree_put hfree hnew place⟩

theorem Stays.start_eq (h : Stays tree other) (path : String) :
    other.start path = tree.start path := by
  rw [start, start, h.current]

theorem Stays.target_eq (h : Stays tree other) (path : String) :
    other.target path = tree.target path := by
  rw [target, target, h.start_eq]

/-- What is read at a path is still read there. -/
theorem Leaves.read_eq (h : Leaves changed tree other) (hfree : tree.root.linkFree)
    (hread : tree.read path = .ok bytes) (hnot : ¬ changed (tree.target path)) :
    other.read path = .ok bytes := by
  obtain ⟨place, hplace, hat⟩ := read_eq_ok_iff.mp hread
  obtain ⟨htakable, hleads, rfl⟩ := (place_eq_ok_iff hfree).mp hplace
  obtain ⟨bytes', hat', hsame⟩ := (h.kept hfree).file _ bytes hat
  rw [hsame hnot] at hat'
  refine read_eq_ok_iff.mpr ⟨_, (place_eq_ok_iff (h.linkFree hfree)).mpr ⟨htakable, ?_, rfl⟩, ?_⟩
  · rw [h.start_eq]
    exact hleads.kept (h.kept hfree) hfree
  · rw [h.target_eq]
    exact hat'

/-! ## Making directories -/

theorem run_makeDirectory (path : String) (tree : FileTree) :
    (makeDirectory path).run.run tree =
      match tree.follow false path with
      | .error error => (.error error, tree)
      | .ok (.taken _) => (.error .alreadyExists, tree)
      | .ok (.free directory name _) =>
          (.ok (), tree.put (directory ++ [name]) (some (.directory []))) := by
  rw [makeDirectory, run_run_bind, run_run_get]
  dsimp only
  rcases tree.follow false path with error | (taken | free) <;> rfl

/-- No file is touched. -/
theorem moves_makeDirectory (path : String) :
    Moves (Leaves fun _ => False) (makeDirectory path) := by
  intro tree
  rw [run_makeDirectory]
  split
  · exact .refl _ tree
  · exact .refl _ tree
  · next directory name slashed hfollow =>
    refine ⟨stays_put (by simp [FileNode.linkFree, FileNode.linkFreeIn]) tree _, fun hfree => ?_⟩
    obtain ⟨-, hfollow⟩ := follow_eq_ok_iff.mp hfollow
    obtain ⟨-, -, -, -, -, ⟨entries, hhere⟩, -, -, hnone, -⟩ :=
      exists_of_followFrom_eq_free hfree _ _ hfollow
    refine FileNode.kept_put hhere fun old hold => ?_
    rw [hnone] at hold
    cases hold

/-- An error, unless the path leads to a directory. -/
def unlessDirectory (path : String) (error : Error) : Change Unit := do
  unless (← get).isDirectory path do throw error

theorem run_unlessDirectory (path : String) (error : Error) (tree : FileTree) :
    (unlessDirectory path error).run.run tree =
      (if tree.isDirectory path then .ok () else .error error, tree) := by
  rw [unlessDirectory, run_run_bind, run_run_get]
  dsimp only
  cases tree.isDirectory path <;> rfl

/-- A path that leads to a directory counts as made. -/
theorem makeDirectoriesFrom_cons (path : String) (outer : List String) :
    makeDirectoriesFrom (path :: outer) = tryCatch (makeDirectory path) fun error =>
      if error = .notFound then do
        makeDirectoriesFrom outer
        tryCatch (makeDirectory path) (unlessDirectory path)
      else unlessDirectory path error := rfl

theorem moves_makeDirectoriesFrom (paths : List String) :
    Moves (Leaves fun _ => False) (makeDirectoriesFrom paths) := by
  have hrefl := Leaves.refl fun _ => False
  have htrans : ∀ s t u, Leaves (fun _ => False) s t → Leaves (fun _ => False) t u →
      Leaves (fun _ => False) s u := fun _ _ _ => .trans
  have hcheck : ∀ path error, Moves (Leaves fun _ => False) (unlessDirectory path error) := by
    intro path error tree
    rw [run_unlessDirectory]
    exact hrefl tree
  induction paths with
  | nil => exact .pure hrefl ()
  | cons path outer ih =>
    rw [makeDirectoriesFrom_cons]
    refine .tryCatch htrans (moves_makeDirectory path) fun error => ?_
    split
    · exact .bind htrans ih fun _ => .tryCatch htrans (moves_makeDirectory path) (hcheck path)
    · exact hcheck path error

/-! ## Writing files -/

/-- Something stands at the end of parts that lead on. -/
theorem Leads.exists_at? {root : FileNode} {parts : List String} (h : Leads root place parts)
    (hne : parts ≠ []) : ∃ node, root.at? (spell place parts) = some node := by
  obtain ⟨front, part, rfl⟩ := (List.eq_nil_or_concat' parts).resolve_left hne
  obtain ⟨-, ⟨⟨entries, hhere⟩, hentry⟩, -⟩ := leads_append.mp h
  rw [spell_append, spell_cons, spell_nil, step]
  by_cases hidle : FilePath.isIdle part = true
  · exact ⟨_, by rw [if_pos hidle, hhere]⟩
  by_cases hup : part = ".."
  · obtain ⟨rest, hrest⟩ := List.dropLast_prefix (spell place front)
    rw [← hrest, FileNode.at?_append] at hhere
    obtain ⟨node, hnode, -⟩ := Option.bind_eq_some_iff.mp hhere
    exact ⟨node, by rw [if_neg hidle, if_pos hup, hnode]⟩
  · rw [if_neg hidle, if_neg hup]
    exact (hentry ⟨by simpa using hidle, hup⟩).2

/-- A file at the end of a path stands in a directory. -/
theorem exists_directory_of_leads {root : FileNode} {parts : List String}
    (h : Leads root place parts) (hne : parts ≠ [])
    (hfile : root.at? (spell place parts) = some (.file bytes)) :
    ∃ directory name entries, spell place parts = directory ++ [name] ∧
      root.at? directory = some (.directory entries) := by
  obtain ⟨part, todo, rfl⟩ := List.exists_cons_of_ne_nil hne
  obtain ⟨⟨⟨entries, hhere⟩, -⟩, -⟩ := h
  -- the root is no file, for it is on the way
  have hroot : spell place (part :: todo) ≠ [] := by
    intro hnil
    rw [hnil] at hfile
    obtain rfl : root = .file bytes := Option.some.inj hfile
    cases place <;> cases hhere
  obtain ⟨directory, name, heq⟩ := (List.eq_nil_or_concat' _).resolve_left hroot
  rw [heq] at hfile ⊢
  obtain ⟨entries, hdirectory⟩ := FileNode.exists_directory hfile
  exact ⟨directory, name, entries, rfl, hdirectory⟩

theorem run_write (path : String) (bytes : ByteArray) (tree : FileTree) :
    (write path bytes).run.run tree =
      match tree.follow true path with
      | .error error => (.error error, tree)
      | .ok (.taken place) =>
          match tree.root.at? place with
          | some (.directory _) => (.error .isADirectory, tree)
          | _ => (.ok (), tree.put place (some (.file bytes)))
      | .ok (.free directory name slashed) =>
          if slashed then (.error .isADirectory, tree)
          else (.ok (), tree.put (directory ++ [name]) (some (.file bytes))) := by
  rw [write, run_run_bind, run_run_get]
  dsimp only
  rcases tree.follow true path with error | (place | ⟨directory, name, slashed⟩)
  · rfl
  · dsimp only
    show (match tree.root.at? place with
        | some (.directory _) => throw .isADirectory
        | _ => modify (·.put place (some (.file bytes))) : Change Unit).run.run tree = _
    rcases tree.root.at? place with _ | (_ | _ | _) <;> rfl
  · cases slashed <;> rfl

/-- A file that was written is read, and all else is as it was. -/
theorem read_of_run_write (hfree : tree.root.linkFree)
    (h : (write path bytes).run.run tree = (.ok (), other)) :
    other.read path = .ok bytes ∧ Leaves (· = tree.target path) tree other := by
  have hparts : FilePath.parts path ≠ [] := by
    simpa [FilePath.parts] using Text.fields_ne_nil '/' path.toList
  -- the file is put under a name in a directory, and then the path leads there
  suffices hput : ∃ directory name entries, tree.target path = directory ++ [name] ∧
      tree.root.at? directory = some (.directory entries) ∧ Takable path ∧
      other = tree.put (directory ++ [name]) (some (.file bytes)) ∧
      (∀ old, tree.root.at? (directory ++ [name]) = some old → ∃ bytes, old = .file bytes) ∧
      (Kept (· = tree.target path) tree.root other.root →
        other.root.at? (directory ++ [name]) = some (.file bytes) →
          Leads other.root (tree.start path) (FilePath.parts path)) by
    obtain ⟨directory, name, entries, htarget, hat, htakable, rfl, hold, hleads⟩ := hput
    have hleaves : Leaves (· = tree.target path) tree
        (tree.put (directory ++ [name]) (some (.file bytes))) := by
      refine ⟨stays_put (by simp [FileNode.linkFree]) tree _, fun _ => ?_⟩
      exact FileNode.kept_put hat fun old h => ⟨hold old h, ⟨bytes, rfl⟩, htarget.symm⟩
    have hself := FileNode.at?_put_self (.file bytes) hat name
    refine ⟨read_eq_ok_iff.mpr ⟨_, (place_eq_ok_iff (hleaves.linkFree hfree)).mpr
      ⟨htakable, hleads (hleaves.kept hfree) hself, rfl⟩, ?_⟩, hleaves⟩
    rw [hleaves.target_eq, htarget]
    exact hself
  rw [run_write] at h
  split at h
  · cases (Prod.mk.inj h).1
  · next place hfollow =>
    obtain ⟨htakable, hleads, rfl⟩ :=
      (place_eq_ok_iff hfree).mp (place_eq_ok_iff_follow.mpr hfollow)
    obtain ⟨node, hnode⟩ := hleads.exists_at? hparts
    rw [target, hnode] at h
    cases node with
    | directory entries => cases (Prod.mk.inj h).1
    | link target => cases FileNode.linkFree_at? hfree hnode
    | file old =>
      obtain ⟨-, rfl⟩ := Prod.mk.inj h
      obtain ⟨directory, name, entries, heq, hat⟩ := exists_directory_of_leads hleads hparts hnode
      rw [heq] at hnode ⊢
      refine ⟨directory, name, entries, heq, hat, htakable, rfl, fun node h => ?_,
        fun hkept _ => hleads.kept hkept hfree⟩
      exact ⟨old, Option.some.inj (h.symm.trans hnode)⟩
  · next directory name slashed hfollow =>
    obtain ⟨htakable, hfollow⟩ := follow_eq_ok_iff.mp hfollow
    obtain ⟨front, rest, hall, hleads, rfl, ⟨entries, hat⟩, hentry, hshort, hnone, -, hslashed⟩ :=
      exists_of_followFrom_eq_free hfree _ _ hfollow
    cases rest with
    | cons part rest =>
      subst hslashed
      cases (Prod.mk.inj h).1
    | nil =>
      subst hslashed
      obtain ⟨-, rfl⟩ := Prod.mk.inj h
      refine ⟨_, name, entries, ?_, hat, htakable, rfl, fun node h => ?_, fun hkept hself => ?_⟩
      · rw [target, hall, spell_append, spell_cons, spell_nil, step_of_isEntry hentry]
      · cases hnone.symm.trans h
      · rw [hall]
        exact leads_append.mpr ⟨hleads.kept hkept hfree,
          ⟨hkept.directory _ _ hat, fun _ => ⟨hshort, _, hself⟩⟩, trivial⟩

/-! ## Removing -/

/-- Removing brings no link into a tree. -/
theorem moves_removeAll (path : String) : Moves Stays (removeAll path) := by
  have htrans : ∀ s t u, Stays s t → Stays t u → Stays s u := fun _ _ _ => .trans
  have hput : ∀ (place : Place) (new : Option FileNode),
      (∀ node, new = some node → node.linkFree) →
      Moves Stays (modify fun tree => tree.put place new : Change Unit) :=
    fun place new hnew tree => stays_put hnew tree place
  unfold removeAll
  refine .bind htrans Stays.refl fun tree => .bind htrans (fun state => ?_) fun spot => ?_
  · cases tree.follow false path <;> exact .refl state
  · cases spot with
    | free => exact .throw Stays.refl _
    | taken place =>
      dsimp only
      refine .bind htrans Stays.refl fun tree => ?_
      split
      · refine .bind htrans (hput place _ (by simp [FileNode.linkFree, FileNode.linkFreeIn]))
          fun _ => ?_
        split
        · exact hput place none (by simp)
        · exact .throw Stays.refl _
      · exact hput place none (by simp)

end Transclusion.FileTree
