import Transclusion.Proofs.FilePath.Ancestors
import Transclusion.Proofs.FileTree.Room

/-!
# Creating files below a directory

A path that goes down from a directory is written as a text, and the directories above it are texts
as well. These may be spelled in other ways, but they lead along the same names.

* `FileTree.climbs_ancestorsFrom` — the directories that are made for a file;
* `FileTree.IsFileName`, `FileTree.isFileName_of_place` — the names that a system takes;
* `FileTree.exists_run_create` — where there is room for a file, it can be created with all
  directories it stands in;
* `FileTree.Vacant`, `FileTree.Vacant.exists_roomy` — a destination where there is room for
  anything.
-/

namespace Transclusion.FileTree

open FilePath (Thins descend partsOf components ancestorsFrom ofSteps ofParts)

variable {tree other : FileTree} {root : FileNode} {place origin : Place}
  {directory name path : String} {names row few all : List String} {rows : List (List String)}
  {entries : List (String × FileNode)}

/-! ## The directories above -/

/-- Without some idle parts a path leads to the same place. -/
theorem Leads.thins (hthins : Thins few all) (h : Leads root place all) :
    Leads root place few ∧ spell place few = spell place all := by
  induction hthins generalizing place with
  | nil => exact ⟨h, rfl⟩
  | keep part _ ih =>
    obtain ⟨hleads, hspell⟩ := ih h.2
    exact ⟨⟨h.1, hleads⟩, hspell⟩
  | drop hidle _ ih =>
    obtain ⟨-, h⟩ := h
    rw [spell_cons]
    rw [step, if_pos hidle] at h ⊢
    exact ih h

theorem Roomy.thins (h : Roomy tree origin all rows) (hthins : Thins few all) :
    Roomy tree origin few rows := by
  obtain ⟨hleads, hspell⟩ := h.leads.thins hthins
  exact ⟨h.linkFree, hleads, hspell ▸ h.directory, hspell ▸ h.room⟩

/-- The text of the first steps of a path that a system takes can be taken as well. -/
theorem spells_ofParts (htakable : Takable path) (hstarts : few <+: partsOf (components path))
    (hne : few ≠ []) (hroot : few ≠ [""]) (tree : FileTree) :
    Spells tree (ofParts few) (tree.start path) few := by
  obtain ⟨hparts, habsolute⟩ := FilePath.parts_ofParts_of_isPrefix hstarts hne hroot
  have hsub : few.Sublist (FilePath.parts path) :=
    hstarts.sublist.trans (FilePath.thins_components path).sublist
  refine ⟨⟨?_, ?_, ?_⟩, by rw [start, habsolute, start], hparts⟩
  · intro hempty
    rw [hempty] at hparts
    exact hroot (hparts.symm.trans (by decide))
  · intro hnul
    rcases FilePath.mem_ofParts hnul with heq | ⟨part, hpart, hmem⟩
    · exact absurd heq (by decide)
    · refine htakable.noNul ?_
      rw [← FilePath.ofParts_parts path]
      exact FilePath.mem_ofParts_of_mem (hsub.subset hpart) hmem
  · have hle := FilePath.utf8ByteSize_ofParts_le hsub
    rw [FilePath.ofParts_parts] at hle
    exact Nat.lt_of_le_of_lt hle htakable.short

/-- The directories on the way to what some names lead to, nearest first. -/
theorem climbs_ancestorsFrom (hempty : directory ≠ "")
    (hrow : ∀ name ∈ row, Key.IsName name.toList) (htakable : Takable (descend directory row))
    (hstarts : names <+: row) (tree : FileTree) :
    Climbs tree (tree.start directory) (partsOf (components directory)) names
      (ancestorsFrom (components directory ++ names)) := by
  have hsteps := FilePath.components_ne_nil hempty
  have hstart : tree.start (descend directory row) = tree.start directory := by
    rw [start, start, FilePath.isAbsolute_descend hrow]
  have hbase : partsOf (components directory) ≠ [] := FilePath.partsOf_ne_nil hsteps
  have hspells : ∀ names, names <+: row → partsOf (components directory) ++ names ≠ [""] →
      Spells tree (ofSteps (components directory ++ names)) (tree.start directory)
        (partsOf (components directory) ++ names) := by
    intro names hstarts hroot
    rw [← hstart, ofSteps, FilePath.partsOf_append hsteps]
    refine spells_ofParts htakable ?_ (by simp [hbase]) hroot tree
    rw [FilePath.components_descend hrow, FilePath.partsOf_append hsteps]
    exact (List.prefix_append_right_inj _).mpr hstarts
  induction names using List.reverseRecOn with
  | nil =>
    rw [List.append_nil]
    by_cases hroot : components directory = ["/"]
    · rw [hroot]
      exact .root
    · obtain ⟨front, last, heq, hlast⟩ := FilePath.exists_concat_components hsteps hroot
      have hhere := hspells [] hstarts (by simpa using FilePath.partsOf_components_ne hroot)
      rw [List.append_nil, List.append_nil] at hhere
      rw [heq, FilePath.ancestorsFrom_concat hlast, ← heq]
      exact .base hhere
  | append_singleton names name ih =>
    have hname : name ≠ "/" := by
      rintro rfl
      exact (hrow "/" (hstarts.subset (by simp))).2.2.2 (by decide)
    rw [← List.append_assoc, FilePath.ancestorsFrom_concat hname, List.append_assoc]
    refine .step (hspells _ hstarts fun hone => ?_)
      (ih ((List.prefix_append names [name]).trans hstarts))
    -- the base is a part of its own
    have hlength := congrArg List.length hone
    have hpos := List.length_pos_of_ne_nil hbase
    simp only [List.length_append, List.length_singleton] at hlength
    omega

/-! ## Names of files -/

/-- A name of a file, on the disk and in a path. -/
structure IsFileName (name : String) : Prop where
  isName : Key.IsName name.toList
  noNul : '\x00' ∉ name.toList
  short : name.utf8ByteSize ≤ 255

instance (name : String) : Decidable (IsFileName name) :=
  decidable_of_iff
    (Key.IsName name.toList ∧ '\x00' ∉ name.toList ∧ name.utf8ByteSize ≤ 255)
    ⟨fun ⟨isName, noNul, short⟩ => ⟨isName, noNul, short⟩, fun ⟨isName, noNul, short⟩ =>
      ⟨isName, noNul, short⟩⟩

theorem IsFileName.fits (h : IsFileName name) : Fits name := ⟨.of_isName h.isName, h.short⟩

/-- No part that is followed to something is too long. -/
theorem short_of_followFrom {through : Bool} {links : Nat} {todo : List String} {found : Place}
    (h : followFrom root through links place todo = .ok (.taken found)) :
    ∀ part ∈ todo, IsEntry part → part.utf8ByteSize ≤ 255 := by
  fun_induction followFrom root through links place todo with
  | case1 => exact nofun
  | case2 | case5 | case6 | case7 | case9 | case12 => cases h
  | case3 links place part todo entries _ hidle ih =>
    refine List.forall_mem_cons.mpr ⟨fun hentry => ?_, ih h⟩
    exact absurd (hidle.symm.trans hentry.notIdle) (by decide)
  | case4 links place todo entries _ _ ih =>
    exact List.forall_mem_cons.mpr ⟨fun hentry => absurd rfl hentry.notUp, ih h⟩
  | case8 links place part todo entries _ _ _ hshort target _ hend =>
    have hnil : todo = [] := by simpa using (Bool.and_eq_true_iff.mp hend).1
    subst hnil
    exact List.forall_mem_singleton.mpr fun _ => Nat.not_lt.mp hshort
  | case10 links place part todo entries _ _ _ hshort target _ _ _ ih =>
    exact List.forall_mem_cons.mpr ⟨fun _ => Nat.not_lt.mp hshort,
      fun other hother => ih h other (List.mem_append_right _ hother)⟩
  | case11 links place part todo entries _ _ _ hshort _ _ _ ih =>
    exact List.forall_mem_cons.mpr ⟨fun _ => Nat.not_lt.mp hshort, ih h⟩

/-- The names that lead to something are names of files. -/
theorem isFileName_of_place (hnames : ∀ name ∈ names, Key.IsName name.toList)
    (h : tree.place (descend directory names) = .ok place) : ∀ name ∈ names, IsFileName name := by
  by_cases hne : names = []
  · simp [hne]
  obtain ⟨htakable, hfollow⟩ := follow_eq_ok_iff.mp (place_eq_ok_iff_follow.mp h)
  obtain ⟨front, -, -, -, hparts⟩ := FilePath.exists_parts_descend hne hnames directory
  intro name hname
  have hmem : name ∈ FilePath.parts (descend directory names) := by
    rw [hparts]
    exact List.mem_append_right _ hname
  refine ⟨hnames name hname, fun hnul => htakable.noNul ?_,
    short_of_followFrom hfollow name hmem (.of_isName (hnames name hname))⟩
  rw [← FilePath.ofParts_parts (descend directory names)]
  exact FilePath.mem_ofParts_of_mem hmem hnul

/-- Names of files behind a path make one that a system takes, if it is short enough. -/
theorem takable_descend (htakable : Takable directory) (hne : names ≠ [])
    (hnames : ∀ name ∈ names, IsFileName name)
    (hshort : (descend directory names).utf8ByteSize < pathLimit) :
    Takable (descend directory names) := by
  have hisName : ∀ name ∈ names, Key.IsName name.toList := fun name hname =>
    (hnames name hname).isName
  refine ⟨(FilePath.not_slashed_descend hne hisName directory).1, fun hnul => ?_, hshort⟩
  obtain ⟨front, rest, hdirectory, -, hparts⟩ :=
    FilePath.exists_parts_descend hne hisName directory
  rw [← FilePath.ofParts_parts (descend directory names), hparts] at hnul
  rcases FilePath.mem_ofParts hnul with heq | ⟨part, hpart, hmem⟩
  · exact absurd heq (by decide)
  rcases List.mem_append.mp hpart with hpart | hpart
  · refine htakable.noNul ?_
    rw [← FilePath.ofParts_parts directory, hdirectory]
    exact FilePath.mem_ofParts_of_mem (List.mem_append_left rest hpart) hmem
  · exact (hnames part hpart).noNul hmem

/-- Names below a directory lead to what stands under them. -/
theorem place_descend (hfree : tree.root.linkFree) (hplace : tree.place directory = .ok place)
    (hnames : ∀ name ∈ names, IsFileName name)
    (hshort : (descend directory names).utf8ByteSize < pathLimit) {node : FileNode}
    (hat : tree.root.at? (place ++ names) = some node) :
    tree.place (descend directory names) = .ok (place ++ names) := by
  by_cases hne : names = []
  · rw [hne, FilePath.descend_nil, List.append_nil, hplace]
  have hisName : ∀ name ∈ names, Key.IsName name.toList := fun name hname =>
    (hnames name hname).isName
  obtain ⟨htakable, hleads, rfl⟩ := (place_eq_ok_iff hfree).mp hplace
  obtain ⟨front, rest, hdirectory, hrest, hparts⟩ :=
    FilePath.exists_parts_descend hne hisName directory
  have hthins : Thins front (FilePath.parts directory) := by
    rw [hdirectory]
    exact FilePath.thins_append (fun part hpart => hrest part hpart ▸ rfl) front
  obtain ⟨hfront, hspell⟩ := hleads.thins hthins
  refine (place_eq_ok_iff hfree).mpr ⟨takable_descend htakable hne hnames hshort, ?_,
    (target_descend hisName tree directory).symm⟩
  rw [start, FilePath.isAbsolute_descend hisName, ← start, hparts, leads_append, hspell]
  exact ⟨hfront, leads_of_at? (fun name hname => (hnames name hname).fits) hat⟩

/-! ## Creating files -/

/-- Where there is room for a file, the directories on the way to it can be made, and then it can be
written. -/
theorem exists_run_create (hempty : directory ≠ "") (hapart : Apart rows)
    (hnames : ∀ row ∈ rows, ∀ name ∈ row, IsFileName name)
    (h : Roomy tree (tree.start directory) (FilePath.parts directory) rows)
    (hrow : names ++ [name] ∈ rows) (htakable : Takable (descend directory (names ++ [name])))
    (bytes : ByteArray) :
    ∃ middle after,
      (makeDirectories (FilePath.parent (descend directory (names ++ [name])))).run.run tree =
        (.ok (), middle) ∧
      (write (descend directory (names ++ [name])) bytes).run.run middle = (.ok (), after) ∧
      Stays tree after ∧ Roomy after (tree.start directory) (FilePath.parts directory) rows := by
  have hfits : ∀ row ∈ rows, ∀ name ∈ row, Fits name := fun row hrow name hname =>
    (hnames row hrow name hname).fits
  have hisName : ∀ other ∈ names ++ [name], Key.IsName other.toList := fun other hother =>
    (hnames _ hrow other hother).isName
  obtain ⟨hfront, hlast⟩ := List.forall_mem_append.mp hisName
  have hstarts : names <+: names ++ [name] := List.prefix_append names [name]
  have hclimbs := climbs_ancestorsFrom hempty hisName htakable hstarts tree
  rw [← FilePath.ancestors_parent_descend hfront (hlast name List.mem_cons_self)] at hclimbs
  obtain ⟨middle, hmake, hmade, habove⟩ := exists_run_makeDirectoriesFrom hapart hfits
    (h.thins (FilePath.thins_components directory)) hrow hstarts (by simp) hclimbs
  have hleaves := moves_makeDirectoriesFrom
    (FilePath.ancestors (FilePath.parent (descend directory (names ++ [name])))) tree
  rw [hmake] at hleaves
  have hsame : spell (tree.start directory) (partsOf (components directory)) =
      spell (tree.start directory) (FilePath.parts directory) :=
    (h.leads.thins (FilePath.thins_components directory)).2
  have hmiddle : Roomy middle (tree.start directory) (FilePath.parts directory) rows :=
    h.of_leaves hleaves (hsame ▸ hmade.room)
  -- the path itself goes on behind the directory as it is spelled, but for empty parts at its end
  obtain ⟨front, rest, hdirectory, hrest, hpath⟩ :=
    FilePath.exists_parts_descend (by simp) hisName directory
  have hthins : Thins front (FilePath.parts directory) := by
    rw [hdirectory]
    exact FilePath.thins_append (fun part hpart => hrest part hpart ▸ rfl) front
  have hspells : Spells middle (descend directory (names ++ [name])) (tree.start directory)
      (front ++ (names ++ [name])) := by
    refine ⟨htakable, (hleaves.start_eq _).trans ?_, hpath⟩
    rw [start, start, FilePath.isAbsolute_descend hisName]
  rw [hsame, ← (h.leads.thins hthins).2] at habove
  obtain ⟨after, hwrite, hroomy⟩ :=
    exists_run_write hapart hfits (hmiddle.thins hthins) hrow hspells habove bytes
  have hwritten := (read_of_run_write hmiddle.linkFree hwrite).2
  refine ⟨middle, after, hmake, hwrite, hleaves.toStays.trans hwritten.toStays,
    hmiddle.of_leaves hwritten ?_⟩
  rw [← (h.leads.thins hthins).2]
  exact hroomy.room

/-! ## Destinations -/

/-- Nothing is in the way at a destination: it is an empty directory, or a name in a directory under
which there is nothing. -/
inductive Vacant (tree : FileTree) (destination : String) : Prop
  | empty (nothing : tree.list destination = .ok [])
  | free {directory name : String} (isBelow : destination = FilePath.join directory name)
      (isFileName : IsFileName name) (isDirectory : tree.isDirectory directory = true)
      (short : destination.utf8ByteSize < pathLimit) (nothing : tree.exists? destination = false)

/-- In a directory where nothing stands under the first names of some rows there is room for them.
-/
theorem room_of_nothing (hat : root.at? place = some (.directory entries))
    (hnone : ∀ row ∈ rows, row ≠ [] ∧ ∀ front, front <+: row → front ≠ [] →
      root.at? (place ++ front) = none) : Room root place rows := by
  refine ⟨fun row hrow front hstarts _ node hnode => ?_, fun row hrow node hnode => ?_⟩
  · by_cases hfront : front = []
    · subst hfront
      rw [List.append_nil] at hnode
      exact ⟨entries, Option.some.inj (hnode.symm.trans hat)⟩
    · cases ((hnone row hrow).2 front hstarts hfront).symm.trans hnode
  · obtain ⟨hne, hnone⟩ := hnone row hrow
    cases (hnone row (List.prefix_refl row) hne).symm.trans hnode

/-- Where a name in a directory leads to nothing, nothing stands there. -/
theorem at?_of_not_exists (hfree : tree.root.linkFree) (hplace : tree.place directory = .ok place)
    (hname : IsFileName name) (hshort : (FilePath.join directory name).utf8ByteSize < pathLimit)
    (hnothing : tree.exists? (FilePath.join directory name) = false) :
    tree.root.at? (place ++ [name]) = none := by
  by_contra hsome
  obtain ⟨node, hnode⟩ := Option.ne_none_iff_exists'.mp hsome
  have hbelow : tree.place (FilePath.join directory name) = .ok (place ++ [name]) :=
    place_descend hfree hplace (List.forall_mem_singleton.mpr hname) hshort hnode
  rw [exists?, FileTree.node, hbelow] at hnothing
  dsimp only at hnothing
  rw [hnode] at hnothing
  cases hnothing

/-- At a vacant destination there is room for files under any names. -/
theorem Vacant.exists_roomy {destination : String} (hfree : tree.root.linkFree)
    (h : Vacant tree destination) (hne : [] ∉ rows) :
    ∃ directory before, directory ≠ "" ∧ (∀ name ∈ before, IsFileName name) ∧
      (∀ row, descend destination row = descend directory (before ++ row)) ∧
      Takable destination ∧
      Roomy tree (tree.start directory) (FilePath.parts directory) (rows.map (before ++ ·)) := by
  cases h with
  | empty hnothing =>
    obtain ⟨place, entries, hplace, hat, hnil⟩ := list_eq_ok_iff.mp hnothing
    obtain rfl : entries = [] := List.map_eq_nil_iff.mp hnil.symm
    obtain ⟨htakable, hleads, rfl⟩ := (place_eq_ok_iff hfree).mp hplace
    refine ⟨destination, [], htakable.notEmpty, nofun, fun row => rfl, htakable, ?_⟩
    refine ⟨hfree, hleads, ⟨[], hat⟩, room_of_nothing hat fun row hrow => ?_⟩
    simp only [List.nil_append, List.map_id'] at hrow
    refine ⟨fun hnil => hne (hnil ▸ hrow), fun front _ hfront => ?_⟩
    obtain ⟨name, front, rfl⟩ := List.exists_cons_of_ne_nil hfront
    exact (FileNode.at?_append _ _ _).trans (by rw [← target, hat]; rfl)
  | @free directory name hbelow hname hdirectory hshort hnothing =>
    subst hbelow
    obtain ⟨place, entries, hplace, hat⟩ := isDirectory_iff.mp hdirectory
    have hnone := at?_of_not_exists hfree hplace hname hshort hnothing
    obtain ⟨htakable, hleads, rfl⟩ := (place_eq_ok_iff hfree).mp hplace
    have hdestination : Takable (FilePath.join directory name) :=
      takable_descend htakable (List.cons_ne_nil name []) (by simpa using hname) hshort
    refine ⟨directory, [name], htakable.notEmpty, by simpa using hname, fun row => rfl,
      hdestination, hfree, hleads, ⟨entries, hat⟩, room_of_nothing hat fun row hrow => ?_⟩
    obtain ⟨row, -, rfl⟩ := List.mem_map.mp hrow
    refine ⟨by simp, fun front hstarts hfront => ?_⟩
    obtain ⟨first, front, rfl⟩ := List.exists_cons_of_ne_nil hfront
    obtain ⟨rfl, -⟩ := List.cons_prefix_cons.mp hstarts
    rw [List.append_cons, FileNode.at?_append, ← target, hnone]
    rfl

end Transclusion.FileTree
