import Transclusion.Proofs.FileTree.Change

/-!
# Room for files

Files can be written below a directory where nothing is in their way: what stands on the way to one
of them is a directory, and what stands in its place is a file. This stays so while directories are
made and files written.

* `FileTree.Room` — nothing is in the way; `FileTree.Room.put` — it stays so;
* `FileTree.Roomy` — a tree without links where a base leads to such a directory;
* `FileTree.Climbs` — the paths of a directory below the base and of those above it;
* `FileTree.exists_run_makeDirectoriesFrom` — such directories can be made,
* `FileTree.exists_run_write` — and then files be written.
-/

namespace Transclusion.FileTree

variable {tree other : FileTree} {root : FileNode} {place origin : Place} {name path : String}
  {names front row base paths : List String} {rows : List (List String)}

/-! ## Names below a place -/

/-- The name fits into a directory. -/
structure Fits (name : String) : Prop extends IsEntry name where
  short : name.utf8ByteSize ≤ 255

/-- Names lead to what stands behind them. -/
theorem leads_of_at? (h : ∀ name ∈ names, Fits name) {node : FileNode}
    (hat : root.at? (place ++ names) = some node) : Leads root place names := by
  induction names generalizing place with
  | nil => trivial
  | cons name names ih =>
    obtain ⟨hname, hnames⟩ := List.forall_mem_cons.mp h
    rw [List.append_cons] at hat
    have hnext := hat
    rw [FileNode.at?_append] at hnext
    obtain ⟨child, hchild, -⟩ := Option.bind_eq_some_iff.mp hnext
    refine ⟨⟨FileNode.exists_directory hchild, fun _ => ⟨hname.short, child, hchild⟩⟩, ?_⟩
    rw [step_of_isEntry hname.toIsEntry]
    exact ih hnames hat

/-- At a name that is free a path ends, or leads nowhere. -/
theorem followFrom_of_free (hname : Fits name) {entries : List (String × FileNode)}
    (hhere : root.at? place = some (.directory entries)) (hnone : root.at? (place ++ [name]) = none)
    (through : Bool) (links : Nat) (todo : List String) :
    followFrom root through links place (name :: todo) =
      if todo.all (· = "") then .ok (.free place name (!todo.isEmpty)) else .error .notFound := by
  rw [followFrom, hhere]
  dsimp only
  rw [if_neg (by simp [hname.notIdle]), if_neg hname.notUp, if_neg (Nat.not_lt.mpr hname.short),
    ← FileNode.at?_concat hhere, hnone]

/-! ## Room -/

/-- No row of names goes on behind another one. -/
def Apart (rows : List (List String)) : Prop :=
  ∀ row ∈ rows, ∀ other ∈ rows, row <+: other → row = other

theorem ne_of_concat_isPrefix (h : names ++ [name] <+: row) : names ≠ row := by
  rintro rfl
  have hlength := h.length_le
  rw [List.length_append, List.length_singleton] at hlength
  omega

/-- On the way to files under some rows of names there are only directories, and in their places
only files. -/
structure Room (root : FileNode) (place : Place) (rows : List (List String)) : Prop where
  directory : ∀ row ∈ rows, ∀ front, front <+: row → front ≠ row → ∀ node,
    root.at? (place ++ front) = some node → ∃ entries, node = .directory entries
  file : ∀ row ∈ rows, ∀ node, root.at? (place ++ row) = some node → ∃ bytes, node = .file bytes

/-- There is still room when a directory is put on the way to a file, or a file in its place. -/
theorem Room.put {new : FileNode} {entries : List (String × FileNode)}
    (h : Room root place rows) (hat : root.at? (place ++ front) = some (.directory entries))
    (hleaf : ∀ below, below ≠ [] → new.at? below = none)
    (hdirectory : ∀ row ∈ rows, front ++ [name] <+: row → front ++ [name] ≠ row →
      ∃ entries, new = .directory entries)
    (hfile : front ++ [name] ∈ rows → ∃ bytes, new = .file bytes) :
    Room (root.put (some new) (place ++ front ++ [name])) place rows := by
  have hput := FileNode.at?_put new hat name
  have hself : ∀ names below node, place ++ names = place ++ front ++ [name] ++ below →
      new.at? below = some node → names = front ++ [name] ∧ node = new := by
    intro names below node heq hbelow
    have hnil : below = [] := by
      by_contra hne
      exact nomatch (hleaf below hne).symm.trans hbelow
    subst hnil
    refine ⟨by simpa using heq, (Option.some.inj hbelow).symm⟩
  refine ⟨fun row hrow names hstarts hne node hnode => ?_, fun row hrow node hnode => ?_⟩
  · rcases hput (place ++ names) with ⟨below, heq, hnew⟩ | ⟨-, hsame | ⟨-, after, -, hafter⟩⟩
    · obtain ⟨rfl, rfl⟩ := hself names below node heq (hnew.symm.trans hnode)
      exact hdirectory row hrow hstarts hne
    · exact h.directory row hrow names hstarts hne node (hsame.symm.trans hnode)
    · exact ⟨after, Option.some.inj (hnode.symm.trans hafter)⟩
  · rcases hput (place ++ row) with ⟨below, heq, hnew⟩ | ⟨-, hsame | ⟨before, -, hbefore, -⟩⟩
    · obtain ⟨rfl, rfl⟩ := hself row below node heq (hnew.symm.trans hnode)
      exact hfile hrow
    · exact h.file row hrow node (hsame.symm.trans hnode)
    · obtain ⟨bytes, heq⟩ := h.file row hrow _ hbefore
      exact nomatch heq

/-! ## Making directories -/

/-- A directory stands at the place. -/
def HasDirectory (tree : FileTree) (place : Place) : Prop :=
  ∃ entries, tree.root.at? place = some (.directory entries)

/-- A path has these parts and starts at this place. -/
structure Spells (tree : FileTree) (path : String) (origin : Place) (all : List String) : Prop where
  takable : Takable path
  start : tree.start path = origin
  parts : FilePath.parts path = all

theorem Spells.stays (h : Spells tree path origin names) (hstays : Stays tree other) :
    Spells other path origin names := by
  exact ⟨h.takable, (hstays.start_eq path).trans h.start, h.parts⟩

theorem Spells.follow (h : Spells tree path origin names) (through : Bool) :
    tree.follow through path = followFrom tree.root through linkLimit origin names := by
  rw [follow_of_takable h.takable, h.start, h.parts]

theorem Spells.isDirectory (h : Spells tree path origin names) (hfree : tree.root.linkFree)
    (hleads : Leads tree.root origin names) (hhere : HasDirectory tree (spell origin names)) :
    tree.isDirectory path = true := by
  obtain ⟨entries, hat⟩ := hhere
  refine isDirectory_iff.mpr ⟨_, entries, (place_eq_ok_iff hfree).mpr ⟨h.takable, ?_, rfl⟩, ?_⟩
  · rw [h.start, h.parts]
    exact hleads
  · rw [target, h.start, h.parts, hat]

/-- The paths of what some names lead to, nearest first: below where the base leads, one for each
name, and in front of the base any. -/
inductive Climbs (tree : FileTree) (origin : Place) (base : List String) :
    List String → List String → Prop
  /-- The base is the root. -/
  | root : Climbs tree origin base [] []
  | base {path : String} {outer : List String} (spells : Spells tree path origin base) :
      Climbs tree origin base [] (path :: outer)
  | step {names : List String} {name path : String} {outer : List String}
      (spells : Spells tree path origin (base ++ (names ++ [name])))
      (above : Climbs tree origin base names outer) :
      Climbs tree origin base (names ++ [name]) (path :: outer)

/-- Without links, a base leads to a directory, and below it there is room. -/
structure Roomy (tree : FileTree) (origin : Place) (base : List String)
    (rows : List (List String)) : Prop where
  linkFree : tree.root.linkFree
  leads : Leads tree.root origin base
  directory : HasDirectory tree (spell origin base)
  room : Room tree.root (spell origin base) rows

theorem Roomy.of_leaves {changed : Place → Prop} (h : Roomy tree origin base rows)
    (hleaves : Leaves changed tree other) (hroom : Room other.root (spell origin base) rows) :
    Roomy other origin base rows := by
  obtain ⟨entries, hat⟩ := h.directory
  have hkept := hleaves.kept h.linkFree
  exact ⟨hleaves.linkFree h.linkFree, h.leads.kept hkept h.linkFree,
    hkept.directory _ entries hat, hroom⟩

/-- Names below the base lead to what stands there. -/
theorem Roomy.leads_of_at? (h : Roomy tree origin base rows) (hfits : ∀ name ∈ names, Fits name)
    {node : FileNode} (hat : tree.root.at? (spell origin base ++ names) = some node) :
    Leads tree.root origin (base ++ names) ∧
      spell origin (base ++ names) = spell origin base ++ names := by
  rw [leads_append, spell_append, spell_of_isEntry fun name hname => (hfits name hname).toIsEntry]
  exact ⟨⟨h.leads, FileTree.leads_of_at? hfits hat⟩, rfl⟩

section Making

variable (hapart : Apart rows) (hfits : ∀ row ∈ rows, ∀ name ∈ row, Fits name)

include hapart hfits

/-- In a directory another one can be made, or it is there. -/
theorem run_makeDirectory_of_hasDirectory (h : Roomy tree origin base rows) (hrow : row ∈ rows)
    (hstarts : names ++ [name] <+: row) (hne : names ++ [name] ≠ row)
    (hspells : Spells tree path origin (base ++ (names ++ [name])))
    (habove : HasDirectory tree (spell origin base ++ names)) :
    (HasDirectory tree (spell origin base ++ (names ++ [name])) ∧ tree.isDirectory path = true ∧
      (makeDirectory path).run.run tree = (.error .alreadyExists, tree)) ∨
    ∃ after, (makeDirectory path).run.run tree = (.ok (), after) ∧ Roomy after origin base rows ∧
      HasDirectory after (spell origin base ++ (names ++ [name])) := by
  have hall : ∀ other ∈ names ++ [name], Fits other := fun other hother =>
    hfits row hrow other (hstarts.subset hother)
  obtain ⟨hnames, hname⟩ := List.forall_mem_append.mp hall
  cases hat : tree.root.at? (spell origin base ++ (names ++ [name])) with
  | some node =>
    obtain ⟨entries, rfl⟩ := h.room.directory row hrow _ hstarts hne node hat
    obtain ⟨hleads, hspell⟩ := h.leads_of_at? hall hat
    have hthere : HasDirectory tree (spell origin base ++ (names ++ [name])) := ⟨entries, hat⟩
    refine .inl ⟨hthere, hspells.isDirectory h.linkFree hleads (hspell ▸ hthere), ?_⟩
    rw [run_makeDirectory, hspells.follow,
      (followFrom_eq_taken_iff h.linkFree _ _).mpr ⟨hleads, rfl⟩]
  | none =>
    obtain ⟨entries, habove⟩ := habove
    obtain ⟨hleads, hspell⟩ := h.leads_of_at? hnames habove
    rw [← List.append_assoc] at hat
    have hfollow :
        tree.follow false path = .ok (.free (spell origin base ++ names) name false) := by
      rw [hspells.follow, ← List.append_assoc,
        followFrom_append_of_leads h.linkFree _ _ hleads, hspell,
        followFrom_of_free (hname name List.mem_cons_self) habove hat]
      rfl
    have hrun := run_makeDirectory path tree
    rw [hfollow] at hrun
    have hleaves := moves_makeDirectory path tree
    rw [hrun] at hleaves
    refine .inr ⟨_, hrun, h.of_leaves hleaves (h.room.put habove ?_ ?_ ?_), [], ?_⟩
    · rintro (_ | ⟨first, below⟩) hbelow
      · exact absurd rfl hbelow
      · rfl
    · exact fun _ _ _ _ => ⟨[], rfl⟩
    · intro hmem
      exact absurd (hapart _ hmem row hrow hstarts) hne
    · rw [← List.append_assoc]
      exact FileNode.at?_put_self _ habove name

omit hapart hfits in
/-- Where something is missing on the way, the way ends in a directory. -/
theorem Roomy.exists_gap (h : Roomy tree origin base rows) (hrow : row ∈ rows)
    (hstarts : names <+: row) (hmissing : tree.root.at? (spell origin base ++ names) = none) :
    ∃ front first rest, names = front ++ first :: rest ∧
      HasDirectory tree (spell origin base ++ front) ∧
      tree.root.at? (spell origin base ++ front ++ [first]) = none := by
  induction names using List.reverseRecOn with
  | nil =>
    obtain ⟨entries, hat⟩ := h.directory
    rw [List.append_nil, hat] at hmissing
    exact nomatch hmissing
  | append_singleton names name ih =>
    have hfront : names <+: row := (List.prefix_append names [name]).trans hstarts
    cases hat : tree.root.at? (spell origin base ++ names) with
    | none =>
      obtain ⟨front, first, rest, rfl, hgap⟩ := ih hfront hat
      exact ⟨front, first, rest ++ [name], by simp, hgap⟩
    | some node =>
      obtain ⟨entries, rfl⟩ :=
        h.room.directory row hrow names hfront (ne_of_concat_isPrefix hstarts) node hat
      exact ⟨names, name, [], rfl, ⟨entries, hat⟩, by rwa [List.append_assoc]⟩

omit hapart in
/-- In a directory that is missing none can be made. -/
theorem follow_of_missing (h : Roomy tree origin base rows) (hrow : row ∈ rows)
    (hstarts : names ++ [name] <+: row)
    (hspells : Spells tree path origin (base ++ (names ++ [name])))
    (hmissing : tree.root.at? (spell origin base ++ names) = none) (through : Bool) :
    tree.follow through path = .error .notFound := by
  obtain ⟨front, first, rest, rfl, ⟨entries, hhere⟩, hnone⟩ :=
    h.exists_gap hrow ((List.prefix_append _ [name]).trans hstarts) hmissing
  have hall : ∀ other ∈ front ++ first :: rest ++ [name], Fits other := fun other hother =>
    hfits row hrow other (hstarts.subset hother)
  have hname := (hall name (by simp)).notIdle
  have hempty : name ≠ "" := by
    rintro rfl
    exact absurd hname (by decide)
  obtain ⟨hleads, hspell⟩ :=
    h.leads_of_at? (fun other hother => hall other (by simp [hother])) hhere
  rw [hspells.follow, List.append_assoc, ← List.append_assoc base,
    followFrom_append_of_leads h.linkFree _ _ hleads, hspell, List.cons_append,
    followFrom_of_free (hall first (by simp)) hhere hnone, if_neg]
  simp [hempty]

/-- A directory on the way to a file can be made in one that is there, and it may be there already.
-/
theorem exists_run_tryCatch_makeDirectory (h : Roomy tree origin base rows) (hrow : row ∈ rows)
    (hstarts : names ++ [name] <+: row) (hne : names ++ [name] ≠ row)
    (hspells : Spells tree path origin (base ++ (names ++ [name])))
    (habove : HasDirectory tree (spell origin base ++ names)) {handle : Error → Change Unit}
    (hhandle : handle .alreadyExists = unlessDirectory path .alreadyExists) :
    ∃ after, (tryCatch (makeDirectory path) handle).run.run tree = (.ok (), after) ∧
      Roomy after origin base rows ∧
      HasDirectory after (spell origin base ++ (names ++ [name])) := by
  rw [run_run_tryCatch]
  obtain ⟨hthere, hdirectory, hrun⟩ | ⟨after, hrun, hafter⟩ :=
    run_makeDirectory_of_hasDirectory hapart hfits h hrow hstarts hne hspells habove
  · refine ⟨tree, ?_, h, hthere⟩
    rw [hrun]
    dsimp only
    rw [hhandle, run_unlessDirectory, if_pos hdirectory]
  · refine ⟨after, ?_, hafter⟩
    rw [hrun]

/-- The directories on the way to a file can be made. -/
theorem exists_run_makeDirectoriesFrom (h : Roomy tree origin base rows) (hrow : row ∈ rows)
    (hstarts : names <+: row) (hne : names ≠ row) (hclimbs : Climbs tree origin base names paths) :
    ∃ after, (makeDirectoriesFrom paths).run.run tree = (.ok (), after) ∧
      Roomy after origin base rows ∧ HasDirectory after (spell origin base ++ names) := by
  induction hclimbs with
  | root => exact ⟨tree, rfl, h, by simpa using h.directory⟩
  | @base path outer spells =>
    refine ⟨tree, ?_, h, by simpa using h.directory⟩
    rw [makeDirectoriesFrom_cons, run_run_tryCatch, run_makeDirectory, spells.follow,
      (followFrom_eq_taken_iff h.linkFree _ _).mpr ⟨h.leads, rfl⟩]
    exact (run_unlessDirectory path .alreadyExists tree).trans
      (by rw [if_pos (spells.isDirectory h.linkFree h.leads h.directory)])
  | @step names name path outer spells above ih =>
    have hfront : names <+: row := (List.prefix_append names [name]).trans hstarts
    have hfrontne : names ≠ row := ne_of_concat_isPrefix hstarts
    rw [makeDirectoriesFrom_cons]
    cases hat : tree.root.at? (spell origin base ++ names) with
    | some node =>
      obtain ⟨entries, rfl⟩ := h.room.directory row hrow names hfront hfrontne node hat
      exact exists_run_tryCatch_makeDirectory hapart hfits h hrow hstarts hne spells
        ⟨entries, hat⟩ rfl
    | none =>
      obtain ⟨middle, hmiddle, hroomy, habove⟩ := ih hfront hfrontne
      have hleaves := moves_makeDirectoriesFrom outer tree
      rw [hmiddle] at hleaves
      have hmissing := run_makeDirectory path tree
      rw [follow_of_missing hfits h hrow hstarts spells hat] at hmissing
      rw [run_run_tryCatch, hmissing]
      dsimp only
      rw [if_pos rfl, run_run_bind, hmiddle]
      exact exists_run_tryCatch_makeDirectory hapart hfits hroomy hrow hstarts hne
        (spells.stays hleaves.toStays) habove rfl

/-- A file can be written in a directory that is there. -/
theorem exists_run_write (h : Roomy tree origin base rows) (hrow : names ++ [name] ∈ rows)
    (hspells : Spells tree path origin (base ++ (names ++ [name])))
    (habove : HasDirectory tree (spell origin base ++ names)) (bytes : ByteArray) :
    ∃ after, (write path bytes).run.run tree = (.ok (), after) ∧ Roomy after origin base rows := by
  have hall : ∀ other ∈ names ++ [name], Fits other := hfits _ hrow
  obtain ⟨hnames, hname⟩ := List.forall_mem_append.mp hall
  obtain ⟨entries, habove⟩ := habove
  -- whether the file is new or not, it is put in its place
  have hrun : (write path bytes).run.run tree =
      (.ok (), tree.put (spell origin base ++ names ++ [name]) (some (.file bytes))) := by
    rw [run_write, hspells.follow]
    cases hat : tree.root.at? (spell origin base ++ (names ++ [name])) with
    | some node =>
      obtain ⟨old, rfl⟩ := h.room.file _ hrow node hat
      obtain ⟨hleads, hspell⟩ := h.leads_of_at? hall hat
      rw [(followFrom_eq_taken_iff h.linkFree _ _).mpr ⟨hleads, rfl⟩, hspell]
      dsimp only
      rw [hat, List.append_assoc]
    | none =>
      obtain ⟨hleads, hspell⟩ := h.leads_of_at? hnames habove
      rw [← List.append_assoc] at hat
      rw [← List.append_assoc, followFrom_append_of_leads h.linkFree _ _ hleads, hspell,
        followFrom_of_free (hname name List.mem_cons_self) habove hat]
      rfl
  refine ⟨_, hrun, h.of_leaves (read_of_run_write h.linkFree hrun).2 (h.room.put habove ?_ ?_ ?_)⟩
  · rintro (_ | ⟨first, below⟩) hbelow
    · exact absurd rfl hbelow
    · rfl
  · intro row hmem hstarts hne
    exact absurd (hapart _ hrow row hmem hstarts) hne
  · exact fun _ => ⟨bytes, rfl⟩

end Making

end Transclusion.FileTree
