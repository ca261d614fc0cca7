import Transclusion.Proofs.FilePath.Relative
import Transclusion.Proofs.FileTree.Put

/-!
# Paths without links

Where no link is in a tree, a path denotes the place that its parts spell, as long as they lead
through directories.

* `FileTree.spell` — the place that parts spell, and `FileTree.Leads` — that they lead there;
* `FileTree.followFrom_append_of_leads`, `FileTree.followFrom_eq_taken_iff`,
  `FileTree.exists_of_followFrom_eq_free` — how parts are followed;
* `FileTree.Leads.kept` — parts that lead somewhere still do so when something was put into the
  tree;
* `FileTree.place_eq_ok_iff`, `FileTree.target_descend` — the place that a path denotes, and names
  below a directory stand behind its place.
-/

namespace Transclusion.FileTree

open FileNode (Kept)

variable {root root' : FileNode} {place : Place} {part : String} {front todo : List String}

/-! ## Places that parts spell -/

/-- The place that a part leads to. -/
def step (place : Place) (part : String) : Place :=
  if FilePath.isIdle part then place
  else if part = ".." then place.dropLast
  else place ++ [part]

/-- The place that parts lead to, one after the other. -/
def spell (place : Place) (parts : List String) : Place :=
  parts.foldl step place

@[simp] theorem spell_nil (place : Place) : spell place [] = place := rfl

@[simp] theorem spell_cons (place : Place) (part : String) (todo : List String) :
    spell place (part :: todo) = spell (step place part) todo := rfl

@[simp] theorem spell_append (place : Place) (front todo : List String) :
    spell place (front ++ todo) = spell (spell place front) todo :=
  List.foldl_append

/-- The part names something in a directory. -/
structure IsEntry (part : String) : Prop where
  notIdle : FilePath.isIdle part = false
  notUp : part ≠ ".."

theorem IsEntry.of_isName (h : Key.IsName part.toList) : IsEntry part := by
  refine ⟨FilePath.isIdle_of_isName h, ?_⟩
  rintro rfl
  exact h.2.2.1 rfl

theorem step_of_isEntry (h : IsEntry part) (place : Place) : step place part = place ++ [part] := by
  rw [step, if_neg (by simp [h.notIdle]), if_neg h.notUp]

theorem spell_of_isEntry {names : List String} (h : ∀ name ∈ names, IsEntry name) (place : Place) :
    spell place names = place ++ names := by
  induction names generalizing place with
  | nil => simp
  | cons name names ih =>
    obtain ⟨hname, hnames⟩ := List.forall_mem_cons.mp h
    rw [spell_cons, step_of_isEntry hname, ih hnames, List.append_assoc, List.singleton_append]

theorem spell_of_isIdle {rest : List String} (h : ∀ part ∈ rest, FilePath.isIdle part = true)
    (place : Place) : spell place rest = place := by
  induction rest generalizing place with
  | nil => rfl
  | cons part rest ih =>
    obtain ⟨hpart, hrest⟩ := List.forall_mem_cons.mp h
    rw [spell_cons, step, if_pos hpart, ih hrest]

/-! ## Following parts -/

/-- A part can be followed: it stands in a directory, and if it is a name there is something under
that name. -/
structure Passes (root : FileNode) (place : Place) (part : String) : Prop where
  directory : ∃ entries, root.at? place = some (.directory entries)
  entry : IsEntry part →
    part.utf8ByteSize ≤ 255 ∧ ∃ node, root.at? (place ++ [part]) = some node

/-- One part after the other can be followed. -/
def Leads (root : FileNode) (place : Place) : List String → Prop
  | [] => True
  | part :: todo => Passes root place part ∧ Leads root (step place part) todo

theorem leads_append :
    Leads root place (front ++ todo) ↔
      Leads root place front ∧ Leads root (spell place front) todo := by
  induction front generalizing place with
  | nil => simp [Leads]
  | cons part front ih => rw [List.cons_append, Leads, Leads, ih, spell_cons, and_assoc]

section LinkFree

variable (hfree : root.linkFree) (through : Bool) (links : Nat)

include hfree

/-- A part that can be followed is followed, without a link. -/
theorem followFrom_cons_of_passes (h : Passes root place part) (todo : List String) :
    followFrom root through links place (part :: todo) =
      followFrom root through links (step place part) todo := by
  obtain ⟨entries, hhere⟩ := h.directory
  rw [followFrom, hhere]
  dsimp only
  by_cases hidle : FilePath.isIdle part = true
  · rw [if_pos hidle, step, if_pos hidle]
  by_cases hup : part = ".."
  · rw [if_neg hidle, if_pos hup, step, if_neg hidle, if_pos hup]
  have hentry : IsEntry part := ⟨by simpa using hidle, hup⟩
  obtain ⟨hshort, node, hnode⟩ := h.entry hentry
  have hplain := FileNode.linkFree_at? hfree hnode
  rw [if_neg hidle, if_neg hup, if_neg (Nat.not_lt.mpr hshort), ← FileNode.at?_concat hhere, hnode,
    step_of_isEntry hentry]
  cases node with
  | link target => cases hplain
  | file bytes => rfl
  | directory inside => rfl

theorem followFrom_append_of_leads (h : Leads root place front) (todo : List String) :
    followFrom root through links place (front ++ todo) =
      followFrom root through links (spell place front) todo := by
  induction front generalizing place with
  | nil => rfl
  | cons part front ih =>
    rw [List.cons_append, followFrom_cons_of_passes hfree through links h.1, ih h.2, spell_cons]

/-- Following a part goes on behind it, or ends at a name that is free, or fails. -/
theorem followFrom_cons_eq_ok {spot : Spot}
    (h : followFrom root through links place (part :: todo) = .ok spot) :
    (Passes root place part ∧ followFrom root through links (step place part) todo = .ok spot) ∨
      ((∃ entries, root.at? place = some (.directory entries)) ∧ IsEntry part ∧
        part.utf8ByteSize ≤ 255 ∧ root.at? (place ++ [part]) = none ∧
        (∀ other ∈ todo, other = "") ∧ spot = .free place part (!todo.isEmpty)) := by
  rw [followFrom] at h
  split at h
  · cases h
  · next entries hhere =>
    by_cases hidle : FilePath.isIdle part = true
    · rw [if_pos hidle] at h
      refine .inl ⟨⟨⟨entries, hhere⟩, fun hentry => ?_⟩, by rwa [step, if_pos hidle]⟩
      exact absurd (hidle.symm.trans hentry.notIdle) (by decide)
    by_cases hup : part = ".."
    · rw [if_neg hidle, if_pos hup] at h
      exact .inl ⟨⟨⟨entries, hhere⟩, fun hentry => absurd hup hentry.notUp⟩,
        by rwa [step, if_neg hidle, if_pos hup]⟩
    have hentry : IsEntry part := ⟨by simpa using hidle, hup⟩
    rw [if_neg hidle, if_neg hup] at h
    split at h
    · cases h
    next hshort =>
    rw [Nat.not_lt] at hshort
    rw [← FileNode.at?_concat hhere] at h
    rw [step_of_isEntry hentry]
    split at h
    · next hnone =>
      split at h
      · next hall =>
        cases h
        exact .inr ⟨⟨entries, hhere⟩, hentry, hshort, hnone, by simpa using hall, rfl⟩
      · cases h
    · next target hlink => cases FileNode.linkFree_at? hfree hlink
    · next node _ hnode => exact .inl ⟨⟨⟨entries, hhere⟩, fun _ => ⟨hshort, node, hnode⟩⟩, h⟩
  · cases h

/-- Parts lead to something exactly if they lead on, one after the other, to the place they spell.
-/
theorem followFrom_eq_taken_iff {place' : Place} :
    followFrom root through links place todo = .ok (.taken place') ↔
      Leads root place todo ∧ place' = spell place todo := by
  constructor
  · intro h
    induction todo generalizing place with
    | nil =>
      rw [followFrom] at h
      cases h
      exact ⟨trivial, rfl⟩
    | cons part todo ih =>
      rcases followFrom_cons_eq_ok hfree through links h with ⟨hpasses, h⟩ | ⟨-, -, -, -, -, hspot⟩
      · exact ⟨⟨hpasses, (ih h).1⟩, (ih h).2⟩
      · cases hspot
  · rintro ⟨hleads, rfl⟩
    have hfollow := followFrom_append_of_leads hfree through links hleads []
    rwa [List.append_nil, followFrom] at hfollow

/-- Parts that lead to a free name lead to the directory it is free in. -/
theorem exists_of_followFrom_eq_free {directory : Place} {name : String} {slashed : Bool}
    (h : followFrom root through links place todo = .ok (.free directory name slashed)) :
    ∃ front rest, todo = front ++ name :: rest ∧ Leads root place front ∧
      directory = spell place front ∧ (∃ entries, root.at? directory = some (.directory entries)) ∧
      IsEntry name ∧ name.utf8ByteSize ≤ 255 ∧ root.at? (directory ++ [name]) = none ∧
      (∀ part ∈ rest, part = "") ∧ slashed = !rest.isEmpty := by
  induction todo generalizing place with
  | nil =>
    rw [followFrom] at h
    cases h
  | cons part todo ih =>
    rcases followFrom_cons_eq_ok hfree through links h with
      ⟨hpasses, h⟩ | ⟨hhere, hentry, hshort, hnone, hall, hspot⟩
    · obtain ⟨front, rest, rfl, hleads, hrest⟩ := ih h
      exact ⟨part :: front, rest, rfl, ⟨hpasses, hleads⟩, hrest⟩
    · cases hspot
      exact ⟨[], todo, rfl, trivial, rfl, hhere, hentry, hshort, hnone, hall, rfl⟩

end LinkFree

/-! ## What stays -/

variable {changed : Place → Prop}

theorem exists_at?_of_kept (h : Kept changed root root') (hfree : root.linkFree) {node : FileNode}
    (hat : root.at? place = some node) : ∃ node', root'.at? place = some node' := by
  cases node with
  | file bytes =>
    obtain ⟨bytes', hat', -⟩ := h.file place bytes hat
    exact ⟨_, hat'⟩
  | directory entries =>
    obtain ⟨entries', hat'⟩ := h.directory place entries hat
    exact ⟨_, hat'⟩
  | link target => cases FileNode.linkFree_at? hfree hat

/-- Parts that lead somewhere still do so when all that was there is still there. -/
theorem Leads.kept (h : Kept changed root root') (hfree : root.linkFree)
    (hleads : Leads root place todo) : Leads root' place todo := by
  induction todo generalizing place with
  | nil => trivial
  | cons part todo ih =>
    obtain ⟨⟨⟨entries, hhere⟩, hentry⟩, hrest⟩ := hleads
    refine ⟨⟨h.directory place entries hhere, fun hpart => ?_⟩, ih hrest⟩
    obtain ⟨hshort, node, hnode⟩ := hentry hpart
    exact ⟨hshort, exists_at?_of_kept h hfree hnode⟩

/-! ## Paths -/

/-- A path that a system takes. -/
structure Takable (path : String) : Prop where
  notEmpty : path ≠ ""
  noNul : '\x00' ∉ path.toList
  short : path.utf8ByteSize < pathLimit

variable {tree other : FileTree} {path : String}

/-- Where a path starts. -/
def start (tree : FileTree) (path : String) : Place :=
  if FilePath.isAbsolute path then [] else tree.current

/-- The place that a path spells. -/
def target (tree : FileTree) (path : String) : Place :=
  spell (tree.start path) (FilePath.parts path)

theorem follow_of_takable (h : Takable path) (through : Bool) :
    tree.follow through path =
      followFrom tree.root through linkLimit (tree.start path) (FilePath.parts path) := by
  rw [follow, if_neg h.notEmpty, if_neg (by simpa using h.noNul), if_neg (Nat.not_le.mpr h.short)]
  rfl

theorem follow_eq_ok_iff {through : Bool} {spot : Spot} :
    tree.follow through path = .ok spot ↔ Takable path ∧
      followFrom tree.root through linkLimit (tree.start path) (FilePath.parts path) =
        .ok spot := by
  constructor
  · intro h
    have htakable : Takable path := by
      rw [follow] at h
      by_cases hempty : path = ""
      · rw [if_pos hempty] at h
        cases h
      by_cases hnul : path.toList.contains '\x00' = true
      · rw [if_neg hempty, if_pos hnul] at h
        cases h
      by_cases hlong : pathLimit ≤ path.utf8ByteSize
      · rw [if_neg hempty, if_neg hnul, if_pos hlong] at h
        cases h
      exact ⟨hempty, by simpa using hnul, Nat.not_le.mp hlong⟩
    exact ⟨htakable, follow_of_takable htakable through ▸ h⟩
  · rintro ⟨htakable, h⟩
    rw [follow_of_takable htakable, h]

theorem place_eq_ok_iff_follow :
    tree.place path = .ok place ↔ tree.follow true path = .ok (.taken place) := by
  rw [FileTree.place]
  rcases tree.follow true path with error | (taken | free) <;> simp

theorem place_eq_ok_iff (hfree : tree.root.linkFree) :
    tree.place path = .ok place ↔ Takable path ∧
      Leads tree.root (tree.start path) (FilePath.parts path) ∧ place = tree.target path := by
  rw [place_eq_ok_iff_follow, follow_eq_ok_iff, followFrom_eq_taken_iff hfree]
  rfl

theorem read_eq_ok_iff {bytes : ByteArray} :
    tree.read path = .ok bytes ↔
      ∃ place, tree.place path = .ok place ∧ tree.root.at? place = some (.file bytes) := by
  rw [read, node]
  cases tree.place path with
  | error error => simp
  | ok place =>
    dsimp only
    cases hat : tree.root.at? place with
    | none => simp [hat]
    | some node => cases node <;> simp [hat]

/-- Where a file is read there is no directory. -/
theorem isDirectory_of_read {bytes : ByteArray} (h : tree.read path = .ok bytes) :
    tree.isDirectory path = false := by
  obtain ⟨place, hplace, hat⟩ := read_eq_ok_iff.mp h
  rw [isDirectory, node, hplace]
  dsimp only
  rw [hat]

/-- Names below a directory stand behind the place that the directory spells. -/
theorem target_descend {names : List String} (h : ∀ name ∈ names, Key.IsName name.toList)
    (tree : FileTree) (directory : String) :
    tree.target (FilePath.descend directory names) = tree.target directory ++ names := by
  by_cases hne : names = []
  · rw [hne, FilePath.descend_nil, List.append_nil]
  obtain ⟨front, rest, hdirectory, hrest, hdescend⟩ :=
    FilePath.exists_parts_descend hne h directory
  have hidle : ∀ part ∈ rest, FilePath.isIdle part = true := by
    intro part hpart
    rw [hrest part hpart]
    rfl
  rw [target, target, start, start, FilePath.isAbsolute_descend h, hdescend, hdirectory,
    spell_append, spell_append, spell_of_isIdle hidle,
    spell_of_isEntry fun name hname => .of_isName (h name hname)]

end Transclusion.FileTree
