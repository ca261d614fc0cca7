import Transclusion.Proofs.FileTree.Routes

/-!
# Listing in another order

A system may list the entries of a directory in any order. Two trees that differ in nothing else are
the same to everything that does not list directories, and so are the rows of names in them.

* `FileTree.Relists` — another order of the entries in any directories;
* `FileTree.Relists.place_eq`, `FileTree.Relists.read_eq` — what paths denote does not depend on it;
* `FileTree.Relists.shows_iff`, `FileTree.Relists.route_iff` — nor does what a walk may come to;
* `FileTree.Relists.unambiguous` — nor whether it may come there in different ways;
* `FileTree.Relists.filesBelow_eq` — and if it may not, what it finds does not either.
-/

namespace Transclusion

namespace FileNode

/-- Two nodes, or none, with the same content, but for what is inside a directory: it has entries of
the same names, in any order. -/
inductive Alike : Option FileNode → Option FileNode → Prop
  | nothing : Alike none none
  | file (bytes : ByteArray) : Alike (some (.file bytes)) (some (.file bytes))
  | link (target : String) : Alike (some (.link target)) (some (.link target))
  | directory {entries entries' : List (String × FileNode)}
      (h : (entries.map Prod.fst).Perm (entries'.map Prod.fst)) :
      Alike (some (.directory entries)) (some (.directory entries'))

theorem Alike.symm {node node' : Option FileNode} (h : Alike node node') : Alike node' node := by
  cases h with
  | nothing => exact .nothing
  | file bytes => exact .file bytes
  | link target => exact .link target
  | directory h => exact .directory h.symm

theorem at?_append (node : FileNode) (place below : Place) :
    node.at? (place ++ below) = (node.at? place).bind (·.at? below) := by
  induction place generalizing node with
  | nil => rfl
  | cons name place ih =>
    cases node with
    | directory entries =>
      rw [List.cons_append, at?, at?]
      cases lookup name entries with
      | none => rfl
      | some child => exact ih child
    | _ => rfl

theorem at?_concat {node : FileNode} {place : Place} {entries : List (String × FileNode)}
    (h : node.at? place = some (.directory entries)) (name : String) :
    node.at? (place ++ [name]) = lookup name entries := by
  rw [at?_append, h, Option.bind_some, at?]
  cases lookup name entries <;> rfl

end FileNode

namespace FileTree

open FileNode (Alike)

/-- A tree with the same things at the same places, the entries of its directories in another
order. -/
structure Relists (tree other : FileTree) : Prop where
  current : other.current = tree.current
  alike : ∀ place, Alike (tree.root.at? place) (other.root.at? place)

variable {tree other : FileTree} {leaveOut : String → Bool → Bool} {directory : String}
  {names front : List String} {name : String}

/-- Following a path looks up names, in whatever order they are listed. -/
theorem followFrom_alike {root root' : FileNode}
    (h : ∀ place, Alike (root.at? place) (root'.at? place)) (through : Bool) (links : Nat)
    (place : Place) (todo : List String) :
    followFrom root' through links place todo = followFrom root through links place todo := by
  match todo with
  | [] => rw [followFrom, followFrom]
  | part :: todo =>
    rw [followFrom, followFrom]
    have hhere := h place
    generalize hnode : root.at? place = node at hhere ⊢
    generalize hnode' : root'.at? place = node' at hhere ⊢
    cases hhere with
    | nothing | file | link => rfl
    | @directory entries entries' _ =>
      dsimp only
      by_cases hidle : FilePath.isIdle part = true
      · rw [if_pos hidle, if_pos hidle]
        exact followFrom_alike h through links place todo
      by_cases hup : part = ".."
      · rw [if_neg hidle, if_pos hup, if_neg hidle, if_pos hup]
        exact followFrom_alike h through links place.dropLast todo
      rw [if_neg hidle, if_neg hup, if_neg hidle, if_neg hup]
      by_cases hlong : 255 < part.utf8ByteSize
      · rw [if_pos hlong, if_pos hlong]
      rw [if_neg hlong, if_neg hlong]
      have hnext := h (place ++ [part])
      rw [FileNode.at?_concat hnode, FileNode.at?_concat hnode'] at hnext
      generalize FileNode.lookup part entries = child at hnext ⊢
      generalize FileNode.lookup part entries' = child' at hnext ⊢
      cases hnext with
      | nothing => rfl
      | file | directory => exact followFrom_alike h through links (place ++ [part]) todo
      | link target =>
        dsimp only
        by_cases hend : (todo.isEmpty && !through) = true
        · rw [if_pos hend, if_pos hend]
        rw [if_neg hend, if_neg hend]
        by_cases hnone : links = 0
        · rw [if_pos hnone, if_pos hnone]
        rw [if_neg hnone, if_neg hnone]
        exact followFrom_alike h through (links - 1) _ _
termination_by (links, todo.length)

namespace Relists

theorem symm (h : Relists tree other) : Relists other tree :=
  ⟨h.current.symm, fun place => (h.alike place).symm⟩

section Denotes

variable (h : Relists tree other)

include h

theorem place_eq (path : String) : other.place path = tree.place path := by
  have hfollow : other.follow true path = tree.follow true path := by
    rw [follow, follow, h.current, followFrom_alike h.alike]
  rw [place, place, hfollow]

/-- A path leads to the same thing, or to the same error. -/
theorem node_alike (path : String) :
    (∃ error, tree.node path = .error error ∧ other.node path = .error error) ∨
      ∃ node node', tree.node path = .ok node ∧ other.node path = .ok node' ∧
        Alike (some node) (some node') := by
  rw [node, node, h.place_eq]
  cases tree.place path with
  | error error => exact .inl ⟨error, rfl, rfl⟩
  | ok place =>
    dsimp only
    have halike := h.alike place
    generalize tree.root.at? place = node at halike ⊢
    generalize other.root.at? place = node' at halike ⊢
    cases halike with
    | nothing => exact .inl ⟨_, rfl, rfl⟩
    | file bytes => exact .inr ⟨_, _, rfl, rfl, .file bytes⟩
    | link target => exact .inr ⟨_, _, rfl, rfl, .link target⟩
    | directory hperm => exact .inr ⟨_, _, rfl, rfl, .directory hperm⟩

theorem isDirectory_eq (path : String) : other.isDirectory path = tree.isDirectory path := by
  rw [isDirectory, isDirectory]
  obtain ⟨error, hnode, hnode'⟩ | ⟨node, node', hnode, hnode', halike⟩ := h.node_alike path
  · rw [hnode, hnode']
  · rw [hnode, hnode']
    cases halike <;> rfl

theorem read_eq (path : String) : other.read path = tree.read path := by
  rw [read, read]
  obtain ⟨error, hnode, hnode'⟩ | ⟨node, node', hnode, hnode', halike⟩ := h.node_alike path
  · rw [hnode, hnode']
  · rw [hnode, hnode']
    cases halike <;> rfl

/-- The entries of a directory are listed in another order. -/
theorem list_perm {path : String} (hlist : tree.list path = .ok names) :
    ∃ names', other.list path = .ok names' ∧ names.Perm names' := by
  rw [list] at hlist ⊢
  obtain ⟨error, hnode, -⟩ | ⟨node, node', hnode, hnode', halike⟩ := h.node_alike path
  · rw [hnode] at hlist
    cases hlist
  · rw [hnode] at hlist
    rw [hnode']
    cases halike with
    | file | link => cases hlist
    | directory hperm =>
      cases hlist
      exact ⟨_, rfl, hperm⟩

theorem wellFormed (hwell : tree.WellFormed) : other.WellFormed := by
  intro place entries' hat'
  have halike := h.alike place
  rw [hat'] at halike
  generalize hat : tree.root.at? place = node at halike
  cases halike with
  | @directory entries _ hperm =>
    obtain ⟨hnodup, hnames⟩ := hwell place entries hat
    exact ⟨hperm.nodup hnodup, fun name hname => hnames name (hperm.mem_iff.mpr hname)⟩

end Denotes

/-! ## Rows of names -/

theorem shows (h : Relists tree other) (hshows : Shows tree leaveOut directory front name) :
    Shows other leaveOut directory front name := by
  obtain ⟨all, hlist, hmem⟩ := hshows.listed
  obtain ⟨all', hlist', hperm⟩ := h.list_perm hlist
  refine ⟨⟨all', hlist', hperm.mem_iff.mp hmem⟩, hshows.notHidden, ?_⟩
  rw [h.isDirectory_eq]
  exact hshows.notLeftOut

theorem shows_iff (h : Relists tree other) :
    Shows other leaveOut directory front name ↔ Shows tree leaveOut directory front name :=
  ⟨h.symm.shows, h.shows⟩

theorem route_iff (h : Relists tree other) :
    Route other leaveOut directory names ↔ Route tree leaveOut directory names := by
  simp only [Route, Open, Shown, h.shows_iff, h.isDirectory_eq, h.place_eq]

theorem unambiguous (h : Relists tree other) (hsingle : Unambiguous tree leaveOut directory) :
    Unambiguous other leaveOut directory := by
  simpa only [Unambiguous, h.route_iff, h.shows_iff, h.isDirectory_eq, h.place_eq] using hsingle

/-- Where the way to each file is the only one, the files below a directory are the same in whatever
order the directories are listed. -/
theorem filesBelow_eq (h : Relists tree other) (hwell : tree.WellFormed)
    (hsingle : Unambiguous tree leaveOut directory) :
    other.filesBelow leaveOut directory = tree.filesBelow leaveOut directory := by
  have hmem : ∀ path, path ∈ other.filesBelow leaveOut directory ↔
      path ∈ tree.filesBelow leaveOut directory := by
    intro path
    rw [hsingle.mem_filesBelow_iff hwell,
      (h.unambiguous hsingle).mem_filesBelow_iff (h.wellFormed hwell)]
    simp only [h.route_iff, h.shows_iff, h.isDirectory_eq]
  have hsorted := pairwise_filesBelow hwell leaveOut directory
  have hsorted' := pairwise_filesBelow (h.wellFormed hwell) leaveOut directory
  have hirrefl : ∀ {a b : String}, FilePath.components a < FilePath.components b → a ≠ b := by
    intro a b hlt heq
    exact List.lt_irrefl _ (heq ▸ hlt)
  refine List.Perm.eq_of_pairwise ?_ hsorted' hsorted
    ((List.perm_ext_iff_of_nodup (hsorted'.imp hirrefl) (hsorted.imp hirrefl)).mpr hmem)
  intro a b _ _ hab hba
  exact absurd (List.lt_trans hab hba) (List.lt_irrefl _)

end Relists

end FileTree

end Transclusion
