import Transclusion.FileTree

/-!
# Walking a directory

`FileTree.walk` finds what is below a directory, links followed. Hidden entries and those that are
to be left out are passed over, and with a directory all that is below it.

A link may lead back up, so a directory is entered only once, by whatever path the walk comes to it
first. The walk ends because a tree has finitely many directories: each step enters one that was not
entered before, or has one path less to look at.
-/

namespace Transclusion

namespace FileNode

mutual

/-- The places of all directories below a node, the node included. -/
def directories : FileNode → List Place
  | .directory entries => [] :: directoriesOf entries
  | _ => []

/-- The places of all directories among some entries. -/
def directoriesOf : List (String × FileNode) → List Place
  | [] => []
  | (name, node) :: rest => node.directories.map (name :: ·) ++ directoriesOf rest

end

theorem mem_directoriesOf {name : String} {child : FileNode} {place : Place}
    {entries : List (String × FileNode)} (h : lookup name entries = some child)
    (hp : place ∈ child.directories) : name :: place ∈ directoriesOf entries := by
  induction entries with
  | nil => simp [lookup] at h
  | cons entry rest ih =>
    obtain ⟨k, node⟩ := entry
    rw [lookup] at h
    rw [directoriesOf, List.mem_append]
    split at h
    · next hk =>
      cases h
      exact .inl (List.mem_map.mpr ⟨place, hp, by rw [hk]⟩)
    · exact .inr (ih h)

/-- A directory that stands at a place is among the directories. -/
theorem mem_directories {node : FileNode} {place : Place} {entries : List (String × FileNode)}
    (h : node.at? place = some (.directory entries)) : place ∈ node.directories := by
  induction place generalizing node with
  | nil =>
    simp only [at?, Option.some.injEq] at h
    rw [h, directories]
    exact List.mem_cons_self
  | cons name place ih =>
    cases node with
    | directory all =>
      simp only [at?] at h
      split at h
      · next child hc =>
        rw [directories]
        exact List.mem_cons_of_mem _ (mem_directoriesOf hc (ih h))
      · simp at h
    | _ => simp [at?] at h

end FileNode

namespace FileTree

def isHidden (name : String) : Bool :=
  name.toList.head? = some '.'

/-- The paths in a directory that the walk looks at, each with whether it leads to a directory. -/
def visible (tree : FileTree) (leaveOut : String → Bool → Bool) (directory : String)
    (names : List String) : List (String × Bool) :=
  names.filterMap fun name =>
    let path := FilePath.join directory name
    let isDirectory := tree.isDirectory path
    if isHidden name || leaveOut path isDirectory then none else some (path, isDirectory)

/-- The directories of a tree that were not entered yet. -/
def unvisited (tree : FileTree) (visited : List Place) : List Place :=
  tree.root.directories.filter (!visited.contains ·)

theorem unvisited_cons_lt {tree : FileTree} {visited : List Place} {place : Place}
    {entries : List (String × FileNode)} (h : tree.root.at? place = some (.directory entries))
    (hv : visited.contains place = false) :
    (tree.unvisited (place :: visited)).length < (tree.unvisited visited).length := by
  have hm : place ∈ tree.unvisited visited := by
    simp only [unvisited, List.mem_filter, hv, Bool.not_false, and_true]
    exact FileNode.mem_directories h
  have hsub : tree.unvisited (place :: visited) = (tree.unvisited visited).filter (· ≠ place) := by
    simp only [unvisited, List.filter_filter]
    apply List.filter_congr
    intro other _
    by_cases ho : other = place <;> simp [ho]
  rw [hsub]
  apply Nat.lt_of_le_of_ne (List.length_filter_le _ _)
  intro heq
  simpa using (List.length_filter_eq_length_iff.mp heq) place hm

/-- The files at some paths and below them, in the order of the walk; `visited` are the directories
that were entered before. -/
def walkFrom (tree : FileTree) (leaveOut : String → Bool → Bool) (visited : List Place) :
    List (String × Bool) → List String
  | [] => []
  | (path, isDirectory) :: pending =>
      if isDirectory then
        match tree.place path with
        | .error _ => walkFrom tree leaveOut visited pending
        | .ok place =>
            if _hv : visited.contains place then walkFrom tree leaveOut visited pending
            else
              match _hd : tree.root.at? place with
              | some (.directory entries) =>
                  walkFrom tree leaveOut (place :: visited)
                    (tree.visible leaveOut path (entries.map Prod.fst) ++ pending)
              | _ => walkFrom tree leaveOut visited pending
      else path :: walkFrom tree leaveOut visited pending
termination_by pending => ((tree.unvisited visited).length, pending.length)
decreasing_by
  · exact Prod.Lex.right _ (by simp)
  · exact Prod.Lex.right _ (by simp)
  · exact Prod.Lex.left _ _ (unvisited_cons_lt _hd (by simpa using _hv))
  · exact Prod.Lex.right _ (by simp)
  · exact Prod.Lex.right _ (by simp)

/-- The files below a directory, in the order of the walk. -/
def walk (tree : FileTree) (leaveOut : String → Bool → Bool) (directory : String) : List String :=
  if tree.isDirectory directory then tree.walkFrom leaveOut [] [(directory, true)] else []

/-- The order of paths: by their steps, one after the other. -/
def pathLe (a b : String) : Bool :=
  !decide (FilePath.components b < FilePath.components a)

/-- The files below a directory, in the order of their paths. -/
def filesBelow (tree : FileTree) (leaveOut : String → Bool → Bool) (directory : String) :
    List String :=
  (tree.walk leaveOut directory).mergeSort pathLe

end FileTree

end Transclusion
