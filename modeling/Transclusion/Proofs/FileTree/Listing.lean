import Transclusion.Proofs.FileTree.Relists
import Transclusion.SourceTree

/-!
# Where the listing order matters

A walk enters a directory by the path it comes to first, and files are found under that path. So
where a directory can be entered in two ways, the order in which its names are listed decides.

* `FileTree.relisted` — a tree listed in such an order that chosen names come first;
* `FileTree.Walks.listed_towards` — a walk that meets the names of a row first goes along that row;
* `FileTree.filesBelow_relists_iff` — what is below a directory does not depend on the order
  exactly where the way to each file is the only one, and then neither does what is loaded;
* `FileTree.filesBelow_relists_ne` — two links to one directory, listed in either order.
-/

namespace Transclusion

namespace FileNode

/-! ## Trees in which chosen names are listed first -/

/-- Entries, that of a name in front of the others. -/
def bringForward (name : String) (entries : List (String × FileNode)) : List (String × FileNode) :=
  (entries.filter fun entry => entry.1 = name) ++ entries.filter fun entry => !(entry.1 = name)

mutual

/-- A node in which each directory lists a name first that is chosen for its place. -/
def relist (first : Place → String) (place : Place) : FileNode → FileNode
  | .directory entries =>
      .directory (bringForward (first place) (relistEntries first place entries))
  | .file bytes => .file bytes
  | .link target => .link target

/-- The entries of a directory, each such a node. -/
def relistEntries (first : Place → String) (place : Place) :
    List (String × FileNode) → List (String × FileNode)
  | [] => []
  | (name, node) :: rest =>
      (name, node.relist first (place ++ [name])) :: relistEntries first place rest

end

variable {name : String} {entries : List (String × FileNode)}

theorem lookup_append (front back : List (String × FileNode)) :
    lookup name (front ++ back) = (lookup name front).or (lookup name back) := by
  induction front with
  | nil => rfl
  | cons entry front ih =>
    obtain ⟨key, node⟩ := entry
    rw [List.cons_append, lookup, lookup]
    split
    · rfl
    · exact ih

theorem lookup_filter (p : String → Bool) (entries : List (String × FileNode)) :
    lookup name (entries.filter fun entry => p entry.1) =
      if p name then lookup name entries else none := by
  induction entries with
  | nil => simp [lookup]
  | cons entry entries ih =>
    obtain ⟨key, node⟩ := entry
    by_cases hkey : key = name
    · subst hkey
      cases hp : p key <;> simp [hp, lookup, ih]
    · cases hp : p key <;> simp [hp, lookup, hkey, ih]

@[simp] theorem lookup_bringForward (first : String) (entries : List (String × FileNode)) :
    lookup name (bringForward first entries) = lookup name entries := by
  rw [bringForward, lookup_append, lookup_filter fun key => key = first,
    lookup_filter fun key => !(key = first)]
  by_cases hname : name = first <;> simp [hname]

theorem bringForward_perm (first : String) (entries : List (String × FileNode)) :
    (bringForward first entries).Perm entries :=
  List.filter_append_perm _ entries

/-- What is brought forward stands in front. -/
theorem bringForward_of_mem (h : name ∈ entries.map Prod.fst) :
    ∃ rest, (bringForward name entries).map Prod.fst = name :: rest := by
  obtain ⟨entry, hmem, rfl⟩ := List.mem_map.mp h
  have hne : (entries.filter fun other => other.1 = entry.1) ≠ [] :=
    List.ne_nil_of_mem (List.mem_filter.mpr ⟨hmem, by simp⟩)
  obtain ⟨found, others, hfound⟩ := List.exists_cons_of_ne_nil hne
  have hname : found.1 = entry.1 := by
    have hin := hfound ▸ List.mem_cons_self
    simpa using (List.mem_filter.mp hin).2
  rw [bringForward, hfound]
  exact ⟨_, congrArg (· :: _) hname⟩

theorem map_fst_relistEntries (first : Place → String) (place : Place)
    (entries : List (String × FileNode)) :
    (relistEntries first place entries).map Prod.fst = entries.map Prod.fst := by
  induction entries with
  | nil => rfl
  | cons entry entries ih => rw [relistEntries, List.map_cons, List.map_cons, ih]

theorem lookup_relistEntries (first : Place → String) (place : Place)
    (entries : List (String × FileNode)) :
    lookup name (relistEntries first place entries) =
      (lookup name entries).map (relist first (place ++ [name])) := by
  induction entries with
  | nil => rfl
  | cons entry entries ih =>
    obtain ⟨key, node⟩ := entry
    rw [relistEntries, lookup, lookup]
    split
    · next hkey =>
      rw [hkey]
      rfl
    · exact ih

/-- The same stands at each place. -/
theorem at?_relist (first : Place → String) (place : Place) (node : FileNode) (below : Place) :
    (node.relist first place).at? below = (node.at? below).map (relist first (place ++ below)) := by
  induction below generalizing node place with
  | nil => simp [at?]
  | cons name below ih =>
    cases node with
    | directory entries =>
      rw [relist, at?, at?, lookup_bringForward, lookup_relistEntries]
      cases lookup name entries with
      | none => rfl
      | some child =>
        rw [Option.map_some]
        dsimp only
        rw [ih, List.append_assoc]
        rfl
    | file | link => rfl

theorem alike_relist (first : Place → String) (place : Place) (node : Option FileNode) :
    Alike node (node.map (relist first place)) := by
  cases node with
  | none => exact .nothing
  | some node =>
    cases node with
    | file bytes => exact .file bytes
    | link target => exact .link target
    | directory entries =>
      rw [Option.map_some, relist]
      refine .directory ?_
      rw [← map_fst_relistEntries first place entries]
      exact ((bringForward_perm _ _).map Prod.fst).symm

end FileNode

namespace FileTree

open FilePath (descend)

variable {tree : FileTree} {leaveOut : String → Bool → Bool} {directory : String}
  {names front : List String} {name : String}

/-- A tree in which each directory lists a name first that is chosen for its place. -/
def relisted (tree : FileTree) (first : Place → String) : FileTree :=
  { tree with root := tree.root.relist first [] }

theorem relists_relisted (tree : FileTree) (first : Place → String) :
    Relists tree (tree.relisted first) := by
  refine ⟨rfl, fun place => ?_⟩
  rw [relisted, FileNode.at?_relist, List.nil_append]
  exact FileNode.alike_relist first place _

theorem list_relisted {first : Place → String} {path : String} {place : Place} {all : List String}
    (hplace : tree.place path = .ok place) (hlist : tree.list path = .ok all)
    (hmem : first place ∈ all) :
    ∃ rest, (tree.relisted first).list path = .ok (first place :: rest) := by
  obtain ⟨place', entries, hplace', hat, rfl⟩ := list_eq_ok_iff.mp hlist
  cases hplace.symm.trans hplace'
  have hat' : (tree.relisted first).root.at? place = some (.directory
      (FileNode.bringForward (first place) (FileNode.relistEntries first place entries))) := by
    rw [relisted, FileNode.at?_relist, hat, List.nil_append, Option.map_some, FileNode.relist]
  rw [← FileNode.map_fst_relistEntries first place entries] at hmem
  obtain ⟨rest, hrest⟩ := FileNode.bringForward_of_mem hmem
  refine ⟨rest, list_eq_ok_iff.mpr ⟨place, _, ?_, hat', hrest.symm⟩⟩
  rw [(tree.relists_relisted first).place_eq, hplace]

/-! ## Walks along a row of names -/

/-- A walk that has come to a directory on the way along some names, and in each directory meets the
next of them first, goes on along them, if it has not been in any directory that lies ahead. -/
theorem Walks.listed_towards {visited after : List Place} {pending : List (String × Bool)}
    {events : List Event} {rest : List String}
    (h : Walks tree leaveOut visited ((descend directory front, true) :: pending) events after)
    (hroute : Route tree leaveOut directory (front ++ rest))
    (hahead : ∀ back, back <+: rest → ∀ place ∈ visited,
      tree.place (descend directory (front ++ back)) ≠ .ok place)
    (hfirst : ∀ back name, back ++ [name] <+: rest →
      ∃ all, tree.list (descend directory (front ++ back)) = .ok (name :: all)) :
    ∀ back, back <+: rest → Listed events directory (front ++ back) := by
  induction rest generalizing front visited pending events after with
  | nil =>
    rw [List.append_nil] at hroute
    obtain ⟨place, entries, hplace, hat⟩ := isDirectory_iff.mp hroute.1.2
    have hnew : place ∉ visited := fun hmem =>
      hahead [] List.nil_prefix place hmem (by rwa [List.append_nil])
    obtain ⟨hlisted, -⟩ :=
      h.enters hplace hnew (list_eq_ok_iff.mpr ⟨place, entries, hplace, hat, rfl⟩)
    intro back hback
    rw [List.prefix_nil.mp hback, List.append_nil]
    exact ⟨place, hlisted⟩
  | cons name rest ih =>
    have hfront : front <+: front ++ name :: rest := List.prefix_append _ _
    have hnext : front ++ [name] <+: front ++ name :: rest := by simp
    obtain ⟨all, hlist⟩ := hfirst [] name (by simp)
    rw [List.append_nil] at hlist
    obtain ⟨place, -, hplace, -⟩ := list_eq_ok_iff.mp hlist
    have hnew : place ∉ visited := fun hmem =>
      hahead [] List.nil_prefix place hmem (by rwa [List.append_nil])
    obtain ⟨hlisted, inside, between, hsub, hinside⟩ := h.enters hplace hnew hlist
    -- the first path looked at in the directory is that of the next name
    have hshows := hroute.1.1 front name hnext
    have hkept := hshows.notLeftOut
    rw [FilePath.descend_concat] at hkept
    rw [visible_cons all hshows.notHidden hkept, ← FilePath.descend_concat,
      (hroute.1.of_front hnext).2] at hinside
    have hrest := ih hinside (by simpa using hroute) ?_ ?_
    · intro back hback
      cases back with
      | nil =>
        rw [List.append_nil]
        exact ⟨place, hlisted⟩
      | cons name' back =>
        obtain ⟨rfl, hbehind⟩ := List.cons_prefix_cons.mp hback
        obtain ⟨inner, hinner⟩ := hrest back hbehind
        exact ⟨inner, by simpa using hsub hinner⟩
    · intro back hback visitedPlace hmem
      rw [List.append_assoc, List.singleton_append]
      have hback' : name :: back <+: name :: rest := List.cons_prefix_cons.mpr ⟨rfl, hback⟩
      rcases List.mem_cons.mp hmem with rfl | hmem
      · -- the row does not return to the directory that is entered
        intro hreturn
        have hsame := hroute.2 front (front ++ name :: back) hfront
          ((List.prefix_append_right_inj front).mpr hback') (hplace.trans hreturn.symm)
        simp at hsame
      · exact hahead (name :: back) hback' visitedPlace hmem
    · intro back name' hback
      rw [List.append_assoc, List.singleton_append]
      exact hfirst (name :: back) name' (List.cons_prefix_cons.mpr ⟨rfl, hback⟩)

/-- In each directory that a row without returns leads through, the next name can be chosen. -/
theorem Route.exists_first (hroute : Route tree leaveOut directory names) :
    ∃ first : Place → String, ∀ front name place, front ++ [name] <+: names →
      tree.place (descend directory front) = .ok place → first place = name := by
  have hchoice : ∀ place, ∃ first, ∀ front name, front ++ [name] <+: names →
      tree.place (descend directory front) = .ok place → first = name := by
    intro place
    by_cases hon : ∃ front name, front ++ [name] <+: names ∧
        tree.place (descend directory front) = .ok place
    · obtain ⟨front, name, hfront, hplace⟩ := hon
      refine ⟨name, fun front' name' hfront' hplace' => ?_⟩
      obtain rfl : front = front' :=
        hroute.2 front front' ((List.prefix_append _ _).trans hfront)
          ((List.prefix_append _ _).trans hfront') (hplace.trans hplace'.symm)
      have hsame := List.prefix_of_prefix_length_le hfront hfront' (by simp)
      simpa using hsame.eq_of_length (by simp)
    · exact ⟨"", fun front name hfront hplace => absurd ⟨front, name, hfront, hplace⟩ hon⟩
  choose first hfirst using hchoice
  exact ⟨first, fun front name place => hfirst place front name⟩

/-- For each row without returns there is an order in which the walk goes along it. -/
theorem Route.exists_relists (hroute : Route tree leaveOut directory names) :
    ∃ other, Relists tree other ∧ ∀ events after,
      Walks other leaveOut [] [(directory, true)] events after →
        ListedAlong events directory names := by
  obtain ⟨first, hfirst⟩ := hroute.exists_first
  have hrelists := tree.relists_relisted first
  refine ⟨tree.relisted first, hrelists, fun events after h => ?_⟩
  have hstart : Walks (tree.relisted first) leaveOut [] [(descend directory [], true)] events
    after := h
  refine hstart.listed_towards (hrelists.route_iff.mpr hroute) nofun ?_
  intro back name hback
  obtain ⟨all, hlist, hmem⟩ := (hroute.1.1 back name hback).listed
  obtain ⟨place, -, hplace, -⟩ := list_eq_ok_iff.mp hlist
  have hname := hfirst back name place hback hplace
  subst hname
  exact list_relisted hplace hlist hmem

/-! ## What depends on the order -/

/-- Where the files below a directory are the same in every order, the way to each is the only one.
The row to a file can be listed first, so the file is found, and then it is found as well where
another row to a directory on the way is listed first. But the walk enters a directory only once. -/
theorem unambiguous_of_relists (hwell : tree.WellFormed)
    (hsame : ∀ other, Relists tree other →
      other.filesBelow leaveOut directory = tree.filesBelow leaveOut directory) :
    Unambiguous tree leaveOut directory := by
  intro names name hroute hshows hfile front hfront row hrow hplace
  obtain ⟨along, halong, hlistedAlong⟩ := hroute.exists_relists
  obtain ⟨events, after, h⟩ := along.exists_walks leaveOut [] [(directory, true)]
  have hfound : descend directory (names ++ [name]) ∈ along.filesBelow leaveOut directory := by
    rw [mem_filesBelow h]
    refine h.found_of_shows (hlistedAlong events after h names (List.prefix_refl names))
      (halong.shows hshows) ?_
    rwa [halong.isDirectory_eq]
  rw [hsame along halong] at hfound
  -- the same file in an order that goes along the other row
  obtain ⟨aside, haside, hlistedAside⟩ := hrow.exists_relists
  obtain ⟨events', after', h'⟩ := aside.exists_walks leaveOut [] [(directory, true)]
  rw [← hsame aside haside, mem_filesBelow h'] at hfound
  obtain ⟨front', name', heq, -, hshown', hlisted'⟩ := h'.exists_found hfound
  have hshown := shown_concat.mpr ⟨(haside.route_iff.mpr hroute).1.1, haside.shows hshows⟩
  obtain ⟨rfl, -⟩ :=
    List.append_inj' (hshown.descend_inj (haside.wellFormed hwell) hshown' heq) rfl
  -- on the way to it the directory is listed, and at the end of the other row as well
  refine h'.listed_inj (haside.wellFormed hwell) (haside.route_iff.mpr hrow).1.1
    ((haside.route_iff.mpr hroute).1.1.of_front hfront)
    (hlistedAside events' after' h' row (List.prefix_refl row)) (hlisted' front hfront) ?_
  rw [haside.place_eq, haside.place_eq, hplace]

end FileTree

namespace SourceTree

open FileTree (Relists Unambiguous)

variable {files other : FileTree} {directory : String} {options : LoadOptions}

/-- What is left out of a directory, given the rules of the configuration. -/
def leavesOut (files : FileTree) (directory : String) (options : LoadOptions)
    (excluded : IgnoreRules) (path : String) (isDirectory : Bool) : Bool :=
  let ignored :=
    if options.disableGitignore then ⟨directory, []⟩ else ignoreFileRules files directory
  ignored.ignores path isDirectory || excluded.ignores path isDirectory

theorem sources_of_excludeRules {excluded : IgnoreRules}
    (h : excludeRules directory options.exclude = .ok excluded) (files : FileTree) :
    sources files directory options =
      .ok (files.filesBelow (leavesOut files directory options excluded) directory) := by
  rw [sources, h]
  rfl

theorem insertAll_relists (h : Relists files other) (directory : String) (tree : SourceTree)
    (paths : List String) :
    insertAll other directory tree paths = insertAll files directory tree paths := by
  induction paths generalizing tree with
  | nil => rfl
  | cons path paths ih => simp only [insertAll, h.read_eq, ih]

/-- Where the way to each file is the only one, the same is loaded in whatever order the directories
are listed. -/
theorem load_relists (h : Relists files other) (hwell : files.WellFormed)
    (hsingle : ∀ excluded, excludeRules directory options.exclude = .ok excluded →
      Unambiguous files (leavesOut files directory options excluded) directory) :
    load other directory options = load files directory options := by
  have hsources : sources other directory options = sources files directory options := by
    cases hexcluded : excludeRules directory options.exclude with
    | error error =>
      rw [sources, sources, hexcluded]
      rfl
    | ok excluded =>
      have hrules : leavesOut other directory options excluded =
          leavesOut files directory options excluded := by
        funext path isDirectory
        simp only [leavesOut, ignoreFileRules, h.read_eq]
      rw [sources_of_excludeRules hexcluded, sources_of_excludeRules hexcluded, hrules,
        h.filesBelow_eq hwell (hsingle excluded hexcluded)]
  simp only [load, hsources, insertAll_relists h]

end SourceTree

namespace FileTree

/-- The files below a directory do not depend on the order in which the system lists directories
exactly if each directory on the way to a file is at the end of one row of names without returns
only, and then the same is loaded in every order. -/
theorem filesBelow_relists_iff {tree : FileTree} (hwell : tree.WellFormed) (directory : String) :
    (∀ ignored excluded : String → Bool → Bool,
      let leaveOut := fun path isDirectory => ignored path isDirectory || excluded path isDirectory
      (∀ other, Relists tree other →
        other.filesBelow leaveOut directory = tree.filesBelow leaveOut directory) ↔
          Unambiguous tree leaveOut directory) ∧
    ∀ options : LoadOptions,
      (∀ excluded, SourceTree.excludeRules directory options.exclude = .ok excluded →
        Unambiguous tree (SourceTree.leavesOut tree directory options excluded) directory) →
      ∀ other, Relists tree other →
        SourceTree.load other directory options = SourceTree.load tree directory options := by
  refine ⟨fun ignored excluded => ?_, fun options hsingle other h => ?_⟩
  · exact ⟨fun hsame => unambiguous_of_relists hwell hsame,
      fun hsingle other h => h.filesBelow_eq hwell hsingle⟩
  · exact SourceTree.load_relists h hwell hsingle

/-- A link that leads back up: what is outside the directory is found through it, in both orders. -/
theorem filesBelow_relists_iff_returning :
    let tree : FileTree := ⟨.directory [
      ("src", .directory [("f.md", .file .empty), ("up", .link "..")]), ("x", .file .empty)], []⟩
    let other : FileTree := ⟨.directory [
      ("src", .directory [("up", .link ".."), ("f.md", .file .empty)]), ("x", .file .empty)], []⟩
    let nothing := fun (_ : String) (_ : Bool) => false
    let leaveOut := fun path isDirectory => nothing path isDirectory || nothing path isDirectory
    tree.WellFormed ∧ Relists tree other ∧ (∀ leaveOut, Unambiguous tree leaveOut "src") ∧
    other.filesBelow leaveOut "src" = tree.filesBelow leaveOut "src" ∧
    SourceTree.load other "src" ⟨[], false⟩ = SourceTree.load tree "src" ⟨[], false⟩ := by
  intro tree other nothing leaveOut
  have hwell : tree.WellFormed := by decide
  have hrelists : Relists tree other := tree.relists_relisted fun _ => "up"
  have hparts : FilePath.parts "src" = ["src"] ∧ FilePath.parts "src/up" = ["src", "up"] ∧
      FilePath.parts "src/f.md" = ["src", "f.md"] ∧ FilePath.parts "src/up/x" = ["src", "up", "x"] ∧
      FilePath.parts "src/up/src" = ["src", "up", "src"] ∧ FilePath.parts ".." = [".."] := by decide
  have hsrc : tree.place "src" = .ok ["src"] := by
    simp +decide [place, follow, hparts, tree, followFrom, FileNode.at?, FileNode.lookup]
  have hup : tree.place "src/up" = .ok [] := by
    simp +decide [place, follow, hparts, tree, followFrom, FileNode.at?, FileNode.lookup, linkLimit]
  have hback : tree.place "src/up/src" = .ok ["src"] := by
    simp +decide [place, follow, hparts, tree, followFrom, FileNode.at?, FileNode.lookup, linkLimit]
  have hfiles : tree.isDirectory "src/f.md" = false ∧ tree.isDirectory "src/up/x" = false := by
    simp +decide [isDirectory, node, place, follow, hparts, tree, followFrom, FileNode.at?,
      FileNode.lookup, linkLimit]
  have hrows : ∀ leaveOut names, Route tree leaveOut "src" names → names = [] ∨ names = ["up"] := by
    intro leaveOut names h
    induction names using List.reverseRecOn with
    | nil => exact .inl rfl
    | append_singleton names name ih =>
      obtain ⟨-, hshows⟩ := h.1.of_concat
      obtain ⟨all, hlist, hmem⟩ := hshows.listed
      rcases ih (h.of_front (List.prefix_append names [name])) with rfl | rfl
      · cases (list_eq_ok_iff.mpr ⟨_, _, hsrc, rfl, rfl⟩).symm.trans hlist
        simp only [List.map_cons, List.map_nil, List.mem_cons, List.not_mem_nil, or_false] at hmem
        rcases hmem with rfl | rfl
        · exact absurd (h.1.2.symm.trans hfiles.1) (by decide)
        · exact .inr rfl
      · cases (list_eq_ok_iff.mpr ⟨_, _, hup, rfl, rfl⟩).symm.trans hlist
        simp only [List.map_cons, List.map_nil, List.mem_cons, List.not_mem_nil, or_false] at hmem
        rcases hmem with rfl | rfl
        · exact absurd (h.2 [] _ List.nil_prefix (List.prefix_refl _) (hsrc.trans hback.symm))
            (by decide)
        · exact absurd (h.1.2.symm.trans hfiles.2) (by decide)
  have hsingle : ∀ leaveOut, Unambiguous tree leaveOut "src" := by
    intro leaveOut names name hnames _ _ front hfront row hrow hplace
    rcases hrows leaveOut row hrow with rfl | rfl <;>
      rcases hrows leaveOut front (hnames.of_front hfront) with rfl | rfl
    · rfl
    · exact absurd (hsrc.symm.trans (hplace.trans hup)) (by decide)
    · exact absurd (hup.symm.trans (hplace.trans hsrc)) (by decide)
    · rfl
  obtain ⟨hiff, hload⟩ := filesBelow_relists_iff hwell "src"
  exact ⟨hwell, hrelists, hsingle, (hiff nothing nothing).mpr (hsingle _) other hrelists,
    hload ⟨[], false⟩ (fun _ _ => hsingle _) other hrelists⟩

/-- Two links to one directory, and a file in it that is left out under one of them: it is found
only if the other link is listed first. -/
theorem filesBelow_relists_ne :
    let tree : FileTree := ⟨.directory [
      ("src", .directory [("m", .link "../other"), ("l", .link "../other")]),
      ("other", .directory [("f.md", .file .empty)])], []⟩
    let other : FileTree := ⟨.directory [
      ("src", .directory [("l", .link "../other"), ("m", .link "../other")]),
      ("other", .directory [("f.md", .file .empty)])], []⟩
    let ignored := fun (_ : String) (_ : Bool) => false
    let excluded := fun (path : String) (_ : Bool) => path == "src/l/f.md"
    let leaveOut := fun path isDirectory => ignored path isDirectory || excluded path isDirectory
    tree.WellFormed ∧ Relists tree other ∧ tree.filesBelow leaveOut "src" = ["src/m/f.md"] ∧
      other.filesBelow leaveOut "src" = [] := by
  intro tree other ignored excluded leaveOut
  have hrelists : Relists tree other := tree.relists_relisted fun _ => "l"
  have hparts : FilePath.parts "src" = ["src"] ∧ FilePath.parts "src/m" = ["src", "m"] ∧
      FilePath.parts "src/l" = ["src", "l"] ∧ FilePath.parts "src/m/f.md" = ["src", "m", "f.md"] ∧
      FilePath.parts "src/l/f.md" = ["src", "l", "f.md"] ∧
      FilePath.parts "../other" = ["..", "other"] := by decide
  have hsrc : tree.place "src" = .ok ["src"] := by
    simp +decide [place, follow, hparts, tree, followFrom, FileNode.at?, FileNode.lookup]
  have hm : tree.place "src/m" = .ok ["other"] := by
    simp +decide [place, follow, hparts, tree, followFrom, FileNode.at?, FileNode.lookup, linkLimit]
  have hl : tree.place "src/l" = .ok ["other"] := by
    simp +decide [place, follow, hparts, tree, followFrom, FileNode.at?, FileNode.lookup, linkLimit]
  have hfile : tree.isDirectory "src/m/f.md" = false := by
    simp +decide [isDirectory, node, place, follow, hparts, tree, followFrom, FileNode.at?,
      FileNode.lookup, linkLimit]
  have hother : tree.list "src/m" = .ok ["f.md"] ∧ tree.list "src/l" = .ok ["f.md"] :=
    ⟨list_eq_ok_iff.mpr ⟨_, _, hm, rfl, rfl⟩, list_eq_ok_iff.mpr ⟨_, _, hl, rfl, rfl⟩⟩
  have hdirectories : tree.isDirectory "src/m" = true ∧ tree.isDirectory "src/l" = true :=
    ⟨isDirectory_of_list hother.1, isDirectory_of_list hother.2⟩
  have hnew : ["other"] ∉ [["src"]] := by decide
  have hagain : ["other"] ∈ [["other"], ["src"]] := by decide
  refine ⟨by decide, hrelists, ?_, ?_⟩
  · have hshown : tree.visible leaveOut "src/m" ["f.md"] = [("src/m/f.md", false)] := by
      rw [← hfile]
      rfl
    have hlinks : tree.visible leaveOut "src" ["m", "l"] = [("src/m", true), ("src/l", true)] := by
      rw [visible_cons _ rfl rfl, visible_cons _ rfl rfl]
      exact congrArg₂ (fun m l => [("src/m", m), ("src/l", l)]) hdirectories.1 hdirectories.2
    have hinner : Walks tree leaveOut [["other"], ["src"]] (tree.visible leaveOut "src/m" ["f.md"])
        [.found "src/m/f.md"] [["other"], ["src"]] := by
      rw [hshown]
      exact .file .done
    have hinside : Walks tree leaveOut [["src"]] (tree.visible leaveOut "src" ["m", "l"])
        [.listed "src/m" ["other"], .found "src/m/f.md"] [["other"], ["src"]] := by
      rw [hlinks]
      exact .enter hm hnew hother.1 hinner (.again hl hagain .done)
    have h : Walks tree leaveOut [] [("src", true)]
        [.listed "src" ["src"], .listed "src/m" ["other"], .found "src/m/f.md"]
        [["other"], ["src"]] :=
      .enter hsrc List.not_mem_nil (list_eq_ok_iff.mpr ⟨_, _, hsrc, rfl, rfl⟩) hinside .done
    rw [filesBelow, h.walk_eq]
    simp
  · have hlinks : other.visible leaveOut "src" ["l", "m"] = [("src/l", true), ("src/m", true)] := by
      rw [visible_cons _ rfl rfl, visible_cons _ rfl rfl, hrelists.isDirectory_eq,
        hrelists.isDirectory_eq]
      exact congrArg₂ (fun m l => [("src/l", l), ("src/m", m)]) hdirectories.1 hdirectories.2
    have hsrc' : other.place "src" = .ok ["src"] := (hrelists.place_eq "src").trans hsrc
    have hm' : other.place "src/m" = .ok ["other"] := (hrelists.place_eq "src/m").trans hm
    have hl' : other.place "src/l" = .ok ["other"] := (hrelists.place_eq "src/l").trans hl
    have hinner : Walks other leaveOut [["other"], ["src"]]
        (other.visible leaveOut "src/l" ["f.md"]) [] [["other"], ["src"]] := .done
    have hinside : Walks other leaveOut [["src"]] (other.visible leaveOut "src" ["l", "m"])
        [.listed "src/l" ["other"]] [["other"], ["src"]] := by
      rw [hlinks]
      exact .enter hl' hnew (list_eq_ok_iff.mpr ⟨_, _, hl', rfl, rfl⟩) hinner
        (.again hm' hagain .done)
    have h : Walks other leaveOut [] [("src", true)]
        [.listed "src" ["src"], .listed "src/l" ["other"]] [["other"], ["src"]] :=
      .enter hsrc' List.not_mem_nil (list_eq_ok_iff.mpr ⟨_, _, hsrc', rfl, rfl⟩) hinside .done
    rw [filesBelow, h.walk_eq]
    simp

end FileTree

end Transclusion
