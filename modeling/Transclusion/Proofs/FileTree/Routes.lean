import Mathlib.Data.List.Nodup
import Transclusion.Proofs.FilePath
import Transclusion.Proofs.FileTree.Walk

/-!
# What a walk finds

The walk through a directory, told by the names of the entries it goes along.

* `FileTree.WellFormed` — what a system guarantees of the names in a directory;
* `FileTree.Shows`, `FileTree.Shown`, `FileTree.Open` — the entries that a walk looks at, and the
  rows of names along which it may come to something, and to a directory;
* `FileTree.Listed` — a directory is listed under the path that some names spell;
* `FileTree.Walks.exists_listed`, `FileTree.Walks.exists_found` — only along such rows is anything
  listed or found;
* `FileTree.Walks.exists_same_place` — a directory at the end of such a row is listed, though maybe
  under another path;
* `FileTree.mem_filesBelow`, `FileTree.pairwise_filesBelow` — what is below a directory, in order;
* `FileTree.filesBelow_exact` — the walk ends, lists no directory twice, and finds exactly the files
  to be found where no directory has two paths.
-/

namespace Transclusion.FileTree

open FilePath (descend)

/-- The entries of a directory have different names, and each of them is one step of a path. -/
def WellFormed (tree : FileTree) : Prop :=
  ∀ place entries, tree.root.at? place = some (.directory entries) →
    (entries.map Prod.fst).Nodup ∧ ∀ name ∈ entries.map Prod.fst, Key.IsName name.toList

/-- Whether the names are as they should be can be checked directory by directory. -/
instance (tree : FileTree) : Decidable tree.WellFormed :=
  let named : Option FileNode → Bool := fun node =>
    match node with
    | some (.directory entries) =>
        decide ((entries.map Prod.fst).Nodup ∧
          ∀ name ∈ entries.map Prod.fst, Key.IsName name.toList)
    | _ => true
  decidable_of_iff (∀ place ∈ tree.root.directories, named (tree.root.at? place)) <| by
    constructor
    · intro h place entries hat
      have hnamed := h place (FileNode.mem_directories hat)
      rw [hat] at hnamed
      exact of_decide_eq_true hnamed
    · intro h place _
      cases hat : tree.root.at? place with
      | none => rfl
      | some node =>
        cases node with
        | directory entries => exact decide_eq_true (h place entries hat)
        | _ => rfl

variable {tree : FileTree} {leaveOut : String → Bool → Bool} {directory : String}

theorem WellFormed.of_list (h : tree.WellFormed) {path : String} {names : List String}
    (hlist : tree.list path = .ok names) :
    names.Nodup ∧ ∀ name ∈ names, Key.IsName name.toList := by
  obtain ⟨place, entries, -, hat, rfl⟩ := list_eq_ok_iff.mp hlist
  exact h place entries hat

/-! ## Rows of names -/

/-- The directory that `front` leads to has an entry `name`, which is neither hidden nor to be left
out. -/
structure Shows (tree : FileTree) (leaveOut : String → Bool → Bool) (directory : String)
    (front : List String) (name : String) : Prop where
  listed : ∃ names, tree.list (descend directory front) = .ok names ∧ name ∈ names
  notHidden : isHidden name = false
  notLeftOut : leaveOut (descend directory (front ++ [name]))
    (tree.isDirectory (descend directory (front ++ [name]))) = false

/-- Neither the entry that some names lead to nor any on the way to it is hidden or left out. -/
def Shown (tree : FileTree) (leaveOut : String → Bool → Bool) (directory : String)
    (names : List String) : Prop :=
  ∀ front name, front ++ [name] <+: names → Shows tree leaveOut directory front name

/-- Such names lead to a directory. -/
def Open (tree : FileTree) (leaveOut : String → Bool → Bool) (directory : String)
    (names : List String) : Prop :=
  Shown tree leaveOut directory names ∧ tree.isDirectory (descend directory names) = true

variable {names front : List String} {name : String}

theorem shown_nil : Shown tree leaveOut directory [] := by
  intro front name h
  simp at h

theorem shown_concat :
    Shown tree leaveOut directory (names ++ [name]) ↔
      Shown tree leaveOut directory names ∧ Shows tree leaveOut directory names name := by
  constructor
  · intro h
    exact ⟨fun front last hfront => h front last (hfront.trans (List.prefix_append _ _)),
      h names name (List.prefix_refl _)⟩
  · rintro ⟨hnames, hname⟩ front last hfront
    rcases List.prefix_concat_iff.mp hfront with heq | hfront
    · obtain ⟨rfl, hlast⟩ := List.append_inj' heq rfl
      rw [(List.cons.inj hlast).1]
      exact hname
    · exact hnames front last hfront

theorem Shown.of_front (h : Shown tree leaveOut directory names) (hfront : front <+: names) :
    Shown tree leaveOut directory front :=
  fun before name hbefore => h before name (hbefore.trans hfront)

theorem Shows.isDirectory (h : Shows tree leaveOut directory front name) :
    tree.isDirectory (descend directory front) = true := by
  obtain ⟨names, hlist, -⟩ := h.listed
  exact isDirectory_of_list hlist

theorem Shown.isName (hwell : tree.WellFormed) (h : Shown tree leaveOut directory names) :
    ∀ name ∈ names, Key.IsName name.toList := by
  induction names using List.reverseRecOn with
  | nil => exact nofun
  | append_singleton names last ih =>
    obtain ⟨hnames, hlast⟩ := shown_concat.mp h
    refine List.forall_mem_append.mpr ⟨ih hnames, List.forall_mem_singleton.mpr ?_⟩
    obtain ⟨all, hlist, hmem⟩ := hlast.listed
    exact (hwell.of_list hlist).2 last hmem

theorem Open.of_concat (h : Open tree leaveOut directory (names ++ [name])) :
    Open tree leaveOut directory names ∧ Shows tree leaveOut directory names name := by
  obtain ⟨hnames, hname⟩ := shown_concat.mp h.1
  exact ⟨⟨hnames, hname.isDirectory⟩, hname⟩

/-- A row of names that may be followed leads to another path than any other such row. -/
theorem Shown.descend_inj (hwell : tree.WellFormed) (h : Shown tree leaveOut directory names)
    {names' : List String} (h' : Shown tree leaveOut directory names')
    (heq : descend directory names = descend directory names') : names = names' :=
  FilePath.descend_inj (h.isName hwell) (h'.isName hwell) heq

/-- What a walk looks at in a directory. -/
theorem mem_visible_descend {all : List String} {child : String} {isDirectory : Bool}
    (hlist : tree.list (descend directory front) = .ok all) :
    (child, isDirectory) ∈ tree.visible leaveOut (descend directory front) all ↔
      ∃ name, child = descend directory (front ++ [name]) ∧
        isDirectory = tree.isDirectory child ∧ Shows tree leaveOut directory front name := by
  rw [mem_visible]
  refine exists_congr fun name => ?_
  rw [FilePath.descend_concat]
  constructor
  · rintro ⟨hmem, rfl, hshown, rfl, hkept⟩
    refine ⟨rfl, rfl, ⟨all, hlist, hmem⟩, hshown, ?_⟩
    rwa [FilePath.descend_concat]
  · rintro ⟨rfl, rfl, ⟨all', hlist', hmem⟩, hshown, hkept⟩
    cases hlist.symm.trans hlist'
    rw [FilePath.descend_concat] at hkept
    exact ⟨hmem, rfl, hshown, rfl, hkept⟩

/-! ## Walks through a directory -/

/-- The directory that some names lead to is listed under the path that they spell. -/
def Listed (events : List Event) (directory : String) (names : List String) : Prop :=
  ∃ place, .listed (descend directory names) place ∈ events

/-- Every directory on the way that some names spell is listed under its path. -/
def ListedAlong (events : List Event) (directory : String) (names : List String) : Prop :=
  ∀ front, front <+: names → Listed events directory front

theorem ListedAlong.of_listed {events : List Event} (hlisted : Listed events directory names)
    (habove : ∀ front, front <+: names → front ≠ names → Listed events directory front) :
    ListedAlong events directory names := by
  intro front hfront
  by_cases heq : front = names
  · exact heq ▸ hlisted
  · exact habove front hfront heq

/-- A path is looked at: it is that of a row of names along which all is listed, but maybe what is
at its end. -/
def Reached (tree : FileTree) (leaveOut : String → Bool → Bool) (directory : String)
    (events : List Event) (path : String) (isDirectory : Bool) : Prop :=
  ∃ names, path = descend directory names ∧ Shown tree leaveOut directory names ∧
    (∀ front, front <+: names → front ≠ names → Listed events directory front) ∧
    (isDirectory = false → names ≠ [] ∧ tree.isDirectory path = false)

section Walks

variable {events : List Event} {after : List Place}
  (h : Walks tree leaveOut [] [(directory, true)] events after)

include h

theorem Walks.reached :
    (∀ path place, .listed path place ∈ events →
      Reached tree leaveOut directory events path true ∧ tree.place path = .ok place) ∧
    ∀ path, .found path ∈ events → Reached tree leaveOut directory events path false := by
  refine h.origin (List.Subset.refl events)
    (List.forall_mem_singleton.mpr ⟨[], rfl, shown_nil, ?_, nofun⟩) ?_
  · intro front hfront hne
    exact absurd (List.prefix_nil.mp hfront) hne
  · rintro path place all ⟨names, rfl, hshown, habove, -⟩ hmem hlist ⟨child, isDirectory⟩ hitem
    obtain ⟨name, rfl, rfl, hshows⟩ := (mem_visible_descend hlist).mp hitem
    refine ⟨names ++ [name], rfl, shown_concat.mpr ⟨hshown, hshows⟩, ?_, ?_⟩
    · intro front hfront hne
      exact ListedAlong.of_listed ⟨place, hmem⟩ habove front
        ((List.prefix_concat_iff.mp hfront).resolve_left hne)
    · intro hfile
      exact ⟨by simp, hfile⟩

/-- A directory is listed only at the end of a row of names along which all is listed. -/
theorem Walks.exists_listed {path : String} {place : Place} (hmem : .listed path place ∈ events) :
    tree.place path = .ok place ∧ ∃ names, path = descend directory names ∧
      Shown tree leaveOut directory names ∧ ListedAlong events directory names := by
  obtain ⟨⟨names, rfl, hshown, habove, -⟩, hplace⟩ := h.reached.1 path place hmem
  exact ⟨hplace, names, rfl, hshown, .of_listed ⟨place, hmem⟩ habove⟩

/-- A file is found only in a directory at the end of such a row. -/
theorem Walks.exists_found {path : String} (hmem : .found path ∈ events) :
    ∃ front name, path = descend directory (front ++ [name]) ∧ tree.isDirectory path = false ∧
      Shown tree leaveOut directory (front ++ [name]) ∧ ListedAlong events directory front := by
  obtain ⟨names, rfl, hshown, habove, hfile⟩ := h.reached.2 path hmem
  obtain ⟨hne, hfile⟩ := hfile rfl
  obtain ⟨front, name, rfl⟩ := (List.eq_nil_or_concat' names).resolve_left hne
  refine ⟨front, name, rfl, hfile, hshown, fun before hbefore => ?_⟩
  refine habove before (hbefore.trans (List.prefix_append front [name])) ?_
  rintro rfl
  have hlength := hbefore.length_le
  simp only [List.length_append, List.length_singleton] at hlength
  omega

/-- The places of the directories that are listed are different. -/
theorem Walks.nodup_listings : ((listings events).map Prod.snd).Nodup := by
  have hafter := h.nodup List.nodup_nil
  rwa [h.after_eq, List.append_nil, List.nodup_reverse] at hafter

/-- What is listed under two paths is listed twice. -/
theorem Walks.listed_inj (hwell : tree.WellFormed) {names names' : List String}
    (hnames : Shown tree leaveOut directory names) (hnames' : Shown tree leaveOut directory names')
    (hlisted : Listed events directory names) (hlisted' : Listed events directory names')
    (heq : tree.place (descend directory names) = tree.place (descend directory names')) :
    names = names' := by
  obtain ⟨place, hmem⟩ := hlisted
  obtain ⟨place', hmem'⟩ := hlisted'
  rw [(h.exists_listed hmem).1, (h.exists_listed hmem').1] at heq
  cases heq
  have hsame := List.inj_on_of_nodup_map h.nodup_listings (mem_listings.mpr hmem)
    (mem_listings.mpr hmem') rfl
  exact hnames.descend_inj hwell hnames' (Prod.mk.inj hsame).1

/-- The directory itself is listed first. -/
theorem Walks.listed_directory (hdirectory : tree.isDirectory directory = true) :
    Listed events directory [] := by
  obtain ⟨place, entries, hplace, hat⟩ := isDirectory_iff.mp hdirectory
  exact ⟨place, (h.enters hplace List.not_mem_nil
    (list_eq_ok_iff.mpr ⟨place, entries, hplace, hat, rfl⟩)).1⟩

/-- A directory in a listed one is listed, though maybe under another path. -/
theorem Walks.exists_same_place (hlisted : Listed events directory front)
    (hshows : Shows tree leaveOut directory front name)
    (hdirectory : tree.isDirectory (descend directory (front ++ [name])) = true) :
    ∃ names, Shown tree leaveOut directory names ∧ ListedAlong events directory names ∧
      tree.place (descend directory names) = tree.place (descend directory (front ++ [name])) := by
  obtain ⟨place, hmem⟩ := hlisted
  obtain ⟨all, hlist, hitems⟩ := h.covers.2 _ place hmem
  obtain ⟨inner, _, hinner, _⟩ := isDirectory_iff.mp hdirectory
  have hvisible := (mem_visible_descend hlist).mpr ⟨name, rfl, rfl, hshows⟩
  rw [hdirectory] at hvisible
  have hafter : inner ∈ after := hitems _ hvisible inner hdirectory hinner
  rw [h.after_eq, List.append_nil, List.mem_reverse, List.mem_map] at hafter
  obtain ⟨⟨path, place'⟩, hpath, rfl⟩ := hafter
  obtain ⟨hplace, names, rfl, hshown, halong⟩ := h.exists_listed (mem_listings.mp hpath)
  exact ⟨names, hshown, halong, hplace.trans hinner.symm⟩

/-- A file in a listed directory is found. -/
theorem Walks.found_of_shows (hlisted : Listed events directory front)
    (hshows : Shows tree leaveOut directory front name)
    (hfile : tree.isDirectory (descend directory (front ++ [name])) = false) :
    .found (descend directory (front ++ [name])) ∈ events := by
  obtain ⟨place, hmem⟩ := hlisted
  obtain ⟨all, hlist, hitems⟩ := h.covers.2 _ place hmem
  have hvisible := (mem_visible_descend hlist).mpr ⟨name, rfl, rfl, hshows⟩
  rw [hfile] at hvisible
  exact hitems _ hvisible

/-! ## Rows without returns -/

/-- Names that lead to a directory without coming twice to one on the way. -/
def Route (tree : FileTree) (leaveOut : String → Bool → Bool) (directory : String)
    (names : List String) : Prop :=
  Open tree leaveOut directory names ∧ ∀ front back, front <+: names → back <+: names →
    tree.place (descend directory front) = tree.place (descend directory back) → front = back

/-- A directory is listed at the end of a row without returns. -/
theorem Walks.route (hwell : tree.WellFormed) (hshown : Shown tree leaveOut directory names)
    (halong : ListedAlong events directory names) : Route tree leaveOut directory names := by
  obtain ⟨place, hmem⟩ := halong names (List.prefix_refl names)
  obtain ⟨all, hlist, -⟩ := h.covers.2 _ place hmem
  refine ⟨⟨hshown, isDirectory_of_list hlist⟩, ?_⟩
  intro front back hfront hback
  exact h.listed_inj hwell (hshown.of_front hfront) (hshown.of_front hback) (halong front hfront)
    (halong back hback)

end Walks

theorem Open.of_front (h : Open tree leaveOut directory names) (hfront : front <+: names) :
    Open tree leaveOut directory front := by
  refine ⟨h.1.of_front hfront, ?_⟩
  obtain ⟨back, rfl⟩ := hfront
  cases back with
  | nil => simpa using h.2
  | cons name back =>
    have hnext : front ++ [name] <+: front ++ name :: back := by
      simp
    exact (h.1 front name hnext).isDirectory

theorem Route.of_front (h : Route tree leaveOut directory names) (hfront : front <+: names) :
    Route tree leaveOut directory front :=
  ⟨h.1.of_front hfront, fun before back hbefore hback =>
    h.2 before back (hbefore.trans hfront) (hback.trans hfront)⟩

/-- Each directory on the way to a file is at the end of one row without returns only. -/
def Unambiguous (tree : FileTree) (leaveOut : String → Bool → Bool) (directory : String) : Prop :=
  ∀ names name, Route tree leaveOut directory names → Shows tree leaveOut directory names name →
    tree.isDirectory (descend directory (names ++ [name])) = false →
    ∀ front, front <+: names → ∀ other, Route tree leaveOut directory other →
      tree.place (descend directory other) = tree.place (descend directory front) → other = front

/-- Where the way to a file is the only one, all is listed along it. -/
theorem Unambiguous.listedAlong (hsingle : Unambiguous tree leaveOut directory)
    (hwell : tree.WellFormed) {events : List Event} {after : List Place}
    (h : Walks tree leaveOut [] [(directory, true)] events after)
    (hroute : Route tree leaveOut directory names)
    (hshows : Shows tree leaveOut directory names name)
    (hfile : tree.isDirectory (descend directory (names ++ [name])) = false) :
    ListedAlong events directory names := by
  intro front hfront
  induction front using List.reverseRecOn with
  | nil => exact h.listed_directory (hroute.1.of_front hfront).2
  | append_singleton front next ih =>
    have hopen := hroute.1.of_front hfront
    have hlisted := ih ((List.prefix_append front [next]).trans hfront)
    -- the next directory is listed under some path, and there is only this one
    obtain ⟨other, hshown, halong, hplace⟩ :=
      h.exists_same_place hlisted hopen.of_concat.2 hopen.2
    have hother := h.route hwell hshown halong
    rw [← hsingle names name hroute hshows hfile _ hfront other hother hplace]
    exact halong other (List.prefix_refl other)

/-! ## What is below a directory -/

theorem mem_filesIn {path : String} :
    path ∈ filesIn tree leaveOut (descend directory front) ↔
      ∃ name, path = descend directory (front ++ [name]) ∧ tree.isDirectory path = false ∧
        Shows tree leaveOut directory front name := by
  rw [filesIn]
  split
  · next all hlist =>
    rw [filesAmong, List.mem_map]
    constructor
    · rintro ⟨⟨child, isDirectory⟩, hmem, rfl⟩
      obtain ⟨hmem, hfile⟩ := List.mem_filter.mp hmem
      obtain ⟨name, rfl, rfl, hshows⟩ := (mem_visible_descend hlist).mp hmem
      exact ⟨name, rfl, by simpa using hfile, hshows⟩
    · rintro ⟨name, rfl, hfile, hshows⟩
      have hmem := (mem_visible_descend hlist).mpr ⟨name, rfl, hfile.symm, hshows⟩
      exact ⟨(_, false), List.mem_filter.mpr ⟨hmem, rfl⟩, rfl⟩
  · next error hlist =>
    refine iff_of_false List.not_mem_nil ?_
    rintro ⟨name, rfl, -, hshows⟩
    obtain ⟨all, hall, -⟩ := hshows.listed
    rw [hlist] at hall
    cases hall

/-- The files in one directory have different paths. -/
theorem nodup_filesIn (hwell : tree.WellFormed) (path : String) :
    (filesIn tree leaveOut path).Nodup := by
  rw [filesIn]
  split
  · next names hlist =>
    obtain ⟨hnodup, hnames⟩ := hwell.of_list hlist
    have hvisible : ((tree.visible leaveOut path names).map Prod.fst).Nodup := by
      rw [List.Nodup, List.pairwise_map, visible, List.pairwise_filterMap]
      refine List.Pairwise.imp_of_mem ?_ hnodup
      intro name name' hname hname' hne item hitem item' hitem' heq
      dsimp only at hitem hitem'
      split at hitem
      · cases hitem
      · split at hitem'
        · cases hitem'
        · cases hitem
          cases hitem'
          have hsteps := congrArg FilePath.components heq
          rw [FilePath.components_join (hnames name hname),
            FilePath.components_join (hnames name' hname')] at hsteps
          exact hne (List.cons.inj (List.append_cancel_left hsteps)).1
    exact hvisible.sublist (List.filter_sublist.map Prod.fst)
  · exact List.nodup_nil

/-- No file is found twice. -/
theorem Walks.nodup_findings (hwell : tree.WellFormed) {events : List Event} {after : List Place}
    (h : Walks tree leaveOut [] [(directory, true)] events after) : (findings events).Nodup := by
  rw [h.files_perm.nodup_iff]
  show (List.flatMap _ _).Nodup
  rw [List.nodup_flatMap]
  refine ⟨fun listing _ => nodup_filesIn hwell listing.1, ?_⟩
  refine List.Pairwise.imp_of_mem ?_ (List.Nodup.of_map Prod.snd h.nodup_listings)
  rintro ⟨path, place⟩ ⟨path', place'⟩ hmem hmem' hne file hfile hfile'
  obtain ⟨hplace, names, rfl, hshown, -⟩ := h.exists_listed (mem_listings.mp hmem)
  obtain ⟨hplace', names', rfl, hshown', -⟩ := h.exists_listed (mem_listings.mp hmem')
  obtain ⟨name, rfl, -, hshows⟩ := mem_filesIn.mp hfile
  obtain ⟨name', heq, -, hshows'⟩ := mem_filesIn.mp hfile'
  have hsame := (shown_concat.mpr ⟨hshown, hshows⟩).descend_inj hwell
    (shown_concat.mpr ⟨hshown', hshows'⟩) heq
  obtain ⟨rfl, -⟩ := List.append_inj' hsame rfl
  cases hplace.symm.trans hplace'
  exact hne rfl

theorem mem_filesBelow {events : List Event} {after : List Place}
    (h : Walks tree leaveOut [] [(directory, true)] events after) {path : String} :
    path ∈ tree.filesBelow leaveOut directory ↔ .found path ∈ events := by
  rw [filesBelow, List.mem_mergeSort, h.walk_eq, mem_findings]

/-- The files below a directory are in strictly ascending order. -/
theorem pairwise_filesBelow (hwell : tree.WellFormed) (leaveOut : String → Bool → Bool)
    (directory : String) :
    (tree.filesBelow leaveOut directory).Pairwise fun a b =>
      FilePath.components a < FilePath.components b := by
  obtain ⟨events, after, h⟩ := tree.exists_walks leaveOut [] [(directory, true)]
  have hnodup : (tree.filesBelow leaveOut directory).Nodup := by
    rw [filesBelow, (List.mergeSort_perm _ _).nodup_iff, h.walk_eq]
    exact h.nodup_findings hwell
  have hsorted : (tree.filesBelow leaveOut directory).Pairwise fun a b => pathLe a b := by
    refine List.pairwise_mergeSort (fun a b c hab hbc => ?_) (fun a b => ?_) _
    · simp only [pathLe, Bool.not_eq_true', decide_eq_false_iff_not, List.not_lt] at hab hbc ⊢
      exact List.le_trans hab hbc
    · simp only [pathLe, Bool.or_eq_true, Bool.not_eq_true', decide_eq_false_iff_not, List.not_lt]
      exact List.le_total _ _
  refine List.Pairwise.imp_of_mem ?_ (hnodup.and hsorted)
  -- two paths that are found and have the same steps are one
  rintro a b ha hb ⟨hne, hle⟩
  obtain ⟨front, name, rfl, -, hshown, -⟩ := h.exists_found ((mem_filesBelow h).mp ha)
  obtain ⟨front', name', rfl, -, hshown', -⟩ := h.exists_found ((mem_filesBelow h).mp hb)
  simp only [pathLe, Bool.not_eq_true', decide_eq_false_iff_not] at hle
  by_contra hge
  have hsteps := List.le_antisymm hle hge
  rw [FilePath.components_descend (hshown.isName hwell),
    FilePath.components_descend (hshown'.isName hwell)] at hsteps
  exact hne (congrArg _ (List.append_cancel_left hsteps))

/-- Where the way to each file is the only one, all files at the end of rows without returns are
below the directory, and no others. -/
theorem Unambiguous.mem_filesBelow_iff (hsingle : Unambiguous tree leaveOut directory)
    (hwell : tree.WellFormed) {path : String} :
    path ∈ tree.filesBelow leaveOut directory ↔
      ∃ names name, path = descend directory (names ++ [name]) ∧ tree.isDirectory path = false ∧
        Route tree leaveOut directory names ∧ Shows tree leaveOut directory names name := by
  obtain ⟨events, after, h⟩ := tree.exists_walks leaveOut [] [(directory, true)]
  rw [mem_filesBelow h]
  constructor
  · intro hfound
    obtain ⟨front, name, rfl, hfile, hshown, halong⟩ := h.exists_found hfound
    obtain ⟨hfront, hshows⟩ := shown_concat.mp hshown
    exact ⟨front, name, rfl, hfile, h.route hwell hfront halong, hshows⟩
  · rintro ⟨names, name, rfl, hfile, hroute, hshows⟩
    have halong := hsingle.listedAlong hwell h hroute hshows hfile
    exact h.found_of_shows (halong names (List.prefix_refl names)) hshows hfile

end Transclusion.FileTree
