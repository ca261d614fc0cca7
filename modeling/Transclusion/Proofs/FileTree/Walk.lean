import Mathlib.Data.List.Nodup
import Mathlib.Data.List.Perm.Basic
import Transclusion.FileTree.Walk

/-!
# The walk as a recursion

`FileTree.walk` keeps one list of paths to look at. Here it is a recursion through directories that
hands the visited directories on from each entry to the next, and everything is said of that.

* `FileTree.Walks` — looking at some paths, with all that is listed and found on the way;
* `FileTree.exists_walks`, `FileTree.Walks.unique` — it comes to an end, and to one only;
* `FileTree.Walks.walkFrom_append`, `FileTree.Walks.walk_eq` — what it finds is what `walk` gives;
* `FileTree.Walks.nodup` — no directory is listed twice;
* `FileTree.Walks.origin`, `FileTree.Walks.covers` — what is listed and found was to be looked at,
  and whatever was to be looked at is found, or leads to a directory that was listed;
* `FileTree.Walks.files_perm` — what is found, directory by directory.
-/

namespace Transclusion.FileTree

variable {tree : FileTree} {leaveOut : String → Bool → Bool}

/-! ## Directories and their entries -/

theorem list_eq_ok_iff {path : String} {names : List String} :
    tree.list path = .ok names ↔ ∃ place entries, tree.place path = .ok place ∧
      tree.root.at? place = some (.directory entries) ∧ names = entries.map Prod.fst := by
  rw [list, node]
  cases hplace : tree.place path with
  | error error => simp
  | ok place =>
    dsimp only
    cases hat : tree.root.at? place with
    | none => simp [hat]
    | some node => cases node <;> simp [hat, eq_comm]

theorem isDirectory_iff {path : String} :
    tree.isDirectory path = true ↔ ∃ place entries, tree.place path = .ok place ∧
      tree.root.at? place = some (.directory entries) := by
  rw [isDirectory, node]
  cases hplace : tree.place path with
  | error error => simp
  | ok place =>
    dsimp only
    cases hat : tree.root.at? place with
    | none => simp [hat]
    | some node => cases node <;> simp [hat]

theorem isDirectory_of_list {path : String} {names : List String}
    (h : tree.list path = .ok names) : tree.isDirectory path = true := by
  obtain ⟨place, entries, hplace, hat, -⟩ := list_eq_ok_iff.mp h
  exact isDirectory_iff.mpr ⟨place, entries, hplace, hat⟩

theorem mem_visible {path child : String} {isDirectory : Bool} {names : List String} :
    (child, isDirectory) ∈ tree.visible leaveOut path names ↔
      ∃ name ∈ names, child = FilePath.join path name ∧ isHidden name = false ∧
        isDirectory = tree.isDirectory child ∧ leaveOut child isDirectory = false := by
  rw [visible, List.mem_filterMap]
  refine exists_congr fun name => and_congr_right fun _ => ?_
  dsimp only
  split
  · next hout =>
    refine iff_of_false nofun ?_
    rintro ⟨rfl, hshown, rfl, hkept⟩
    rw [hshown, hkept] at hout
    exact nomatch hout
  · next hin =>
    rw [Bool.not_eq_true, Bool.or_eq_false_iff] at hin
    simp only [Option.some.injEq, Prod.mk.injEq]
    constructor
    · rintro ⟨rfl, rfl⟩
      exact ⟨rfl, hin.1, rfl, hin.2⟩
    · rintro ⟨rfl, -, rfl, -⟩
      exact ⟨rfl, rfl⟩

theorem visible_cons {path name : String} (all : List String) (hshown : isHidden name = false)
    (hkept :
      leaveOut (FilePath.join path name) (tree.isDirectory (FilePath.join path name)) = false) :
    tree.visible leaveOut path (name :: all) =
      (FilePath.join path name, tree.isDirectory (FilePath.join path name)) ::
        tree.visible leaveOut path all := by
  refine List.filterMap_cons_some ?_
  dsimp only
  rw [hshown, hkept]
  rfl

/-! ## Walks -/

/-- What happens in a walk. -/
inductive Event
  /-- The entries of the directory at a path are listed. -/
  | listed (path : String) (place : Place)
  /-- A file is found at a path. -/
  | found (path : String)
  deriving DecidableEq

def Event.listed? : Event → Option (String × Place)
  | listed path place => some (path, place)
  | found _ => none

def Event.found? : Event → Option String
  | listed .. => none
  | found path => some path

/-- The directories that were listed, by the paths under which they were. -/
def listings (events : List Event) : List (String × Place) :=
  events.filterMap Event.listed?

/-- The files that were found. -/
def findings (events : List Event) : List String :=
  events.filterMap Event.found?

section Events

variable {events events' : List Event} {path : String} {place : Place}

@[simp] theorem listings_nil : listings [] = [] := rfl

@[simp] theorem listings_listed :
    listings (.listed path place :: events) = (path, place) :: listings events := rfl

@[simp] theorem listings_found : listings (.found path :: events) = listings events := rfl

@[simp] theorem listings_append :
    listings (events ++ events') = listings events ++ listings events' :=
  List.filterMap_append

@[simp] theorem findings_nil : findings [] = [] := rfl

@[simp] theorem findings_listed : findings (.listed path place :: events) = findings events := rfl

@[simp] theorem findings_found : findings (.found path :: events) = path :: findings events := rfl

@[simp] theorem findings_append :
    findings (events ++ events') = findings events ++ findings events' :=
  List.filterMap_append

@[simp] theorem mem_listings : (path, place) ∈ listings events ↔ .listed path place ∈ events := by
  rw [listings, List.mem_filterMap]
  constructor
  · rintro ⟨_ | _, hmem, heq⟩ <;> cases heq
    exact hmem
  · intro hmem
    exact ⟨_, hmem, rfl⟩

@[simp] theorem mem_findings : path ∈ findings events ↔ .found path ∈ events := by
  rw [findings, List.mem_filterMap]
  constructor
  · rintro ⟨_ | _, hmem, heq⟩ <;> cases heq
    exact hmem
  · intro hmem
    exact ⟨_, hmem, rfl⟩

end Events

/-- Looking at some paths, one after the other. `visited` are the directories that were listed
before, and `after` those that are in the end. A directory is entered, with all that is in it,
before the next path is looked at. -/
inductive Walks (tree : FileTree) (leaveOut : String → Bool → Bool) :
    (visited : List Place) → List (String × Bool) → List Event → (after : List Place) → Prop
  | done {visited : List Place} : Walks tree leaveOut visited [] [] visited
  | file {visited after : List Place} {path : String} {pending : List (String × Bool)}
      {events : List Event} (hrest : Walks tree leaveOut visited pending events after) :
      Walks tree leaveOut visited ((path, false) :: pending) (.found path :: events) after
  /-- What is no directory is passed over. -/
  | missing {visited after : List Place} {path : String} {pending : List (String × Bool)}
      {events : List Event} (hmissing : tree.isDirectory path = false)
      (hrest : Walks tree leaveOut visited pending events after) :
      Walks tree leaveOut visited ((path, true) :: pending) events after
  /-- What was visited is not listed again. -/
  | again {visited after : List Place} {path : String} {pending : List (String × Bool)}
      {events : List Event} {place : Place} (hplace : tree.place path = .ok place)
      (hvisited : place ∈ visited) (hrest : Walks tree leaveOut visited pending events after) :
      Walks tree leaveOut visited ((path, true) :: pending) events after
  | enter {visited between after : List Place} {path : String} {pending : List (String × Bool)}
      {inside events : List Event} {place : Place} {names : List String}
      (hplace : tree.place path = .ok place) (hnew : place ∉ visited)
      (hlist : tree.list path = .ok names)
      (hinside : Walks tree leaveOut (place :: visited) (tree.visible leaveOut path names) inside
        between)
      (hrest : Walks tree leaveOut between pending events after) :
      Walks tree leaveOut visited ((path, true) :: pending)
        (.listed path place :: (inside ++ events)) after

variable {visited after : List Place} {pending : List (String × Bool)} {events : List Event}

/-- What was listed is visited afterwards, and nothing else is new. -/
theorem Walks.after_eq (h : Walks tree leaveOut visited pending events after) :
    after = ((listings events).map Prod.snd).reverse ++ visited := by
  induction h with
  | done => rfl
  | file _ ih => exact ih
  | missing _ _ ih => exact ih
  | again _ _ _ ih => exact ih
  | enter _ _ _ _ _ ihinside ihrest =>
    rw [ihrest, ihinside]
    simp

theorem Walks.subset_after (h : Walks tree leaveOut visited pending events after) :
    visited ⊆ after := by
  rw [h.after_eq]
  exact List.subset_append_right _ _

/-- No directory is listed that was visited, and none twice. -/
theorem Walks.nodup (h : Walks tree leaveOut visited pending events after)
    (hvisited : visited.Nodup) : after.Nodup := by
  induction h with
  | done => exact hvisited
  | file _ ih => exact ih hvisited
  | missing _ _ ih => exact ih hvisited
  | again _ _ _ ih => exact ih hvisited
  | enter _ hnew _ _ _ ihinside ihrest =>
    exact ihrest (ihinside (List.nodup_cons.mpr ⟨hnew, hvisited⟩))

/-- A directory that was not visited is entered. -/
theorem Walks.enters {path : String} {place : Place} {names : List String}
    (h : Walks tree leaveOut visited ((path, true) :: pending) events after)
    (hplace : tree.place path = .ok place) (hnew : place ∉ visited)
    (hlist : tree.list path = .ok names) :
    .listed path place ∈ events ∧ ∃ inside between, inside ⊆ events ∧
      Walks tree leaveOut (place :: visited) (tree.visible leaveOut path names) inside between := by
  cases h with
  | missing hmissing =>
    rw [isDirectory_of_list hlist] at hmissing
    exact nomatch hmissing
  | again hplace' hvisited =>
    cases hplace.symm.trans hplace'
    exact absurd hvisited hnew
  | enter hplace' _ hlist' hinside =>
    cases hplace.symm.trans hplace'
    cases hlist.symm.trans hlist'
    exact ⟨List.mem_cons_self, _, _,
      List.subset_cons_of_subset _ (List.subset_append_left _ _), hinside⟩

/-- There is one way only to look at some paths. -/
theorem Walks.unique (h : Walks tree leaveOut visited pending events after) {events' : List Event}
    {after' : List Place} (h' : Walks tree leaveOut visited pending events' after') :
    events' = events ∧ after' = after := by
  induction h generalizing events' after' with
  | done =>
    cases h'
    exact ⟨rfl, rfl⟩
  | file _ ih =>
    cases h' with
    | file hrest' =>
      obtain ⟨rfl, rfl⟩ := ih hrest'
      exact ⟨rfl, rfl⟩
  | missing hmissing _ ih =>
    cases h' with
    | missing _ hrest' => exact ih hrest'
    | again _ _ hrest' => exact ih hrest'
    | enter _ _ hlist' =>
      rw [isDirectory_of_list hlist'] at hmissing
      exact nomatch hmissing
  | again hplace hvisited _ ih =>
    cases h' with
    | missing _ hrest' => exact ih hrest'
    | again _ _ hrest' => exact ih hrest'
    | enter hplace' hnew' =>
      cases hplace.symm.trans hplace'
      exact absurd hvisited hnew'
  | enter hplace hnew hlist _ _ ihinside ihrest =>
    cases h' with
    | missing hmissing' =>
      rw [isDirectory_of_list hlist] at hmissing'
      exact nomatch hmissing'
    | again hplace' hvisited' =>
      cases hplace.symm.trans hplace'
      exact absurd hvisited' hnew
    | enter hplace' _ hlist' hinside' hrest' =>
      cases hplace.symm.trans hplace'
      cases hlist.symm.trans hlist'
      obtain ⟨rfl, rfl⟩ := ihinside hinside'
      obtain ⟨rfl, rfl⟩ := ihrest hrest'
      exact ⟨rfl, rfl⟩

theorem length_unvisited_le {visited after : List Place} (h : visited ⊆ after) :
    (tree.unvisited after).length ≤ (tree.unvisited visited).length := by
  refine List.Sublist.length_le (List.monotone_filter_right _ fun place hplace => ?_)
  simp only [Bool.not_eq_true', List.contains_eq_mem, decide_eq_false_iff_not] at hplace ⊢
  exact fun hmem => hplace (h hmem)

/-- Looking at some paths comes to an end: inside a directory there is one less that was not visited
yet, and behind a path there is one path less to look at. -/
theorem exists_walks (tree : FileTree) (leaveOut : String → Bool → Bool) (visited : List Place)
    (pending : List (String × Bool)) :
    ∃ events after, Walks tree leaveOut visited pending events after := by
  induction hbound : (tree.unvisited visited).length using Nat.strongRecOn
    generalizing visited pending with
  | _ bound ihbound =>
    have hsmaller : ∀ visited', (tree.unvisited visited').length ≤ bound →
        ∃ events after, Walks tree leaveOut visited' pending events after := by
      induction pending with
      | nil => exact fun visited' _ => ⟨[], visited', .done⟩
      | cons item pending ih =>
        intro visited' hvisited'
        obtain ⟨path, _ | _⟩ := item
        · obtain ⟨events, after, hrest⟩ := ih visited' hvisited'
          exact ⟨_, after, .file hrest⟩
        · cases hdirectory : tree.isDirectory path with
          | false =>
            obtain ⟨events, after, hrest⟩ := ih visited' hvisited'
            exact ⟨events, after, .missing hdirectory hrest⟩
          | true =>
            obtain ⟨place, entries, hplace, hat⟩ := isDirectory_iff.mp hdirectory
            by_cases hmem : place ∈ visited'
            · obtain ⟨events, after, hrest⟩ := ih visited' hvisited'
              exact ⟨events, after, .again hplace hmem hrest⟩
            · -- inside, one directory less is unvisited; behind, no more than before
              have hless := unvisited_cons_lt hat (by simpa using hmem)
              obtain ⟨inside, between, hinside⟩ := ihbound _ (Nat.lt_of_lt_of_le hless hvisited')
                (place :: visited') (tree.visible leaveOut path (entries.map Prod.fst)) rfl
              have hbetween : (tree.unvisited between).length ≤ bound :=
                Nat.le_trans (length_unvisited_le hinside.subset_after)
                  (Nat.le_trans (Nat.le_of_lt hless) hvisited')
              obtain ⟨events, after, hrest⟩ := ih between hbetween
              exact ⟨_, after, .enter hplace hmem
                (list_eq_ok_iff.mpr ⟨place, entries, hplace, hat, rfl⟩) hinside hrest⟩
    exact hsmaller visited (Nat.le_of_eq hbound)

/-- The list of paths to look at is worked off as the recursion does it. -/
theorem Walks.walkFrom_append (h : Walks tree leaveOut visited pending events after)
    (rest : List (String × Bool)) :
    tree.walkFrom leaveOut visited (pending ++ rest) =
      findings events ++ tree.walkFrom leaveOut after rest := by
  induction h generalizing rest with
  | done => rfl
  | file _ ih =>
    rw [List.cons_append, walkFrom, if_neg Bool.false_ne_true, ih]
    rfl
  | @missing visited after path pending events hmissing _ ih =>
    rw [List.cons_append, walkFrom, if_pos rfl]
    split
    · exact ih rest
    · next place hplace =>
      split
      · exact ih rest
      · split
        · next entries hat =>
          rw [isDirectory_iff.mpr ⟨place, entries, hplace, hat⟩] at hmissing
          cases hmissing
        · exact ih rest
  | again hplace hvisited _ ih =>
    rw [List.cons_append, walkFrom, if_pos rfl, hplace]
    dsimp only
    rw [dif_pos (by simpa using hvisited)]
    exact ih rest
  | @enter visited between after path pending inside events place names hplace hnew hlist _ _
      ihinside ihrest =>
    obtain ⟨place', entries, hplace', hat, rfl⟩ := list_eq_ok_iff.mp hlist
    cases hplace.symm.trans hplace'
    rw [List.cons_append, walkFrom, if_pos rfl, hplace]
    dsimp only
    rw [dif_neg (by simpa using hnew)]
    split
    · next entries' hat' =>
      cases hat.symm.trans hat'
      rw [ihinside, ihrest]
      simp
    · next hother => exact absurd hat (hother entries)

/-- The walk through a directory finds what the recursion does. -/
theorem Walks.walk_eq {directory : String}
    (h : Walks tree leaveOut [] [(directory, true)] events after) :
    tree.walk leaveOut directory = findings events := by
  rw [walk]
  split
  · have hwalk := h.walkFrom_append []
    rwa [List.append_nil, walkFrom, List.append_nil] at hwalk
  · next hdirectory =>
    have hmissing : Walks tree leaveOut [] [(directory, true)] [] [] :=
      .missing (by simpa using hdirectory) .done
    rw [(hmissing.unique h).1]
    rfl

/-! ## What a walk comes to -/

/-- What holds of the paths to look at, and passes from a directory that is listed to those of its
entries that are looked at, holds of all that is listed and found. -/
theorem Walks.origin (h : Walks tree leaveOut visited pending events after)
    {motive : String → Bool → Prop} {all : List Event} (hall : events ⊆ all)
    (hpending : ∀ item ∈ pending, motive item.1 item.2)
    (hstep : ∀ path place names, motive path true → .listed path place ∈ all →
      tree.list path = .ok names → ∀ item ∈ tree.visible leaveOut path names,
        motive item.1 item.2) :
    (∀ path place, .listed path place ∈ events → motive path true ∧ tree.place path = .ok place) ∧
      ∀ path, .found path ∈ events → motive path false := by
  induction h with
  | done => exact ⟨fun _ _ h => (List.not_mem_nil h).elim, fun _ h => (List.not_mem_nil h).elim⟩
  | file _ ih =>
    obtain ⟨hfirst, hothers⟩ := List.forall_mem_cons.mp hpending
    obtain ⟨-, hrest⟩ := List.cons_subset.mp hall
    obtain ⟨hlisted, hfound⟩ := ih hrest hothers
    refine ⟨fun path place hmem => hlisted path place (by simpa using hmem), fun path hmem => ?_⟩
    rcases List.mem_cons.mp hmem with heq | hmem
    · cases heq
      exact hfirst
    · exact hfound path hmem
  | missing _ _ ih => exact ih hall (List.forall_mem_cons.mp hpending).2
  | again _ _ _ ih => exact ih hall (List.forall_mem_cons.mp hpending).2
  | enter hplace _ hlist _ _ ihinside ihrest =>
    obtain ⟨hfirst, hothers⟩ := List.forall_mem_cons.mp hpending
    obtain ⟨hself, hmore⟩ := List.cons_subset.mp hall
    obtain ⟨hinside, hrest⟩ := List.append_subset.mp hmore
    obtain ⟨hlistedInside, hfoundInside⟩ := ihinside hinside (hstep _ _ _ hfirst hself hlist)
    obtain ⟨hlistedRest, hfoundRest⟩ := ihrest hrest hothers
    constructor
    · intro path place hmem
      rcases List.mem_cons.mp hmem with heq | hmem
      · cases heq
        exact ⟨hfirst, hplace⟩
      · exact (List.mem_append.mp hmem).elim (hlistedInside path place) (hlistedRest path place)
    · intro path hmem
      rcases List.mem_cons.mp hmem with heq | hmem
      · exact nomatch heq
      · exact (List.mem_append.mp hmem).elim (hfoundInside path) (hfoundRest path)

/-- A path was looked at: it is that of a file that is found, or it leads to a directory that is
visited, if to any. -/
def LookedAt (tree : FileTree) (events : List Event) (after : List Place) :
    String × Bool → Prop
  | (path, false) => .found path ∈ events
  | (path, true) =>
      ∀ place, tree.isDirectory path = true → tree.place path = .ok place → place ∈ after

theorem LookedAt.mono {events' : List Event} {after' : List Place} {item : String × Bool}
    (h : LookedAt tree events after item) (hevents : events ⊆ events') (hafter : after ⊆ after') :
    LookedAt tree events' after' item := by
  obtain ⟨path, _ | _⟩ := item
  · exact hevents h
  · exact fun place hdirectory hplace => hafter (h place hdirectory hplace)

/-- All paths are looked at, and so are the entries of each directory that is listed. -/
theorem Walks.covers (h : Walks tree leaveOut visited pending events after) :
    (∀ item ∈ pending, LookedAt tree events after item) ∧
      ∀ path place, .listed path place ∈ events → ∃ names, tree.list path = .ok names ∧
        ∀ item ∈ tree.visible leaveOut path names, LookedAt tree events after item := by
  induction h with
  | done => exact ⟨nofun, fun _ _ h => (List.not_mem_nil h).elim⟩
  | @file visited after path pending events _ ih =>
    have hsub : events ⊆ .found path :: events := List.subset_cons_self _ _
    obtain ⟨hpending, hlisted⟩ := ih
    constructor
    · refine List.forall_mem_cons.mpr ⟨List.mem_cons_self, fun item hitem => ?_⟩
      exact (hpending item hitem).mono hsub (List.Subset.refl _)
    · intro path' place hmem
      obtain ⟨names, hnames, hitems⟩ := hlisted path' place (by simpa using hmem)
      exact ⟨names, hnames, fun item hitem => (hitems item hitem).mono hsub (List.Subset.refl _)⟩
  | missing hmissing _ ih =>
    refine ⟨List.forall_mem_cons.mpr ⟨?_, ih.1⟩, ih.2⟩
    intro place hdirectory
    rw [hmissing] at hdirectory
    exact nomatch hdirectory
  | again hplace hvisited hrest ih =>
    refine ⟨List.forall_mem_cons.mpr ⟨?_, ih.1⟩, ih.2⟩
    intro place _ hplace'
    cases hplace.symm.trans hplace'
    exact hrest.subset_after hvisited
  | @enter visited between after path pending inside events place names hplace _ hlist hinside hrest
      ihinside ihrest =>
    have hbetween : between ⊆ after := hrest.subset_after
    have hin : inside ⊆ .listed path place :: (inside ++ events) :=
      List.subset_cons_of_subset _ (List.subset_append_left _ _)
    have hout : events ⊆ .listed path place :: (inside ++ events) :=
      List.subset_cons_of_subset _ (List.subset_append_right _ _)
    constructor
    · refine List.forall_mem_cons.mpr ⟨fun place' _ hplace' => ?_, fun item hitem => ?_⟩
      · cases hplace.symm.trans hplace'
        exact hbetween (hinside.subset_after List.mem_cons_self)
      · exact (ihrest.1 item hitem).mono hout (List.Subset.refl _)
    · intro path' place' hmem
      rcases List.mem_cons.mp hmem with heq | hmem
      · cases heq
        exact ⟨names, hlist, fun item hitem => (ihinside.1 item hitem).mono hin hbetween⟩
      · rcases List.mem_append.mp hmem with hmem | hmem
        · obtain ⟨names', hnames', hitems⟩ := ihinside.2 path' place' hmem
          exact ⟨names', hnames', fun item hitem => (hitems item hitem).mono hin hbetween⟩
        · obtain ⟨names', hnames', hitems⟩ := ihrest.2 path' place' hmem
          exact ⟨names', hnames', fun item hitem =>
            (hitems item hitem).mono hout (List.Subset.refl _)⟩

/-- The files among some paths. -/
def filesAmong (items : List (String × Bool)) : List String :=
  (items.filter fun item => !item.2).map Prod.fst

/-- The files that are found in the directory at a path itself. -/
def filesIn (tree : FileTree) (leaveOut : String → Bool → Bool) (path : String) : List String :=
  match tree.list path with
  | .ok names => filesAmong (tree.visible leaveOut path names)
  | .error _ => []

/-- What is found are the files among the paths, and those in each directory that is listed. -/
theorem Walks.files_perm (h : Walks tree leaveOut visited pending events after) :
    (findings events).Perm (filesAmong pending ++
      (listings events).flatMap fun listing => filesIn tree leaveOut listing.1) := by
  induction h with
  | done => exact .nil
  | file _ ih => exact ih.cons _
  | missing _ _ ih => exact ih
  | again _ _ _ ih => exact ih
  | @enter visited between after path pending inside events place names _ _ hlist _ _ ihinside
      ihrest =>
    have hhere : filesIn tree leaveOut path = filesAmong (tree.visible leaveOut path names) := by
      rw [filesIn, hlist]
    rw [findings_listed, findings_append, listings_listed, listings_append, List.flatMap_cons,
      hhere, List.flatMap_append]
    refine (ihinside.append ihrest).trans ((List.perm_append_comm_assoc _ _ _).trans (.of_eq ?_))
    rw [List.append_assoc]
    rfl

end Transclusion.FileTree
