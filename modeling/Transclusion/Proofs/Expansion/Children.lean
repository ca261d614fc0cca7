import Mathlib.Data.List.Count
import Transclusion.Proofs.Expansion.Folder

/-!
# A directory is its children one after the other

A directive that names a directory expands to what directives for its immediate children expand to,
files and subdirectories in key order.

* `flatMap_filter_eraseDups` — a list in which equal values of a function stand side by side is its
  groups in a row;
* `Resolver.children`, `Resolver.members_eq_flatMap` — the children of a directory, and its members
  child by child;
* `Engine.memberPieces`, `Engine.expand_written_eq_ok` — a directive for a directory or a document
  is replaced by the pieces of the members there;
* `Engine.expand_directory_eq_children` — the expansions of the children, one behind the other.

A target may leave out the markdown suffix, and documents come before directories. So a document
`d/c.md` hides the directory `d/c` behind it: no target denotes that directory, and the law does not
hold (`Engine.expand_directory_ne_children`).
-/

namespace Transclusion

open Directive

/-! ## Values in groups -/

section Groups

variable {α β : Type} [DecidableEq β] {f : α → β}

/-- What comes in front, if nothing else is among it. -/
theorem filter_append_filter_not {p : α → Bool} {as : List α}
    (h : as.Pairwise fun a b => p b → p a) : as.filter p ++ as.filter (!p ·) = as := by
  induction as with
  | nil => rfl
  | cons a as ih =>
    obtain ⟨hfirst, hothers⟩ := List.pairwise_cons.mp h
    by_cases hp : p a
    · rw [List.filter_cons_of_pos hp, List.filter_cons_of_neg (by simpa using hp), List.cons_append,
        ih hothers]
    · have hnone : as.filter p = [] :=
        List.filter_eq_nil_iff.mpr fun b hb hpb => hp (hfirst b hb hpb)
      have hall : as.filter (!p ·) = as :=
        List.filter_eq_self.mpr fun b hb => by simpa using fun hpb => hp (hfirst b hb hpb)
      rw [List.filter_cons_of_neg hp, List.filter_cons_of_pos (by simpa using hp), hnone, hall]
      rfl

/-- A list in which equal values of a function stand side by side is its groups in a row. -/
theorem flatMap_filter_eraseDups {as : List α}
    (h : ∀ a b c, [a, b, c].Sublist as → f a = f c → f b = f a) :
    (as.map f).eraseDups.flatMap (fun b => as.filter (f · = b)) = as := by
  induction hlength : as.length using Nat.strong_induction_on generalizing as with
  | _ length ih =>
    cases as with
    | nil => rfl
    | cons a as =>
      let others := as.filter fun b => !(f b == f a)
      have hothers : others.Sublist as := List.filter_sublist
      have hgroup : (as.map f).filter (fun b => !(b == f a)) = others.map f := List.filter_map
      have hlater : ∀ b ∈ (others.map f).eraseDups,
          (a :: as).filter (f · = b) = others.filter (f · = b) := by
        intro b hb
        obtain ⟨c, hc, rfl⟩ := List.mem_map.mp (List.mem_eraseDups.mp hb)
        have hne : f c ≠ f a := by simpa using (List.mem_filter.mp hc).2
        rw [List.filter_cons_of_neg (by simpa using Ne.symm hne), List.filter_filter]
        refine List.filter_congr fun b _ => ?_
        by_cases hb : f b = f c <;> simp [hb, hne]
      have hrow : as.filter (f · = f a) ++ others = as := by
        refine filter_append_filter_not (p := (f · = f a)) ?_
        rw [List.pairwise_iff_forall_sublist]
        intro b c hbc hc
        rw [decide_eq_true_iff] at hc ⊢
        exact h a b c (hbc.cons_cons a) hc.symm
      have hless : others.length < length := by
        rw [← hlength]
        exact Nat.lt_succ_of_le hothers.length_le
      rw [List.map_cons, List.eraseDups_cons, List.flatMap_cons, hgroup, List.flatMap_congr hlater,
        ih _ hless (fun b c d hsub => h b c d ((hsub.trans hothers).cons a)) rfl,
        List.filter_cons_of_pos (by simp), List.cons_append, hrow]

end Groups

/-- Where each value of a row is made of another, the row is made of a row of these. -/
theorem forall₂_iff_exists_map {α β γ : Type} {r : α → β → Prop} {s : α → γ → Prop} {f : β → γ}
    {as : List α} {cs : List γ} (h : ∀ a ∈ as, ∀ c, s a c ↔ ∃ b, r a b ∧ c = f b) :
    List.Forall₂ s as cs ↔ ∃ bs, List.Forall₂ r as bs ∧ cs = bs.map f := by
  induction as generalizing cs with
  | nil => simp
  | cons a as ih =>
    obtain ⟨hfirst, hothers⟩ := List.forall_mem_cons.mp h
    simp only [List.forall₂_cons_left_iff, hfirst, ih hothers]
    constructor
    · rintro ⟨_, _, ⟨b, hb, rfl⟩, ⟨bs, hbs, rfl⟩, rfl⟩
      exact ⟨b :: bs, ⟨b, bs, hb, hbs, rfl⟩, rfl⟩
    · rintro ⟨_, ⟨b, bs, hb, hbs, rfl⟩, rfl⟩
      exact ⟨f b, bs.map f, ⟨b, hb, rfl⟩, ⟨bs, hbs, rfl⟩, rfl⟩

/-! ## Children -/

namespace Resolver

variable {documents : DocumentSet} {filter : String → Bool} {directory child : String}

/-- The first segments of the members of a directory below it, each once and in key order. -/
def children (documents : DocumentSet) (filter : String → Bool) (directory : String) :
    List String :=
  ((members documents filter directory).map (Key.childOf directory)).eraseDups

/-- The members of a directory that have the given first segment below it. -/
def childMembers (documents : DocumentSet) (filter : String → Bool) (directory child : String) :
    List String :=
  (members documents filter directory).filter (Key.childOf directory · = child)

theorem mem_members {key : String} :
    key ∈ members documents filter directory ↔
      key ∈ documents.keys ∧ filter key ∧ Key.isInside directory key := by
  simp [members]

theorem pairwise_members : (members documents filter directory).Pairwise (· < ·) :=
  documents.pairwise_keys.filter _

variable (hnormalized : ∀ key ∈ documents.keys, Key.Normalized key)
  (hapart : Key.Apart documents.keys)

include hnormalized

/-- A child of a directory is a name, and some member is there or inside. -/
theorem exists_member (hchild : child ∈ children documents filter directory) :
    Key.IsName child.toList ∧ ∃ key ∈ members documents filter directory,
      Key.childOf directory key = child ∧
        (key = Key.below directory child ∨ Key.isInside (Key.below directory child) key) := by
  obtain ⟨key, hkey, rfl⟩ := List.mem_map.mp (List.mem_eraseDups.mp hchild)
  obtain ⟨hmem, -, hinside⟩ := mem_members.mp hkey
  exact ⟨Key.isName_childOf (hnormalized key hmem) hinside, key, hkey, rfl,
    Key.eq_below_or_isInside (hnormalized key hmem) hinside⟩

include hapart

/-- The members of a directory, child by child. Where a child is a directory, its members stand side
by side, whatever other keys start like it. -/
theorem members_eq_flatMap :
    members documents filter directory =
      (children documents filter directory).flatMap (childMembers documents filter directory) := by
  refine (flatMap_filter_eraseDups ?_).symm
  intro a b c hsub hac
  obtain ⟨hab, hbc⟩ : a < b ∧ b < c := by
    have hpairwise := pairwise_members.sublist hsub
    simp only [List.pairwise_cons, List.mem_cons, List.not_mem_nil, or_false, forall_eq_or_imp,
      forall_eq] at hpairwise
    exact ⟨hpairwise.1.1, hpairwise.2.1⟩
  have hmem : ∀ key ∈ [a, b, c], key ∈ documents.keys ∧ Key.isInside directory key := by
    intro key hkey
    obtain ⟨hset, -, hinside⟩ := mem_members.mp (hsub.subset hkey)
    exact ⟨hset, hinside⟩
  obtain ⟨ha, hainside⟩ := hmem a (by simp)
  obtain ⟨hc, hcinside⟩ := hmem c (by simp)
  have hname := Key.isName_childOf (hnormalized a ha) hainside
  -- two documents with one first segment are both inside that child, so all between them are
  have hboth : Key.isInside (Key.below directory (Key.childOf directory a)) a ∧
      Key.isInside (Key.below directory (Key.childOf directory a)) c := by
    have hcases := Key.eq_below_or_isInside (hnormalized c hc) hcinside
    rw [← hac] at hcases
    rcases Key.eq_below_or_isInside (hnormalized a ha) hainside with hafile | hadirectory
    · rcases hcases with hcfile | hcdirectory
      · exact absurd (String.lt_trans hab hbc) (by rw [hcfile, ← hafile]; exact String.lt_irrefl a)
      · rw [← hafile, hapart a ha c hc] at hcdirectory
        exact nomatch hcdirectory
    · rcases hcases with hcfile | hcdirectory
      · rw [← hcfile, hapart c hc a ha] at hadirectory
        exact nomatch hadirectory
      · exact ⟨hadirectory, hcdirectory⟩
  have hbetween := Key.isInside_of_between hboth.1 hboth.2 hab hbc
  have hne : Key.childOf directory a ≠ "" := fun heq => hname.1 (by rw [heq]; rfl)
  exact (Key.childOf_of_isInside_below hne hname.2.2.2 hbetween).2

/-- Where a child is a document, that is all there is. -/
theorem childMembers_of_mem (hchild : child ∈ children documents filter directory)
    (hdocument : Key.below directory child ∈ documents.keys) :
    childMembers documents filter directory child = [Key.below directory child] := by
  obtain ⟨hname, key, hkey, hfirst, hcases⟩ := exists_member hnormalized hchild
  have hfile : ∀ other ∈ documents.keys,
      ¬ Key.isInside (Key.below directory child) other := by
    intro other hother
    rw [hapart _ hdocument other hother]
    exact Bool.false_ne_true
  obtain rfl : key = Key.below directory child :=
    hcases.resolve_right (hfile key (mem_members.mp hkey).1)
  have hall : ∀ other ∈ childMembers documents filter directory child,
      other = Key.below directory child := by
    intro other hother
    obtain ⟨hmem, heq⟩ := List.mem_filter.mp hother
    obtain ⟨hset, -, hinside⟩ := mem_members.mp hmem
    rw [decide_eq_true_iff] at heq
    have hother := Key.eq_below_or_isInside (hnormalized other hset) hinside
    rw [heq] at hother
    exact hother.resolve_right (hfile other hset)
  have hnodup : (childMembers documents filter directory child).Nodup :=
    (documents.nodup_keys.filter _).filter _
  have hthere : Key.below directory child ∈ childMembers documents filter directory child :=
    List.mem_filter.mpr ⟨hkey, decide_eq_true hfirst⟩
  rw [List.eq_replicate_of_mem hall, ← List.count_eq_length.mpr fun b hb => (hall b hb).symm,
    List.count_eq_one_of_mem hnodup hthere]
  rfl

omit hapart

/-- Where a child is a directory, its members are those of the directory. -/
theorem childMembers_of_not_mem (hchild : child ∈ children documents filter directory)
    (hdirectory : Key.below directory child ∉ documents.keys) :
    childMembers documents filter directory child =
      members documents filter (Key.below directory child) := by
  obtain ⟨hname, -⟩ := exists_member hnormalized hchild
  have hne : child ≠ "" := fun heq => hname.1 (by rw [heq]; rfl)
  rw [childMembers, members, members, List.filter_filter]
  refine List.filter_congr fun key hkey => ?_
  rw [Bool.eq_iff_iff]
  simp only [Bool.and_eq_true, decide_eq_true_eq]
  constructor
  · rintro ⟨rfl, hfilter, hinside⟩
    rcases Key.eq_below_or_isInside (hnormalized key hkey) hinside with heq | hbelow
    · exact absurd (heq ▸ hkey) hdirectory
    · exact ⟨hfilter, hbelow⟩
  · rintro ⟨hfilter, hbelow⟩
    obtain ⟨hinside, heq⟩ := Key.childOf_of_isInside_below hne hname.2.2.2 hbelow
    exact ⟨heq, hfilter, hinside⟩

end Resolver

/-! ## Pieces of members -/

namespace Engine

variable {engine : Engine} {extract : Bool} {filter : String → Bool} {source : String}

/-- The pieces of a document of the set, in the place of a directive of the document at `source`. -/
def memberPieces (engine : Engine) (extract : Bool) (source key : String) :
    Except Obstacle (List Piece) :=
  match engine.documents.get? key with
  | none => .ok []
  | some document => do
      let fragment ← (document.fragment extract source key).mapError .error
      fragmentPieces engine engine.fullPieces [source] source (bare ("/" ++ key)) "exact" fragment

/-- The expansion of a directive that is replaced by some pieces, and has no text around it. -/
def alone (ps : List Piece) : Expansion :=
  expansionOf (.text [] :: ps ++ [.text []])

theorem content_alone (ps : List Piece) : (alone ps).content = Piece.render ps := by
  simp [alone, expansionOf, Piece.chars]

/-- Without the details in comments, the pieces of a fragment do not depend on the directive. -/
theorem fragmentPieces_eq_ok_of_not_verbose (hverbose : engine.options.verbose = false)
    {build : Builder} {path : List String} {d d' : Directive} {resolver resolver' : String}
    {fragment : Fragment} {ps : List Piece}
    (h : fragmentPieces engine build path source d resolver fragment = .ok ps) :
    fragmentPieces engine build path source d' resolver' fragment = .ok ps := by
  have hmarker : ∀ key, engine.marker source d.target resolver key =
      engine.marker source d'.target resolver' key := by
    intro key
    simp [marker, hverbose]
  simpa only [fragmentPieces_eq_ok, hmarker] using h

theorem memberPieces_eq_ok (hverbose : engine.options.verbose = false) {key : String}
    {document : Document} (hdocument : engine.documents.get? key = some document) (d : Directive)
    (resolver : String) {ps : List Piece} :
    memberPieces engine extract source key = .ok ps ↔
      ∃ fragment, document.fragment extract source key = .ok fragment ∧
        fragmentPieces engine engine.fullPieces [source] source d resolver fragment = .ok ps := by
  simp only [memberPieces, hdocument, bind_eq_ok, mapError_eq_ok]
  refine exists_congr fun fragment => and_congr_right fun _ => ?_
  exact ⟨fragmentPieces_eq_ok_of_not_verbose hverbose, fragmentPieces_eq_ok_of_not_verbose hverbose⟩

/-- The pieces of members in a row are those of their fragments, in the place of any directive. -/
theorem collect_memberPieces_eq_ok (hverbose : engine.options.verbose = false) (d : Directive)
    (resolver : String) {keys : List String} (hkeys : ∀ key ∈ keys, key ∈ engine.documents.keys)
    {ps : List Piece} :
    collect (memberPieces engine extract source) keys = .ok ps ↔
      ∃ fragments, Resolver.fragments engine.documents extract source keys = .ok fragments ∧
        collect (fragmentPieces engine engine.fullPieces [source] source d resolver) fragments
          = .ok ps := by
  induction keys generalizing ps with
  | nil => simp [Resolver.fragments, pure, Except.pure]
  | cons key keys ih =>
    obtain ⟨hkey, hothers⟩ := List.forall_mem_cons.mp hkeys
    obtain ⟨document, hdocument⟩ := KeyMap.mem_keys_iff.mp hkey
    simp only [collect_cons_eq_ok, memberPieces_eq_ok hverbose hdocument d resolver, ih hothers,
      Resolver.fragments_cons_eq_ok hdocument]
    constructor
    · rintro ⟨here, rest, ⟨fragment, hfragment, hhere⟩, ⟨fragments, hfragments, hrest⟩, rfl⟩
      exact ⟨fragment :: fragments, ⟨fragment, fragments, hfragment, hfragments, rfl⟩,
        collect_cons_eq_ok.mpr ⟨here, rest, hhere, hrest, rfl⟩⟩
    · rintro ⟨_, ⟨fragment, fragments, hfragment, hfragments, rfl⟩, hps⟩
      obtain ⟨here, rest, hhere, hrest, rfl⟩ := collect_cons_eq_ok.mp hps
      exact ⟨here, rest, ⟨fragment, hfragment, hhere⟩, ⟨fragments, hfragments, hrest⟩, rfl⟩

section Targets

variable (hchain : engine.chain = [.exact extract, .folder extract filter])
  (hverbose : engine.options.verbose = false)

include hchain hverbose

/-- A directive for a directory is replaced by the pieces of its members. -/
theorem directivePieces_directory {target directory : String}
    (hlocal : isRemoteTarget target = false) (hjoin : Key.join source target = some directory)
    (hfree : directory ≠ "" → ∀ key ∈ Resolver.candidates directory, key ∉ engine.documents.keys)
    (hmembers : Resolver.members engine.documents filter directory ≠ []) {ps : List Piece} :
    directivePieces engine engine.fullPieces [source] source (bare target) = .ok ps ↔
      collect (memberPieces engine extract source)
        (Resolver.members engine.documents filter directory) = .ok ps := by
  have hkeys : ∀ key ∈ Resolver.members engine.documents filter directory,
      key ∈ engine.documents.keys := fun key hkey => (Resolver.mem_members.mp hkey).1
  rw [directivePieces, resolve_directory hchain hlocal hjoin hfree hmembers, bind_eq_ok,
    collect_memberPieces_eq_ok hverbose (bare target) "folder" hkeys]
  simp [map_eq_ok, mapError_eq_ok]

/-- A directive for a document is replaced by the pieces of it. -/
theorem directivePieces_member {key : String} (hnormalized : Key.Normalized key)
    (hkey : key ∈ engine.documents.keys) {ps : List Piece} :
    directivePieces engine engine.fullPieces [source] source (bare ("/" ++ key)) = .ok ps ↔
      collect (memberPieces engine extract source) [key] = .ok ps := by
  obtain ⟨document, hdocument⟩ := KeyMap.mem_keys_iff.mp hkey
  rw [directivePieces, resolve_member hchain hnormalized hdocument, bind_eq_ok, collect_cons_eq_ok]
  simp only [memberPieces_eq_ok hverbose hdocument (bare ("/" ++ key)) "exact"]
  simp [map_eq_ok, mapError_eq_ok, collect_cons_eq_ok]

omit hchain hverbose

/-- A directive with nothing around it expands to the pieces that replace it. -/
theorem expand_written_eq_ok (hpermalink : engine.options.permalink = false) {target : String}
    (h : IsTarget target) {e : Expansion} :
    engine.expand source (written target) = .ok e ↔
      ∃ ps, directivePieces engine engine.fullPieces [source] source (bare target) = .ok ps ∧
        e = alone ps := by
  have houtline : engine.outline source (written target) = ⟨[([], bare target)], []⟩ := by
    have hrow := Outline.ofText_join_written (List.forall_mem_singleton.mpr h)
    rw [outline, scanned, hpermalink]
    simpa using hrow
  rw [expand_eq_ok]
  simp only [fullPieces_eq, contentPieces_eq_ok, houtline, collect_cons_eq_ok,
    partPieces_eq_ok, collect_nil, Except.ok.injEq]
  constructor
  · rintro ⟨_, ⟨_, ⟨_, _, ⟨ps, hps, rfl⟩, rfl, rfl⟩, rfl⟩, rfl⟩
    exact ⟨ps, hps, by simp [alone]⟩
  · rintro ⟨ps, hps, rfl⟩
    exact ⟨_, ⟨_, ⟨_, _, ⟨ps, hps, rfl⟩, rfl, rfl⟩, rfl⟩, by simp [alone]⟩

end Targets

/-! ## Expansion -/

section Expand

variable (hchain : engine.chain = [.exact extract, .folder extract filter])
  (hpermalink : engine.options.permalink = false) (hverbose : engine.options.verbose = false)
  (hnormalized : ∀ key ∈ engine.documents.keys, Key.Normalized key)

include hchain hpermalink hverbose hnormalized

/-- A directory expands to the pieces of its members. -/
theorem expand_rooted_directory_eq_ok {directory : String}
    (hfree : directory ≠ "" → ∀ key ∈ Resolver.candidates directory, key ∉ engine.documents.keys)
    (hmembers : Resolver.members engine.documents filter directory ≠ [])
    (htargets : ∀ key ∈ Resolver.members engine.documents filter directory, IsTarget key)
    {e : Expansion} :
    engine.expand source (written ("/" ++ directory)) = .ok e ↔
      ∃ ps, collect (memberPieces engine extract source)
        (Resolver.members engine.documents filter directory) = .ok ps ∧ e = alone ps := by
  obtain ⟨key, hkey⟩ := List.exists_mem_of_ne_nil _ hmembers
  obtain ⟨hset, -, hinside⟩ := Resolver.mem_members.mp hkey
  obtain ⟨htarget, hlocal, hjoin⟩ : IsTarget ("/" ++ directory) ∧
      isRemoteTarget ("/" ++ directory) = false ∧
      Key.join source ("/" ++ directory) = some directory := by
    by_cases hroot : directory = ""
    · subst hroot
      exact ⟨by decide, by decide, rfl⟩
    · have hdirectory := Key.normalized_of_isInside (hnormalized key hset) hinside hroot
      obtain ⟨rest, hstart⟩ := Key.isInside_iff.mp hinside
      rw [Key.start_of_ne hroot, List.append_assoc] at hstart
      have hchars : IsTarget directory := by
        refine ⟨hroot, fun c hc => (htargets key hkey).2 c ?_⟩
        rw [hstart]
        exact List.mem_append_left _ hc
      exact ⟨isTarget_rooted hchars, Key.isRemoteTarget_rooted hdirectory,
        Key.join_rooted hdirectory source⟩
  rw [expand_written_eq_ok hpermalink htarget]
  simp only [directivePieces_directory hchain hverbose hlocal hjoin hfree hmembers]

/-- A child of a directory expands to the pieces of the members with that first segment. -/
theorem expand_child_eq_ok (hapart : Key.Apart engine.documents.keys) {directory child : String}
    (htargets : ∀ key ∈ Resolver.members engine.documents filter directory, IsTarget key)
    (hchild : child ∈ Resolver.children engine.documents filter directory)
    (hshown : Key.below directory child ++ Key.markdownSuffix ∈ engine.documents.keys →
      Key.below directory child ∈ engine.documents.keys) {e : Expansion} :
    engine.expand source (written ("/" ++ Key.below directory child)) = .ok e ↔
      ∃ ps, collect (memberPieces engine extract source)
        (Resolver.childMembers engine.documents filter directory child) = .ok ps ∧
        e = alone ps := by
  obtain ⟨-, key, hkey, hfirst, hcases⟩ := Resolver.exists_member hnormalized hchild
  by_cases hdocument : Key.below directory child ∈ engine.documents.keys
  · have htarget : IsTarget (Key.below directory child) := by
      refine htargets _ ?_
      have hthere := Resolver.childMembers_of_mem hnormalized hapart hchild hdocument
      exact List.mem_of_mem_filter (hthere ▸ List.mem_singleton_self _)
    rw [Resolver.childMembers_of_mem hnormalized hapart hchild hdocument,
      expand_written_eq_ok hpermalink (isTarget_rooted htarget)]
    simp only [directivePieces_member hchain hverbose (hnormalized _ hdocument) hdocument]
  · have hmembers := Resolver.childMembers_of_not_mem hnormalized hchild hdocument
    have hfree : ∀ candidate ∈ Resolver.candidates (Key.below directory child),
        candidate ∉ engine.documents.keys := by
      simpa [Resolver.candidates] using ⟨hdocument, fun hsuffix => hdocument (hshown hsuffix)⟩
    rw [hmembers]
    refine expand_rooted_directory_eq_ok hchain hpermalink hverbose hnormalized (fun _ => hfree)
      ?_ ?_
    · rw [← hmembers]
      exact List.ne_nil_of_mem (List.mem_filter.mpr ⟨hkey, decide_eq_true hfirst⟩)
    · rw [← hmembers]
      exact fun other hother => htargets other (List.mem_of_mem_filter hother)

/-- A directory comes to the same content as its immediate children one after the other: both come
to nothing, or both to the same text. No document stands where a directory is needed, the directory
is not hidden behind a document and has members, all of them can stand in a directive, and no child
that is a directory is hidden behind a document with the markdown suffix. -/
theorem expand_directory_eq_children (hapart : Key.Apart engine.documents.keys) {directory : String}
    (hfree : directory ≠ "" → directory ∉ engine.documents.keys ∧
      directory ++ Key.markdownSuffix ∉ engine.documents.keys)
    (hmembers : Resolver.members engine.documents filter directory ≠ [])
    (htargets : ∀ key ∈ Resolver.members engine.documents filter directory, IsTarget key)
    (hshown : ∀ child ∈ Resolver.children engine.documents filter directory,
      Key.below directory child ++ Key.markdownSuffix ∈ engine.documents.keys →
        Key.below directory child ∈ engine.documents.keys)
    (content : String) :
    (∃ e, engine.expand source (":[](/" ++ directory ++ ")") = .ok e ∧ e.content = content) ↔
      ∃ es, List.Forall₂ (fun child e =>
          engine.expand source (":[](/" ++ Key.below directory child ++ ")") = .ok e)
          (Resolver.children engine.documents filter directory) es ∧
        content = String.join (es.map Expansion.content) := by
  have hcandidates : directory ≠ "" →
      ∀ key ∈ Resolver.candidates directory, key ∉ engine.documents.keys := by
    intro hroot
    simpa [Resolver.candidates] using hfree hroot
  simp only [← written_rooted]
  simp only [expand_rooted_directory_eq_ok hchain hpermalink hverbose hnormalized hcandidates
    hmembers htargets]
  have hchildren : ∀ es, List.Forall₂ (fun child e =>
      engine.expand source (written ("/" ++ Key.below directory child)) = .ok e)
        (Resolver.children engine.documents filter directory) es ↔
      ∃ parts, List.Forall₂ (fun child part => collect (memberPieces engine extract source)
          (Resolver.childMembers engine.documents filter directory child) = .ok part)
          (Resolver.children engine.documents filter directory) parts ∧ es = parts.map alone :=
    fun _ => forall₂_iff_exists_map fun child hchild _ => expand_child_eq_ok hchain hpermalink
      hverbose hnormalized hapart htargets hchild (hshown child hchild)
  simp only [hchildren]
  rw [Resolver.members_eq_flatMap hnormalized hapart]
  simp only [collect_flatMap_eq_ok]
  constructor
  · rintro ⟨_, ⟨_, ⟨parts, hparts, rfl⟩, rfl⟩, rfl⟩
    refine ⟨_, ⟨parts, hparts, rfl⟩, ?_⟩
    rw [content_alone, Piece.render_flatten, List.map_map]
    exact congrArg String.join (List.map_congr_left fun ps _ => (content_alone ps).symm)
  · rintro ⟨_, ⟨parts, hparts, rfl⟩, rfl⟩
    refine ⟨_, ⟨_, ⟨parts, hparts, rfl⟩, rfl⟩, ?_⟩
    rw [content_alone, Piece.render_flatten, List.map_map]
    exact congrArg String.join (List.map_congr_left fun ps _ => (content_alone ps).symm)

end Expand

/-- A directory with a subdirectory between two documents, where the key of one document starts like
the subdirectory, and a key that the filter keeps out. -/
theorem expand_directory_eq_children_nested :
    let documents : DocumentSet := .ofList
      [("d/a-b.md", ⟨"1", .empty⟩), ("d/a/x.md", ⟨"2", .empty⟩), ("d/a/y.md", ⟨":[](/x.md)", .empty⟩),
        ("d/b.md", ⟨"4", .empty⟩), ("d/c.txt", ⟨"5", .empty⟩), ("x.md", ⟨"3", .empty⟩)]
    let filter : String → Bool := fun key => key ≠ "d/c.txt"
    let engine : Engine := ⟨default, documents, [.exact false, .folder false filter], {}⟩
    (∀ key ∈ documents.keys, Key.Normalized key) ∧ Key.Apart documents.keys ∧
    "d" ∉ documents.keys ∧ "d" ++ Key.markdownSuffix ∉ documents.keys ∧
    (∀ key ∈ Resolver.members documents filter "d", Directive.IsTarget key) ∧
    Resolver.children documents filter "d" = ["a-b.md", "a", "b.md"] ∧
    (∃ e, engine.expand "i.md" ":[](/d)" = .ok e ∧ e.content = "1234") ∧
    ∃ es, List.Forall₂ (fun child e =>
        engine.expand "i.md" (":[](/" ++ Key.below "d" child ++ ")") = .ok e)
      ["a-b.md", "a", "b.md"] es ∧ "1234" = String.join (es.map Expansion.content) := by
  intro documents filter engine
  have hnormalized : ∀ key ∈ documents.keys, Key.Normalized key := by decide +kernel
  have hapart : Key.Apart documents.keys := by decide +kernel
  have hfree : "d" ∉ documents.keys := by decide +kernel
  have hfree' : "d" ++ Key.markdownSuffix ∉ documents.keys := by decide +kernel
  have hmembers : Resolver.members engine.documents filter "d" ≠ [] := by decide +kernel
  have htargets : ∀ key ∈ Resolver.members engine.documents filter "d", Directive.IsTarget key := by
    decide +kernel
  have hchildren : Resolver.children engine.documents filter "d" = ["a-b.md", "a", "b.md"] := by
    decide +kernel
  have hshown : ∀ child ∈ Resolver.children engine.documents filter "d",
      Key.below "d" child ++ Key.markdownSuffix ∈ engine.documents.keys →
        Key.below "d" child ∈ engine.documents.keys := by
    decide +kernel
  have hwhole : ∃ e, engine.expand "i.md" ":[](/d)" = .ok e ∧ e.content = "1234" :=
    ⟨⟨"1234", .empty, ["d/a-b.md", "d/a/x.md", "d/a/y.md", "x.md", "d/b.md"]⟩,
      by decide +kernel, rfl⟩
  have hchain : engine.chain = [.exact false, .folder false filter] := rfl
  have hrow := (expand_directory_eq_children hchain rfl rfl hnormalized hapart
    (fun _ => ⟨hfree, hfree'⟩) hmembers htargets hshown "1234").mp hwhole
  rw [hchildren] at hrow
  exact ⟨hnormalized, hapart, hfree, hfree', htargets, hchildren, hwhole, hrow⟩

/-- A document with the markdown suffix hides a subdirectory of its name: the directory has both as
its children, and a directive for either comes to the document. -/
theorem expand_directory_ne_children :
    let documents : DocumentSet := .ofList [("d/a.md", ⟨"1", .empty⟩), ("d/a/x.md", ⟨"2", .empty⟩)]
    let engine : Engine := ⟨default, documents, [.exact false, .folder false fun _ => true], {}⟩
    (∀ key ∈ documents.keys, Key.Normalized key) ∧ Key.Apart documents.keys ∧
    "d" ∉ documents.keys ∧ "d" ++ Key.markdownSuffix ∉ documents.keys ∧
    (∀ key ∈ Resolver.members documents (fun _ => true) "d", Directive.IsTarget key) ∧
    Resolver.children documents (fun _ => true) "d" = ["a.md", "a"] ∧
    engine.expand "" ":[](/d)" = .ok ⟨"12", .empty, ["d/a.md", "d/a/x.md"]⟩ ∧
    ¬ ∃ es, List.Forall₂ (fun child e =>
        engine.expand "" (":[](/" ++ Key.below "d" child ++ ")") = .ok e) ["a.md", "a"] es ∧
      "12" = String.join (es.map Expansion.content) := by
  intro documents engine
  have hfile : engine.expand "" ":[](/d/a.md)" = .ok ⟨"1", .empty, ["d/a.md"]⟩ := by decide +kernel
  have hhidden : engine.expand "" ":[](/d/a)" = .ok ⟨"1", .empty, ["d/a.md"]⟩ := by decide +kernel
  refine ⟨by decide +kernel, by decide +kernel, by decide +kernel, by decide +kernel,
    by decide +kernel, by decide +kernel, by decide +kernel, ?_⟩
  rintro ⟨es, hes, hcontent⟩
  obtain ⟨file, rest, hfile', hrest, rfl⟩ := List.forall₂_cons_left_iff.mp hes
  obtain ⟨hidden, none, hhidden', hnone, rfl⟩ := List.forall₂_cons_left_iff.mp hrest
  obtain rfl := List.forall₂_nil_left_iff.mp hnone
  obtain rfl := Except.ok.inj (hfile'.symm.trans hfile)
  obtain rfl := Except.ok.inj (hhidden'.symm.trans hhidden)
  exact absurd hcontent (by decide)

end Engine

end Transclusion
