import Transclusion.Proofs.Key

/-!
# Targets as walks through directories

A target is walked segment by segment, so it can be cut at any of its slashes: the second part goes
on from the directory that the first one has come to. It leads nowhere exactly if the walk would
leave the root.

* `Key.entered`, `Key.leaves` — how many directories some segments enter and leave;
* `Key.length_of_step`, `Key.step_eq_none_iff` — what one step does to the depth, and when there is
  none;
* `Key.foldlM_step_eq_none_iff` — so a walk fails exactly where it leaves more directories than
  there are;
* `Key.join_append` — a target behind another one starts in the directory that this one denotes;
* `Key.join_traverses` — the laws of joining together.
-/

namespace Transclusion.Key

/-! ## Depth -/

/-- How many directories some segments enter. -/
def entered (segments : List (List Char)) : Nat :=
  segments.countP fun segment => decide (IsName segment)

/-- How many directories some segments leave. -/
def leaves (segments : List (List Char)) : Nat :=
  segments.count ['.', '.']

@[simp] theorem entered_nil : entered [] = 0 := rfl

@[simp] theorem leaves_nil : leaves [] = 0 := rfl

theorem entered_cons (segment : List Char) (segments : List (List Char)) :
    entered (segment :: segments) = entered [segment] + entered segments := by
  rw [entered, List.countP_cons, Nat.add_comm]
  simp [entered]

theorem leaves_cons (segment : List Char) (segments : List (List Char)) :
    leaves (segment :: segments) = leaves [segment] + leaves segments := by
  simp only [leaves, List.count_cons, List.count_nil, Nat.zero_add, Nat.add_comm]

/-- There is no step out of the root, and every other step can be taken. -/
theorem step_eq_none_iff {directory : List (List Char)} {segment : List Char} :
    step directory segment = none ↔ segment = ['.', '.'] ∧ directory = [] := by
  unfold step
  split
  · next hidle =>
    rcases hidle with rfl | rfl <;> simp
  · split
    · next hup => simp [hup]
    · next hup => simp [hup]

/-- A step goes one directory down, one up, or stays. -/
theorem length_of_step {directory next : List (List Char)} {segment : List Char}
    (hslash : '/' ∉ segment) (h : step directory segment = some next) :
    next.length + leaves [segment] = directory.length + entered [segment] := by
  by_cases hname : IsName segment
  · rw [step_name hname] at h
    cases h
    simp [entered, leaves, hname, hname.2.2.1]
  · have hentered : entered [segment] = 0 := by simp [entered, hname]
    unfold step at h
    split at h
    · next hidle =>
      cases h
      rcases hidle with rfl | rfl <;> simp [hentered, leaves]
    · next hidle =>
      rw [not_or] at hidle
      -- a segment that is no name and does not stay goes up
      obtain rfl : segment = ['.', '.'] := by
        by_contra hup
        exact hname ⟨hidle.1, hidle.2, hup, hslash⟩
      rw [if_pos rfl] at h
      split at h
      · exact nomatch h
      · next hne =>
        cases h
        have hpos := List.length_pos_of_ne_nil hne
        have hleaves : leaves [['.', '.']] = 1 := by decide
        rw [hentered, hleaves, List.length_dropLast]
        omega

/-- A walk fails exactly if some first part of it leaves more directories than it started below and
entered. -/
theorem foldlM_step_eq_none_iff {segments : List (List Char)} (hslash : ∀ s ∈ segments, '/' ∉ s)
    (directory : List (List Char)) :
    segments.foldlM step directory = none ↔
      ∃ walked, walked <+: segments ∧ directory.length + entered walked < leaves walked := by
  induction segments generalizing directory with
  | nil => simp
  | cons segment segments ih =>
    obtain ⟨hfirst, hothers⟩ := List.forall_mem_cons.mp hslash
    -- the first part is empty, which proves nothing, or it takes this step and goes on
    have hwalked : (∃ walked, walked <+: segment :: segments ∧
        directory.length + entered walked < leaves walked) ↔
        ∃ walked, walked <+: segments ∧
          directory.length + entered [segment] + entered walked <
            leaves [segment] + leaves walked := by
      constructor
      · rintro ⟨walked, hprefix, hless⟩
        rcases List.prefix_cons_iff.mp hprefix with rfl | ⟨others, rfl, hothers⟩
        · simp at hless
        · rw [entered_cons, leaves_cons] at hless
          exact ⟨others, hothers, by omega⟩
      · rintro ⟨walked, hprefix, hless⟩
        refine ⟨segment :: walked, List.prefix_cons_iff.mpr (.inr ⟨walked, rfl, hprefix⟩), ?_⟩
        rw [entered_cons, leaves_cons]
        omega
    rw [hwalked, List.foldlM_cons]
    cases hstep : step directory segment with
    | none =>
      obtain ⟨rfl, rfl⟩ := step_eq_none_iff.mp hstep
      exact iff_of_true rfl ⟨[], List.nil_prefix, by decide⟩
    | some next =>
      have hlength := length_of_step hfirst hstep
      show segments.foldlM step next = none ↔ _
      rw [ih hothers next]
      refine exists_congr fun walked => and_congr_right fun _ => ?_
      omega

/-! ## Targets behind each other -/

/-- The directory of a key is what stands before its last slash. -/
theorem parentChars_append {name : List Char} (hslash : '/' ∉ name) (directory : List Char) :
    parentChars (directory ++ '/' :: name) = directory := by
  rw [parentChars, Text.fields_append_cons, Text.fields_of_not_mem hslash, List.dropLast_concat,
    Text.unite_fields]

/-- Segments that were joined are the segments of the text. -/
theorem segmentChars_unite {segments : List (List Char)} (h : ∀ s ∈ segments, s ≠ [] ∧ '/' ∉ s) :
    segmentChars (Text.unite ['/'] segments) = segments := by
  by_cases hroot : segments = []
  · subst hroot
    rfl
  · rw [segmentChars, Text.fields_unite hroot fun s hs => (h s hs).2, List.filter_eq_self]
    intro s hs
    simpa using (h s hs).1

/-- A target that does not start with a slash starts from the directory of the document. -/
theorem origin_of_head?_ne {target : List Char} (h : target.head? ≠ some '/') (source : List Char) :
    origin source target = (segmentChars (parentChars source), target) := by
  unfold origin
  split
  · exact absurd rfl h
  · rfl

/-- A target behind another one and a slash starts in the directory that this one denotes, as if it
stood in any document there. -/
theorem join_append {target more name : String} (hne : target ≠ "")
    (hmore : more.toList.head? ≠ some '/') (hname : '/' ∉ name.toList) (source : String) :
    join source (target ++ "/" ++ more) =
      (join source target).bind fun key => join (key ++ "/" ++ name) more := by
  have hchars : (target ++ "/" ++ more).toList = target.toList ++ '/' :: more.toList := by simp
  have htarget : target.toList ≠ [] := by simpa using hne
  rw [join, join, hchars, joinChars_append_cons htarget]
  cases hsegments : joinChars source.toList target.toList with
  | none => rfl
  | some segments =>
    have hkey : (String.ofList (Text.unite ['/'] segments) ++ "/" ++ name).toList =
        Text.unite ['/'] segments ++ '/' :: name.toList := by simp
    have horigin : origin (Text.unite ['/'] segments ++ '/' :: name.toList) more.toList =
        (segments, more.toList) := by
      rw [origin_of_head?_ne hmore, parentChars_append hname,
        segmentChars_unite (segments_of_joinChars hsegments)]
    rw [Option.map_some, Option.bind_some, Option.bind_some, join, hkey, joinChars, horigin]

/-! ## Joining -/

/-- Joining a target to a key is walking through directories. A target that goes on behind a slash
leads where its second part leads from the directory that the first part denotes, and nowhere if the
first part does. A slash in front of a normalized key leads to that key. A target leads nowhere
exactly if some first part of its segments leaves more directories than there are above its start
and than it entered. And from a normalized key it leads to the root or to a normalized key. -/
theorem join_traverses (source : String) :
    (∀ target more name : String, target ≠ "" → more.toList.head? ≠ some '/' → '/' ∉ name.toList →
      join source (target ++ "/" ++ more) =
        (join source target).bind fun key => join (key ++ "/" ++ name) more) ∧
    (∀ key, Normalized key → join source ("/" ++ key) = some key) ∧
    (∀ target, join source target = none ↔
      ∃ walked, walked <+: Text.fields '/' target.toList ∧
        (origin source.toList target.toList).1.length + entered walked < leaves walked) ∧
    (Normalized source → ∀ target key, join source target = some key →
      key = "" ∨ Normalized key) := by
  refine ⟨?_, ?_, ?_, ?_⟩
  · intro target more name hne hmore hname
    exact join_append hne hmore hname source
  · intro key hkey
    exact join_rooted hkey source
  · intro target
    rw [join, Option.map_eq_none_iff, joinChars_eq]
    exact foldlM_step_eq_none_iff (fun s hs => Text.not_mem_of_mem_fields hs) _
  · intro hsource target key hjoin
    by_cases hroot : key = ""
    · exact .inl hroot
    · exact .inr (join_normalized hsource hjoin hroot)

/-- A target that goes up, down, and up again. -/
theorem join_traverses_up_down :
    let source := "docs/guide/intro.md"
    ("../api" ≠ "" ∧ "../x.md".toList.head? ≠ some '/' ∧ '/' ∉ "n".toList ∧
      join source "../api" = some "docs/api" ∧
      join source ("../api" ++ "/" ++ "../x.md") =
        (join source "../api").bind fun key => join (key ++ "/" ++ "n") "../x.md") ∧
    (Normalized "docs/x.md" ∧ join source ("/" ++ "docs/x.md") = some "docs/x.md") ∧
    (join source "../a/../../.." = none ∧
      ∃ walked, walked <+: Text.fields '/' "../a/../../..".toList ∧
        (origin source.toList "../a/../../..".toList).1.length + entered walked < leaves walked) ∧
    (Normalized source ∧ join source "../b//./c.md" = some "docs/b/c.md" ∧
      ("docs/b/c.md" = "" ∨ Normalized "docs/b/c.md")) := by
  intro source
  obtain ⟨happend, hrooted, hnone, hnormalized⟩ := join_traverses source
  have hmore : "../x.md".toList.head? ≠ some '/' := by decide
  have hname : '/' ∉ "n".toList := by decide
  have hkey : Normalized "docs/x.md" := by decide
  have hsource : Normalized source := by decide
  have hdown : join source "../b//./c.md" = some "docs/b/c.md" := by decide
  have hout : join source "../a/../../.." = none := by decide
  exact ⟨⟨by decide, hmore, hname, by decide, happend _ _ _ (by decide) hmore hname⟩,
    ⟨hkey, hrooted _ hkey⟩, ⟨hout, (hnone _).mp hout⟩,
    ⟨hsource, hdown, hnormalized hsource _ _ hdown⟩⟩

end Transclusion.Key
