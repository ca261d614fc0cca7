import Mathlib.Data.List.Basic
import Transclusion.Directive
import Transclusion.Key
import Transclusion.KeyMap

/-!
# Where targets lead

* `Key.joinChars_eq` — a target is walked along all its fields;
* `Key.segments_of_joinChars` — the segments that a target reaches are not empty and hold no slash;
* `Key.directoryStart_of_join` — so the key of a directory does not end in a slash, and what is
  inside starts with it and one slash;
* `Key.join_normalized` — from a normalized key no target leads to a key that is not, and
  `Key.normalized_append_suffix` — the markdown suffix keeps it normalized;
* `Key.join_rooted`, `Key.isRemoteTarget_rooted` — a slash and a normalized key denote that key,
  from wherever they are seen.
-/

namespace Transclusion

/-- A text that is put together from parts without the separator does not end in one. -/
theorem Text.getLast?_unite_ne {α : Type} {sep : α} {parts : List (List α)}
    (h : ∀ part ∈ parts, part ≠ [] ∧ sep ∉ part) : (unite [sep] parts).getLast? ≠ some sep := by
  fun_induction unite [sep] parts with
  | case1 => simp
  | case2 part =>
    intro hlast
    exact (h part List.mem_cons_self).2 (List.mem_of_getLast? hlast)
  | case3 part next parts ih =>
    have hnext : unite [sep] (next :: parts) ≠ [] := by
      have hne := (h next (by simp)).1
      cases parts <;> simp [unite, hne]
    rw [List.getLast?_append_of_ne_nil _ hnext]
    exact ih fun part hpart => h part (List.mem_cons_of_mem _ hpart)

namespace Key

/-! ## Walks through directories -/

/-- A step enters the segment it is given, if that is a name. -/
theorem mem_of_step {directory next : List (List Char)} {segment s : List Char}
    (h : step directory segment = some next) (hs : s ∈ next) :
    s ∈ directory ∨ s = segment ∧ s ≠ [] ∧ s ≠ ['.'] ∧ s ≠ ['.', '.'] := by
  unfold step at h
  split at h
  · cases h
    exact .inl hs
  · next hidle =>
    rw [not_or] at hidle
    split at h
    · split at h
      · exact nomatch h
      · cases h
        exact .inl (List.dropLast_subset directory hs)
    · next hup =>
      cases h
      rcases List.mem_append.mp hs with hs | hs
      · exact .inl hs
      · obtain rfl := List.mem_singleton.mp hs
        exact .inr ⟨rfl, hidle.1, hidle.2, hup⟩

theorem mem_of_foldlM_step {directory reached segments : List (List Char)} {s : List Char}
    (h : segments.foldlM step directory = some reached) (hs : s ∈ reached) :
    s ∈ directory ∨ s ∈ segments ∧ s ≠ [] ∧ s ≠ ['.'] ∧ s ≠ ['.', '.'] := by
  induction segments generalizing directory with
  | nil =>
    cases h
    exact .inl hs
  | cons segment segments ih =>
    rw [List.foldlM_cons] at h
    obtain ⟨next, hstep, h⟩ := Option.bind_eq_some_iff.mp h
    rcases ih h with hnext | ⟨hmem, hname⟩
    · rcases mem_of_step hstep hnext with hs | ⟨rfl, hname⟩
      · exact .inl hs
      · exact .inr ⟨List.mem_cons_self, hname⟩
    · exact .inr ⟨List.mem_cons_of_mem _ hmem, hname⟩

theorem step_name {segment : List Char} (h : IsName segment) (directory : List (List Char)) :
    step directory segment = some (directory ++ [segment]) := by
  obtain ⟨hne, hdot, hdots, -⟩ := h
  simp [step, hne, hdot, hdots]

/-- A walk along names enters all of them. -/
theorem foldlM_step_names {segments : List (List Char)} (h : ∀ s ∈ segments, IsName s)
    (directory : List (List Char)) :
    segments.foldlM step directory = some (directory ++ segments) := by
  induction segments generalizing directory with
  | nil => simp
  | cons segment segments ih =>
    obtain ⟨hname, hothers⟩ := List.forall_mem_cons.mp h
    rw [List.foldlM_cons, step_name hname]
    show segments.foldlM step (directory ++ [segment]) = _
    rw [ih hothers, List.append_assoc]
    rfl

/-- A walk along slashes stays where it is. -/
theorem foldlM_step_slashes {cs : List Char} (h : ∀ c ∈ cs, c = '/')
    (directory : List (List Char)) :
    (Text.fields '/' cs).foldlM step directory = some directory := by
  induction cs with
  | nil => rfl
  | cons c cs ih =>
    obtain ⟨rfl, hothers⟩ := List.forall_mem_cons.mp h
    rw [Text.fields, if_pos rfl, List.foldlM_cons]
    exact ih hothers

/-- The walk along a target goes through all its fields: the one before a leading slash is idle. -/
theorem joinChars_eq (source target : List Char) :
    joinChars source target = (Text.fields '/' target).foldlM step (origin source target).1 := by
  unfold joinChars origin
  split
  · next rooted =>
    rw [Text.fields, if_pos rfl, List.foldlM_cons]
    rfl
  · rfl

/-- Where a walk starts shows in the first character of the target. -/
theorem origin_append {target : List Char} (hne : target ≠ []) (source more : List Char) :
    (origin source (target ++ more)).1 = (origin source target).1 := by
  obtain ⟨c, cs, rfl⟩ := List.exists_cons_of_ne_nil hne
  by_cases hc : c = '/' <;> simp [origin, hc]

/-- Behind a slash, a walk goes on from where it has come to. -/
theorem joinChars_append_cons {target : List Char} (hne : target ≠ [])
    (source more : List Char) :
    joinChars source (target ++ '/' :: more) =
      (joinChars source target).bind fun directory =>
        (Text.fields '/' more).foldlM step directory := by
  rw [joinChars_eq, joinChars_eq, origin_append hne, Text.fields_append_cons, List.foldlM_append]
  rfl

theorem mem_segmentChars {key s : List Char} (h : s ∈ segmentChars key) : s ≠ [] ∧ '/' ∉ s := by
  obtain ⟨hmem, hne⟩ := List.mem_filter.mp h
  exact ⟨of_decide_eq_true hne, Text.not_mem_of_mem_fields hmem⟩

/-- The segments that a target reaches are not empty and hold no slash. -/
theorem segments_of_joinChars {source target : List Char} {segments : List (List Char)}
    (h : joinChars source target = some segments) : ∀ s ∈ segments, s ≠ [] ∧ '/' ∉ s := by
  intro s hs
  rcases mem_of_foldlM_step h hs with horigin | ⟨hmem, hne, -⟩
  · unfold origin at horigin
    split at horigin
    · exact nomatch horigin
    · exact mem_segmentChars horigin
  · exact ⟨hne, Text.not_mem_of_mem_fields hmem⟩

/-- What is inside the directory that a target denotes starts with its key and one slash. -/
theorem directoryStart_of_join {source target directory : String}
    (h : join source target = some directory) (hne : directory ≠ "") :
    KeyMap.directoryStart directory = directory.toList ++ ['/'] := by
  obtain ⟨segments, hsegments, rfl⟩ := Option.map_eq_some_iff.mp h
  have hlast := Text.getLast?_unite_ne (segments_of_joinChars hsegments)
  rw [KeyMap.directoryStart, if_neg hne, String.toList_ofList]
  generalize Text.unite ['/'] segments = cs at hlast
  congr 1
  rw [← List.head?_reverse] at hlast
  cases hreverse : cs.reverse with
  | nil => simpa using hreverse.symm
  | cons c rest =>
    have hc : c ≠ '/' := by simpa [hreverse] using hlast
    rw [List.dropWhile_cons_of_neg (by simpa using hc), ← hreverse, List.reverse_reverse]

/-! ## Targets in normalized keys -/

/-- Names make up a normalized key. -/
theorem normalized_unite {segments : List (List Char)} (hne : segments ≠ [])
    (h : ∀ s ∈ segments, IsName s) : Normalized (String.ofList (Text.unite ['/'] segments)) := by
  have hfields : Text.fields '/' (Text.unite ['/'] segments) = segments :=
    Text.fields_unite hne fun s hs => (h s hs).2.2.2
  constructor
  · intro hempty
    have hnil : Text.unite ['/'] segments = [] := by simpa using hempty
    rw [hnil] at hfields
    exact (h [] (by simp [← hfields, Text.fields])).1 rfl
  · rwa [String.toList_ofList, hfields]

/-- The directory of a key has no other segments than the key. -/
theorem mem_fields_of_mem_parent {key s : List Char} (h : s ∈ segmentChars (parentChars key)) :
    s ∈ Text.fields '/' key := by
  rw [parentChars] at h
  by_cases hroot : (Text.fields '/' key).dropLast = []
  · rw [hroot] at h
    exact absurd h (by simp [Text.unite, segmentChars, Text.fields])
  · have hslash : ∀ part ∈ (Text.fields '/' key).dropLast, '/' ∉ part := fun part hpart =>
      Text.not_mem_of_mem_fields (List.dropLast_subset _ hpart)
    rw [segmentChars, Text.fields_unite hroot hslash] at h
    exact List.dropLast_subset _ (List.mem_filter.mp h).1

/-- From a normalized key, no target leads to a key that is not normalized. -/
theorem join_normalized {source target key : String} (hsource : Normalized source)
    (h : join source target = some key) (hne : key ≠ "") : Normalized key := by
  obtain ⟨segments, hsegments, rfl⟩ := Option.map_eq_some_iff.mp h
  have hnonempty : segments ≠ [] := by
    intro hnil
    subst hnil
    exact hne rfl
  refine normalized_unite hnonempty fun s hs => ?_
  rcases mem_of_foldlM_step hsegments hs with horigin | ⟨hmem, hname, hdot, hdots⟩
  · unfold origin at horigin
    split at horigin
    · exact nomatch horigin
    · exact hsource.2 s (mem_fields_of_mem_parent horigin)
  · exact ⟨hname, hdot, hdots, Text.not_mem_of_mem_fields hmem⟩

/-- Whatever a segment is, with the markdown suffix behind it it is a name. -/
theorem isName_append_suffix {segment : List Char} (hslash : '/' ∉ segment) :
    IsName (segment ++ markdownSuffix.toList) := by
  refine ⟨by simp [markdownSuffix], ?_, ?_, by simpa [markdownSuffix] using hslash⟩
  all_goals
    intro heq
    have hlength := congrArg List.length heq
    simp [markdownSuffix] at hlength

/-- A normalized key stays one with the markdown suffix. -/
theorem normalized_append_suffix {key : String} (h : Normalized key) :
    Normalized (key ++ markdownSuffix) := by
  have hsuffix : '/' ∉ markdownSuffix.toList := by decide
  have hfields := (List.dropLast_append_getLast (Text.fields_ne_nil '/' key.toList)).symm
  have hnames := h.2
  generalize (Text.fields '/' key.toList).dropLast = front at hfields
  generalize (Text.fields '/' key.toList).getLast _ = last at hfields
  rw [hfields] at hnames
  obtain ⟨hfront, hlast⟩ := List.forall_mem_append.mp hnames
  constructor
  · intro hempty
    exact h.1 (String.append_eq_empty_iff.mp hempty).1
  · rw [String.toList_append, Text.fields_append hfields hsuffix]
    have hname := isName_append_suffix (List.forall_mem_singleton.mp hlast).2.2.2
    exact List.forall_mem_append.mpr ⟨hfront, List.forall_mem_singleton.mpr hname⟩

/-! ## Rooted targets -/

/-- A slash and a normalized key denote that key. -/
theorem join_rooted {key : String} (h : Normalized key) (source : String) :
    join source ("/" ++ key) = some key := by
  have hchars : ("/" ++ key).toList = '/' :: key.toList := by simp
  rw [join, hchars, joinChars]
  show Option.map _ ((Text.fields '/' key.toList).foldlM step []) = _
  rw [foldlM_step_names h.2, List.nil_append, Option.map_some, Text.unite_fields,
    String.ofList_toList]

/-- A normalized key does not start with a slash. -/
theorem head?_ne_slash {key : String} (h : Normalized key) : key.toList.head? ≠ some '/' := by
  intro hhead
  obtain ⟨rest, hrest⟩ := List.head?_eq_some_iff.mp hhead
  have hname := h.2 [] (by simp [hrest, Text.fields])
  exact hname.1 rfl

/-- A slash and a normalized key are no URL. -/
theorem isRemoteTarget_rooted {key : String} (h : Normalized key) :
    isRemoteTarget ("/" ++ key) = false := by
  have hchars : ("/" ++ key).toList = '/' :: key.toList := by simp
  have hhead := head?_ne_slash h
  have hslashes : ['/', '/'].isPrefixOf ('/' :: key.toList) = false := by
    cases hkey : key.toList with
    | nil => rfl
    | cons c rest =>
      have hc : c ≠ '/' := by simpa [hkey] using hhead
      simp [List.isPrefixOf, hc.symm]
  have hscheme : isScheme (('/' :: key.toList).takeWhile (· ≠ ':')) = false := by
    rw [List.takeWhile_cons_of_pos (by decide)]
    cases key.toList.takeWhile (· ≠ ':') <;> rfl
  simp only [isRemoteTarget, hchars, hslashes, hscheme, Bool.and_false, Bool.or_false]

/-! ## URLs -/

theorem takeWhile_colon_append {front : List Char} (h : ':' ∈ front) (more : List Char) :
    (front ++ more).takeWhile (· ≠ ':') = front.takeWhile (· ≠ ':') := by
  induction front with
  | nil => exact nomatch h
  | cons c front ih =>
    by_cases hc : c = ':'
    · simp [hc]
    · have hmem : ':' ∈ front := by simpa [Ne.symm hc] using h
      simpa [hc] using ih hmem

/-- Whether a text is a URL shows in the part before a text without a colon, unless that part is too
short for two slashes. -/
theorem isRemoteTarget_of_append {front more : List Char} (hcolon : ':' ∉ more)
    (hslashes : ['/', '/'] <+: front ++ more → ['/', '/'] <+: front)
    (h : isRemoteTarget (String.ofList (front ++ more))) (others : List Char) :
    isRemoteTarget (String.ofList (front ++ others)) := by
  simp only [isRemoteTarget, String.toList_ofList, Bool.or_eq_true, Bool.and_eq_true,
    List.isPrefixOf_iff_prefix, List.contains_iff_mem] at h ⊢
  rcases h with hprefix | ⟨hmem, hscheme⟩
  · exact .inl ((hslashes hprefix).trans (List.prefix_append front others))
  · have hfront : ':' ∈ front := by simpa [hcolon] using hmem
    refine .inr ⟨List.mem_append_left others hfront, ?_⟩
    rwa [takeWhile_colon_append hfront] at hscheme ⊢

end Key

end Transclusion
