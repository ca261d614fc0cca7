import Mathlib.Data.List.DropRight
import Transclusion.Expansion
import Transclusion.Proofs.Directive.Scan

/-!
# Directives written again

A directive can be written with another target, alone or in the place where it stands in a text.

* `Directive.reread` — the directive that is read where another one was written again;
* `Outline.ofText_rewrite` — a text some directives of which are written again is cut at the same
  places, and between them nothing changes;
* `Directive.ofText_withTarget` — a directive that is written again alone is read as one directive,
  with the label and the target it was written with.

## Directives that are not there

A gap may hold openings that come to nothing, and with another text behind the gap they could come
to something. They cannot if it is another target that is written there: an opening either takes the
label of the directive for its own, or it has its closing parenthesis before the target or in what
the directive has between its parentheses. `Parts.Grammatical.silent` says so for whatever is
written behind the label.

## Secondary texts

A secondary text is written as it was read, and reading takes blanks and quotes away. So it is read
again exactly if there are none left to take away (`Directive.IsPlain`). Quotes inside of quotes are
lost, and blanks inside of quotes (`Directive.withTarget_loses_quotes`).
-/

namespace Transclusion

namespace Directive

/-! ## Secondary texts -/

theorem trimEnd_sublist (cs : List Char) : (Text.trimEnd cs).Sublist cs :=
  List.IsPrefix.sublist <| List.rdropWhile_prefix Text.isBlank cs

theorem trim_sublist (cs : List Char) : (Text.trim cs).Sublist cs :=
  (trimEnd_sublist _).trans (List.dropWhile_sublist Text.isBlank)

theorem unquote_sublist (cs : List Char) : (unquote cs).Sublist cs := by
  cases cs with
  | nil => exact List.Sublist.refl _
  | cons q rest =>
    rw [unquote]
    split
    · exact (List.dropLast_sublist rest).trans (List.sublist_cons_self q rest)
    · exact List.Sublist.refl _

theorem readSecondary_eq_some_iff {cs : List Char} {secondary : String} :
    readSecondary cs = some secondary ↔
      secondary ≠ "" ∧ unquote (Text.trim cs) = secondary.toList := by
  rw [readSecondary]
  split
  · next hnil =>
    rw [hnil]
    constructor
    · intro h
      exact nomatch h
    · intro h
      exact absurd (by simpa using h.2.symm) h.1
  · next c rest hcons =>
    rw [hcons]
    constructor
    · intro h
      obtain rfl := Option.some.inj h
      exact ⟨by simp, by simp⟩
    · intro h
      rw [h.2, String.ofList_toList]

/-- A text that reads as itself: no blanks at its ends, and no pair of quotes around it. -/
structure IsPlain (cs : List Char) : Prop where
  first : ∀ c ∈ cs.head?, ¬ Text.isBlank c
  last : ∀ c ∈ cs.getLast?, ¬ Text.isBlank c
  not_quoted : ∀ q ∈ ['"', '\''], ∀ inner, cs ≠ q :: inner ++ [q]

theorem trim_eq_self_iff {cs : List Char} :
    Text.trim cs = cs ↔
      (∀ c ∈ cs.head?, ¬ Text.isBlank c) ∧ ∀ c ∈ cs.getLast?, ¬ Text.isBlank c := by
  have hstart : Text.trimStart cs = cs ↔ ∀ c ∈ cs.head?, ¬ Text.isBlank c := by
    cases cs with
    | nil => simp
    | cons c cs =>
      rw [Text.trimStart, List.dropWhile_eq_self_iff]
      simp
  have hend : Text.trimEnd cs = cs ↔ ∀ c ∈ cs.getLast?, ¬ Text.isBlank c := by
    rw [Text.trimEnd]
    show cs.rdropWhile Text.isBlank = cs ↔ _
    rw [List.rdropWhile_eq_self_iff]
    constructor
    · intro h c hc
      obtain ⟨hne, rfl⟩ := List.mem_getLast?_eq_getLast hc
      exact h hne
    · intro h hne
      exact h _ (List.getLast?_eq_some_getLast hne)
  rw [← hstart, ← hend]
  constructor
  · intro h
    -- trimming at one end takes no more than trimming at both
    have hsub : Text.trimStart cs = cs := by
      refine (List.dropWhile_sublist Text.isBlank).eq_of_length_le ?_
      have hlength : (Text.trim cs).length ≤ (Text.trimStart cs).length :=
        (trimEnd_sublist _).length_le
      rwa [h] at hlength
    rw [Text.trim, hsub] at h
    exact ⟨hsub, h⟩
  · intro h
    rw [Text.trim, h.1, h.2]

theorem unquote_eq_self_iff {cs : List Char} :
    unquote cs = cs ↔ ∀ q ∈ ['"', '\''], ∀ inner, cs ≠ q :: inner ++ [q] := by
  cases cs with
  | nil => simp [unquote]
  | cons c rest =>
    rw [unquote]
    split
    · next hquoted =>
      obtain ⟨hc, hlast⟩ := hquoted
      obtain ⟨inner, rfl⟩ := List.getLast?_eq_some_iff.mp hlast
      constructor
      · intro h
        have hlength := congrArg List.length h
        rw [List.dropLast_concat, List.length_cons, List.length_append] at hlength
        omega
      · intro h
        exact absurd rfl (h c (by simpa using hc) inner)
    · next hopen =>
      simp only [true_iff]
      intro q hq inner heq
      rw [List.cons_append] at heq
      obtain ⟨rfl, rfl⟩ := List.cons.inj heq
      exact hopen ⟨by simpa using hq, by simp⟩

/-- What is read of a text is the text itself exactly if there is nothing to take away. -/
theorem readSecondary_toList_eq_some_iff {secondary : String} (hne : secondary ≠ "") :
    readSecondary secondary.toList = some secondary ↔ IsPlain secondary.toList := by
  generalize hcs : secondary.toList = cs
  have hself : readSecondary cs = some secondary ↔ Text.trim cs = cs ∧ unquote cs = cs := by
    rw [readSecondary_eq_some_iff, hcs]
    constructor
    · intro h
      obtain ⟨-, h⟩ := h
      -- neither step adds anything, so none has taken anything away
      have htrim : Text.trim cs = cs := by
        refine (trim_sublist cs).eq_of_length_le ?_
        have hlength := (unquote_sublist (Text.trim cs)).length_le
        rwa [h] at hlength
      rw [htrim] at h
      exact ⟨htrim, h⟩
    · intro h
      rw [h.1]
      exact ⟨hne, h.2⟩
  rw [hself, trim_eq_self_iff, unquote_eq_self_iff]
  exact ⟨fun h => ⟨h.1.1, h.1.2, h.2⟩, fun h => ⟨⟨h.first, h.last⟩, h.not_quoted⟩⟩

/-! ## A directive with another target -/

variable {d : Directive} {target : String}

/-- The parts of a directive that is written with another target. -/
def partsWith (d : Directive) (target : String) : Parts :=
  match d.secondary with
  | some secondary => ⟨d.label.toList, target.toList, [' '], secondary.toList⟩
  | none => ⟨d.label.toList, target.toList, [], []⟩

/-- The directive that is read where `d` is written with another target. -/
def reread (d : Directive) (target : String) : Directive :=
  (d.partsWith target).directive

theorem toChars_partsWith (d : Directive) (target : String) :
    (d.partsWith target).toChars = (d.withTarget target).toList := by
  rw [partsWith, withTarget]
  cases d.secondary <;> simp [Parts.toChars]

@[simp] theorem label_partsWith (d : Directive) (target : String) :
    (d.partsWith target).label = d.label.toList := by
  rw [partsWith]
  split <;> rfl

@[simp] theorem target_partsWith (d : Directive) (target : String) :
    (d.partsWith target).target = target.toList := by
  rw [partsWith]
  split <;> rfl

@[simp] theorem label_reread (d : Directive) (target : String) :
    (d.reread target).label = d.label := by
  show String.ofList (d.partsWith target).label = d.label
  rw [label_partsWith, String.ofList_toList]

@[simp] theorem target_reread (d : Directive) (target : String) :
    (d.reread target).target = target := by
  show String.ofList (d.partsWith target).target = target
  rw [target_partsWith, String.ofList_toList]

@[simp] theorem source_reread (d : Directive) (target : String) :
    (d.reread target).source = d.withTarget target := by
  rw [← String.toList_inj, reread, Parts.toList_source_directive, toChars_partsWith]

/-- The secondary text is read a second time. -/
theorem secondary_reread (d : Directive) (target : String) :
    (d.reread target).secondary =
      d.secondary.bind fun secondary => readSecondary secondary.toList := by
  rw [reread, partsWith]
  split
  · next secondary h =>
    rw [h]
    rfl
  · next h =>
    rw [h]
    rfl

/-- What a directive is written with, with another target in it. -/
theorem grammatical_partsWith {p : Parts} (hp : p.Grammatical) (htarget : IsTarget target) :
    (p.directive.partsWith target).Grammatical := by
  have hlabel : ∀ c ∈ p.directive.label.toList, c ≠ ']' := by
    rw [Parts.directive, assemble, String.toList_ofList]
    exact hp.label_chars
  have hne : target.toList ≠ [] := by
    simpa using htarget.1
  rw [partsWith]
  split
  · next secondary hsecondary =>
    refine ⟨hlabel, hne, htarget.2, by simp, fun c hc => ?_, by simp⟩
    -- nothing is read as secondary text but what stood behind the target
    obtain ⟨-, hread⟩ := readSecondary_eq_some_iff.mp hsecondary
    have hsub := (unquote_sublist (Text.trim p.behind)).trans (trim_sublist p.behind)
    rw [hread] at hsub
    exact hp.behind_chars c (hsub.subset hc)
  · exact ⟨hlabel, hne, htarget.2, by simp, by simp, fun _ => rfl⟩

/-- A directive of a text that is written again is read as what it was written with. -/
theorem begins_reread {p : Parts} (hp : p.Grammatical) (htarget : IsTarget target) :
    Begins (p.directive.reread target).source.toList (p.directive.reread target) [] := by
  refine ⟨_, grammatical_partsWith hp htarget, rfl, ?_⟩
  rw [source_reread, toChars_partsWith, List.append_nil]

/-! ## Directives that are not there -/

/-- What may stand between the parentheses of a directive: a character of a target, and behind it
anything but a newline and a closing parenthesis. -/
structure IsInner (inner : List Char) : Prop where
  head : ∃ c ∈ inner.head?, isTargetChar c
  chars : ∀ c ∈ inner, isSecondaryChar c

theorem isSecondaryChar_of_isTargetChar {c : Char} (h : isTargetChar c) : isSecondaryChar c := by
  rw [isTargetChar_iff] at h
  rw [isSecondaryChar_iff]
  simp only [List.mem_cons, not_or] at h ⊢
  exact ⟨h.2.2.2.1, h.2.2.2.2⟩

theorem isSecondaryChar_of_isGapChar {c : Char} (h : isGapChar c) : isSecondaryChar c := by
  rw [isGapChar_iff] at h
  rw [isSecondaryChar_iff]
  simp only [List.mem_cons, List.not_mem_nil, or_false] at h ⊢
  rcases h with rfl | rfl | rfl <;> decide

/-- What goes on behind such a text may be anything of the kind. -/
theorem IsInner.append {front inner : List Char} (h : IsInner (front ++ inner)) (hne : front ≠ [])
    {behind : List Char} (hbehind : ∀ c ∈ behind, isSecondaryChar c) :
    IsInner (front ++ behind) := by
  obtain ⟨c, cs, rfl⟩ := List.exists_cons_of_ne_nil hne
  refine ⟨h.head, fun c' hc' => ?_⟩
  rcases List.mem_append.mp hc' with hc' | hc'
  · exact h.chars c' (List.mem_append_left inner hc')
  · exact hbehind c' hc'

theorem Parts.Grammatical.isInner {p : Parts} (hp : p.Grammatical) :
    IsInner (p.target ++ (p.gap ++ p.behind)) := by
  have htarget : ∀ c ∈ p.target, isTargetChar c := fun c hc =>
    isTargetChar_iff.mpr (hp.target_chars c hc)
  obtain ⟨t, ts, hcons⟩ := List.exists_cons_of_ne_nil hp.target_ne_nil
  refine ⟨⟨t, by simp [hcons], htarget t (by simp [hcons])⟩, fun c hc => ?_⟩
  rcases List.mem_append.mp hc with hc | hc
  · exact isSecondaryChar_of_isTargetChar (htarget c hc)
  · rcases List.mem_append.mp hc with hc | hc
    · exact isSecondaryChar_of_isGapChar (isGapChar_iff.mpr (hp.gap_chars c hc))
    · exact isSecondaryChar_iff.mpr (hp.behind_chars c hc)

/-- What stands between the parentheses is some target, blanks and secondary text. -/
theorem IsInner.exists_parts {inner : List Char} (h : IsInner inner) {label : List Char}
    (hlabel : ∀ c ∈ label, c ≠ ']') :
    ∃ p : Parts, p.Grammatical ∧ p.label = label ∧ p.target ++ (p.gap ++ p.behind) = inner := by
  obtain ⟨target, more, rfl, htarget, hstop⟩ := exists_run isTargetChar inner
  obtain ⟨gap, behind, rfl, hgap, hgapStop⟩ := exists_run isGapChar more
  have hne : target ≠ [] := by
    rintro rfl
    obtain ⟨c, hc, hchar⟩ := h.head
    rw [hstop c hc] at hchar
    exact nomatch hchar
  refine ⟨⟨label, target, gap, behind⟩,
    ⟨hlabel, hne, fun c hc => isTargetChar_iff.mp (htarget c hc),
      fun c hc => isGapChar_iff.mp (hgap c hc), fun c hc => ?_, ?_⟩, rfl, rfl⟩
  · exact isSecondaryChar_iff.mp (h.chars c (by simp [hc]))
  · rintro rfl
    -- behind a target without blanks there would be a character of no class
    cases behind with
    | nil => rfl
    | cons c behind =>
      have hnot := hstop c rfl
      have hnotGap := hgapStop c rfl
      have hchar := isSecondaryChar_iff.mp (h.chars c (by simp))
      rw [← Bool.not_eq_true, isTargetChar_iff] at hnot
      rw [← Bool.not_eq_true, isGapChar_iff] at hnotGap
      simp only [List.mem_cons, List.not_mem_nil, or_false, not_or] at hnot hnotGap hchar
      exact absurd ⟨hnotGap.1, hnotGap.2.1, hnotGap.2.2, hchar.1, hchar.2⟩ hnot

/-- Where a directive begins, said without the parts of what stands between its parentheses. -/
theorem exists_begins_iff {cs rest : List Char} :
    (∃ d, Begins cs d rest) ↔ ∃ label inner, (∀ c ∈ label, c ≠ ']') ∧ IsInner inner ∧
      cs = ':' :: '[' :: label ++ ']' :: '(' :: (inner ++ ')' :: rest) := by
  constructor
  · rintro ⟨d, p, hp, -, rfl⟩
    refine ⟨p.label, _, hp.label_chars, hp.isInner, ?_⟩
    rw [Parts.toChars_append, List.append_assoc, List.append_assoc]
  · rintro ⟨label, inner, hlabel, hinner, rfl⟩
    obtain ⟨p, hp, rfl, rfl⟩ := hinner.exists_parts hlabel
    refine ⟨p.directive, p, hp, rfl, ?_⟩
    rw [Parts.toChars_append, List.append_assoc, List.append_assoc]

/-- What goes between parentheses that are open in front of a directive: they are closed in front of
its target, or by the parenthesis of the directive itself. -/
theorem IsInner.exists_closed {inner more es behind : List Char} (h : IsInner inner) {p : Parts}
    (hp : p.Grammatical)
    (heq : more ++ (':' :: '[' :: p.label ++ ']' :: '(' :: behind) = inner ++ ')' :: es)
    (rest : List Char) :
    ∃ inner' es', IsInner inner' ∧ more ++ (p.toChars ++ rest) = inner' ++ ')' :: es' := by
  -- all that is known to stand in front of the target
  let front := more ++ (':' :: '[' :: p.label ++ [']', '('])
  have hfront : front ++ behind = inner ++ ')' :: es := by
    rw [← heq]
    simp [front]
  have htext : more ++ (p.toChars ++ rest) =
      front ++ (p.target ++ (p.gap ++ p.behind)) ++ ')' :: rest := by
    rw [Parts.toChars_append]
    simp [front]
  have hinside : ∀ inside, inner = front ++ inside →
      ∃ inner' es', IsInner inner' ∧ more ++ (p.toChars ++ rest) = inner' ++ ')' :: es' := by
    rintro inside rfl
    exact ⟨_, rest, h.append (by simp [front]) hp.isInner.chars, htext⟩
  rcases List.append_eq_append_iff.mp hfront with ⟨inside, hinner, -⟩ | ⟨closed, hclosed, hes⟩
  · exact hinside inside hinner
  · cases closed with
    | nil => exact hinside [] (by rw [hclosed, List.append_nil, List.append_nil])
    | cons c closed =>
      obtain ⟨rfl, -⟩ := List.cons.inj hes
      refine ⟨inner, closed ++ (p.target ++ (p.gap ++ p.behind)) ++ ')' :: rest, h, ?_⟩
      rw [htext, hclosed]
      simp

/-- No directive begins in the gap in front of a label, whatever is written behind that label. -/
theorem Parts.Grammatical.silent {p : Parts} (hp : p.Grammatical) {gap rest : List Char}
    (h : Silent gap (p.toChars ++ rest)) (behind : List Char) :
    Silent gap (':' :: '[' :: p.label ++ ']' :: '(' :: behind) := by
  rw [silent_iff] at h ⊢
  intro us vs heq hvs d es hbegins
  suffices ∃ d' es', Begins (vs ++ (p.toChars ++ rest)) d' es' by
    obtain ⟨d', es', hbegins'⟩ := this
    exact h us vs heq hvs d' es' hbegins'
  obtain ⟨label, inner, hlabel, hinner, hcs⟩ := exists_begins_iff.mp ⟨d, hbegins⟩
  have hopening := forall_opening_ne hlabel
  have hopening' := forall_opening_ne hp.label_chars
  by_cases hbracket : ']' ∈ vs
  · -- the label is closed in the gap, and what is between the parentheses begins there
    obtain ⟨before, more, rfl, hbefore⟩ := List.eq_append_cons_of_mem hbracket
    rw [List.append_assoc, List.cons_append] at hcs
    have hbefore' : ∀ c ∈ before, c ≠ ']' := fun c hc heq => hbefore (heq ▸ hc)
    obtain ⟨rfl, hmore⟩ := append_cons_inj hbefore' hopening hcs
    cases more with
    | nil => exact absurd (List.cons.inj hmore).1 (by decide)
    | cons c more =>
      obtain ⟨rfl, hbehind⟩ := List.cons.inj hmore
      obtain ⟨inner', es', hinner', hmore'⟩ := hinner.exists_closed hp hbehind rest
      obtain ⟨d', hbegins'⟩ := exists_begins_iff.mpr ⟨label, inner', hlabel, hinner', rfl⟩
      refine ⟨d', es', ?_⟩
      rw [← hmore'] at hbegins'
      simpa using hbegins'
  · -- the label takes the other one in, and shares its bracket with it
    have hbefore : ∀ c ∈ vs ++ ':' :: '[' :: p.label, c ≠ ']' := by
      intro c hc hc'
      rcases List.mem_append.mp hc with hc | hc
      · exact hbracket (hc' ▸ hc)
      · exact hopening' c hc hc'
    rw [← List.append_assoc] at hcs
    obtain ⟨hfront, -⟩ := append_cons_inj hbefore hopening hcs
    have hbegins' : Begins (p.toChars ++ rest) p.directive rest := ⟨p, hp, rfl, rfl⟩
    rw [Parts.toChars_append] at hbegins' ⊢
    obtain ⟨d', hrelabel⟩ := hbegins'.relabel hlabel hopening'
    rw [← hfront, List.append_assoc] at hrelabel
    exact ⟨d', rest, hrelabel⟩

end Directive

/-! ## Texts with directives written again -/

open Directive

namespace Outline

/-- An outline stays leftmost when other directives with the same labels are put in. -/
theorem LeftmostParts.map {f : Directive → Directive} {tail : List Char}
    {parts : List (List Char × Directive)} (h : LeftmostParts tail parts)
    (hf : ∀ part ∈ parts, (f part.2).label = part.2.label ∧
      Begins (f part.2).source.toList (f part.2) []) :
    LeftmostParts tail (parts.map fun part => (part.1, f part.2)) := by
  induction parts with
  | nil => exact h
  | cons part parts ih =>
    obtain ⟨gap, d⟩ := part
    obtain ⟨hsilent, hbegins, hparts⟩ := h
    obtain ⟨⟨hlabel, hagain⟩, hothers⟩ := List.forall_mem_cons.mp hf
    refine ⟨?_, hagain.append _, ih hparts hothers⟩
    obtain ⟨p, hp, rfl, -⟩ := hbegins
    obtain ⟨p', -, hp', -⟩ := hagain
    have hlabels : p'.label = p.label := by
      rw [hp'] at hlabel
      exact String.ofList_injective hlabel
    -- the gap is followed by the same label as before
    dsimp only at hp' ⊢
    rw [Parts.toList_source_directive] at hsilent
    rw [hp', Parts.toList_source_directive, Parts.toChars_append, hlabels]
    exact hp.silent hsilent _

/-- A text with other directives of the same labels put in is cut at the same places, and the text
between them stays. -/
theorem ofText_rewrite {f : Directive → Directive} {text : String}
    (hf : ∀ d ∈ Transclusion.directives text, (f d).label = d.label ∧
      Begins (f d).source.toList (f d) []) :
    ofText (String.ofList ((ofText text).parts.flatMap
        (fun part => part.1 ++ (f part.2).source.toList) ++ (ofText text).tail)) =
      ⟨(ofText text).parts.map fun part => (part.1, f part.2), (ofText text).tail⟩ := by
  refine ofText_eq_iff.mpr ⟨?_, ?_⟩
  · exact LeftmostParts.map (leftmost_ofText text) fun part hpart =>
      hf part.2 (List.mem_map_of_mem hpart)
  · rw [toChars, String.toList_ofList, List.flatMap_map]

end Outline

namespace Directive

variable {d : Directive} {target : String}

/-- The secondary text of a directive is not empty. -/
theorem secondary_ne_empty_of_mem_directives {text secondary : String} (hd : d ∈ directives text)
    (h : d.secondary = some secondary) : secondary ≠ "" := by
  obtain ⟨p, -, rfl⟩ := exists_parts_of_mem_directives hd
  exact (readSecondary_eq_some_iff.mp h).1

/-- A directive of a text that is written with another target is read as one directive again, and as
nothing else. It has the label, the new target, and the secondary text exactly if that text reads as
itself; it was read once already. -/
theorem ofText_withTarget {text : String} (hd : d ∈ directives text) (htarget : IsTarget target) :
    ∃ d', Outline.ofText (d.withTarget target) = ⟨[([], d')], []⟩ ∧
      d'.source = d.withTarget target ∧ d'.label = d.label ∧ d'.target = target ∧
      d'.secondary = d.secondary.bind (fun secondary => readSecondary secondary.toList) ∧
      (d'.secondary = d.secondary ↔ ∀ secondary ∈ d.secondary, IsPlain secondary.toList) := by
  obtain ⟨p, hp, hdirective⟩ := exists_parts_of_mem_directives hd
  have hbegins : Begins (d.reread target).source.toList (d.reread target) [] :=
    hdirective ▸ begins_reread hp htarget
  refine ⟨d.reread target, ?_, source_reread d target, label_reread d target,
    target_reread d target, secondary_reread d target, ?_⟩
  · refine Outline.ofText_eq_iff.mpr ⟨⟨silent_nil _, hbegins.append _, silent_nil _⟩, ?_⟩
    rw [Outline.toChars_eq_flatten, Outline.flatten, Outline.flatten, source_reread]
    simp
  · rw [secondary_reread]
    cases hsecondary : d.secondary with
    | none => simp
    | some secondary =>
      have hne := secondary_ne_empty_of_mem_directives hd hsecondary
      rw [Option.bind_some, readSecondary_toList_eq_some_iff hne]
      simp

/-- A quote at the start that has none at the end, and blanks and quotes in the middle. -/
theorem ofText_withTarget_inner_quote :
    let d : Directive := ⟨"l\n[", "b", some "' x  \"y\"", ":[l\n[](b\t\"' x  \"y\"\"\u2028)"⟩
    d ∈ directives ":[l\n[](b\t\"' x  \"y\"\"\u2028)" ∧ IsTarget "b/index.md" ∧
    IsPlain "' x  \"y\"".toList ∧
    ∃ d', Outline.ofText (d.withTarget "b/index.md") = ⟨[([], d')], []⟩ ∧
      d'.source = ":[l\n[](b/index.md ' x  \"y\")" ∧ d'.label = "l\n[" ∧
      d'.target = "b/index.md" ∧ d'.secondary = d.secondary := by
  intro d
  have hd : d ∈ directives ":[l\n[](b\t\"' x  \"y\"\"\u2028)" := by decide +kernel
  have htarget : IsTarget "b/index.md" := by decide +kernel
  have hplain : IsPlain "' x  \"y\"".toList := by
    refine (readSecondary_toList_eq_some_iff (by decide)).mp ?_
    decide +kernel
  obtain ⟨d', houtline, hsource, hlabel, hnew, -, hsecondary⟩ := ofText_withTarget hd htarget
  refine ⟨hd, htarget, hplain, d', houtline, hsource, hlabel, hnew, hsecondary.mpr ?_⟩
  intro secondary hmem
  obtain rfl := Option.some.inj hmem
  exact hplain

/-- A secondary text with quotes in its quotes, and one with blanks. Written again they lose them,
so a resolver that is asked about the directive is told another secondary text if permalinks were
written out before. -/
theorem withTarget_loses_quotes :
    let quoted : Directive := ⟨"a", "b", some "'c'", ":[a](b \"'c'\")"⟩
    let spaced : Directive := ⟨"a", "b", some " c", ":[a](b \" c\")"⟩
    let documents : DocumentSet := .ofList [("b.md", ⟨"B", .empty⟩)]
    let told : Resolver := .custom "told" fun _ r =>
      .ok (some ⟨"told", [⟨none, r.secondary.getD "-", .empty⟩]⟩)
    let engine (permalink : Bool) : Engine :=
      ⟨default, documents, [told], ⟨false, false, permalink⟩⟩
    quoted ∈ directives ":[a](b \"'c'\")" ∧ spaced ∈ directives ":[a](b \" c\")" ∧
    IsTarget "b.md" ∧
    quoted.withTarget "b.md" = ":[a](b.md 'c')" ∧
    directives ":[a](b.md 'c')" = [⟨"a", "b.md", some "c", ":[a](b.md 'c')"⟩] ∧
    spaced.withTarget "b.md" = ":[a](b.md  c)" ∧
    directives ":[a](b.md  c)" = [⟨"a", "b.md", some "c", ":[a](b.md  c)"⟩] ∧
    ((engine false).expand "index.md" ":[a](b \"'c'\")").map Expansion.content = .ok "'c'" ∧
    ((engine true).expand "index.md" ":[a](b \"'c'\")").map Expansion.content = .ok "c" := by
  decide +kernel

end Directive

end Transclusion
