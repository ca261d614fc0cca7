import Transclusion.Proofs.Directive.Grammar

/-!
# The leftmost scan

Which directives of a text count. Two descriptions, and the outline of a text meets both.

* `Scan p cs found` — the scan that tries every place in turn: a directive that begins there is
  taken and the scan goes on behind it, and where none begins one character is passed over;
* `Outline.Leftmost` — an outline in whose gaps no directive begins.

`scan_iff` and `Outline.ofText_eq_iff` say that the outline of a text is the only one of its kind.

## Passing over a failed attempt

`Silent cs ds` says that no directive begins inside `cs` when `ds` follows. The heart of the matter
is `silent_of_failed`: an attempt that fails may pass over its label at once, since any opening
inside the label has the same closing bracket and so the same text for its target.
-/

namespace Transclusion

open Directive

/-- The scan of `cs`, which stands at `p`: the directives in order, each with its place. -/
inductive Scan : Position → List Char → List (Directive × Position) → Prop
  /-- At the end of the text. -/
  | done (p : Position) : Scan p [] []
  /-- A directive begins here, and the scan goes on behind it. -/
  | take {p : Position} {cs rest : List Char} {d : Directive} {found : List (Directive × Position)}
      (begins : Begins cs d rest) (behind : Scan (p.advance d.source.toList) rest found) :
      Scan p cs ((d, p) :: found)
  /-- No directive begins here, and one character is passed over. -/
  | pass {p : Position} {c : Char} {cs : List Char} {found : List (Directive × Position)}
      (none : ∀ d rest, ¬ Begins (c :: cs) d rest) (behind : Scan (p.next c) cs found) :
      Scan p (c :: cs) found

/-! ## Texts in which no directive begins -/

namespace Directive

/-- No directive begins inside `cs` when `ds` follows it. -/
def Silent : List Char → List Char → Prop
  | [], _ => True
  | c :: cs, ds => (∀ d rest, ¬ Begins (c :: cs ++ ds) d rest) ∧ Silent cs ds

@[simp] theorem silent_nil (ds : List Char) : Silent [] ds := trivial

theorem silent_cons {c : Char} {cs ds : List Char} :
    Silent (c :: cs) ds ↔ (∀ d rest, ¬ Begins (c :: cs ++ ds) d rest) ∧ Silent cs ds :=
  Iff.rfl

theorem silent_append {cs ds es : List Char} :
    Silent (cs ++ ds) es ↔ Silent cs (ds ++ es) ∧ Silent ds es := by
  induction cs with
  | nil => simp
  | cons c cs ih => simp only [List.cons_append, silent_cons, ih, List.append_assoc, and_assoc]

/-- Silence is about every place inside the text. -/
theorem silent_iff {cs ds : List Char} :
    Silent cs ds ↔ ∀ us vs, cs = us ++ vs → vs ≠ [] → ∀ d rest, ¬ Begins (vs ++ ds) d rest := by
  constructor
  · rintro h us vs rfl hvs d rest
    obtain ⟨v, vs, rfl⟩ := List.exists_cons_of_ne_nil hvs
    exact (silent_cons.mp (silent_append.mp h).2).1 d rest
  · intro h
    induction cs with
    | nil => trivial
    | cons c cs ih =>
      refine ⟨h [] (c :: cs) rfl (List.cons_ne_nil c cs), ih fun us vs heq hvs => ?_⟩
      exact h (c :: us) vs (by rw [heq, List.cons_append]) hvs

/-- Where no opening stands, no directive begins. -/
theorem not_begins_of_not_opening {cs : List Char} (h : ∀ rest, cs ≠ ':' :: '[' :: rest)
    (d : Directive) (rest : List Char) : ¬ Begins cs d rest := by
  intro hbegins
  obtain ⟨opened, heq, -⟩ := hbegins.exists_opened
  exact h opened heq

theorem silent_of_findOpen_eq_some {before cs gap rest : List Char}
    (h : findOpen before cs = some (gap, rest)) :
    ∃ passed, gap = before.reverse ++ passed ∧ cs = passed ++ ':' :: '[' :: rest ∧
      Silent passed (':' :: '[' :: rest) := by
  fun_induction findOpen before cs with
  | case1 before rest' =>
    simp only [Option.some.injEq, Prod.mk.injEq] at h
    obtain ⟨rfl, rfl⟩ := h
    exact ⟨[], by simp, rfl, trivial⟩
  | case2 before c cs hopen ih =>
    obtain ⟨passed, rfl, rfl, hsilent⟩ := ih h
    refine ⟨c :: passed, by simp, rfl, not_begins_of_not_opening fun rest' heq => ?_, hsilent⟩
    rw [List.cons_append, List.cons.injEq] at heq
    exact hopen rest' heq.1 heq.2
  | case3 => cases h

theorem silent_of_findOpen_eq_none {before cs : List Char} (h : findOpen before cs = none) :
    Silent cs [] := by
  fun_induction findOpen before cs with
  | case1 => cases h
  | case2 before c cs hopen ih =>
    refine ⟨not_begins_of_not_opening fun rest heq => ?_, ih h⟩
    rw [List.append_nil, List.cons.injEq] at heq
    exact hopen rest heq.1 heq.2
  | case3 => trivial

/-! ### Failed attempts -/

/-- Where an attempt goes on: at its own start if the label is not closed, else behind the label. -/
theorem attempt_eq_failed_cases {opened passed rest : List Char}
    (h : attempt opened = .failed passed rest) :
    (passed = [] ∧ rest = opened ∧ ']' ∉ opened) ∨
      ∃ label, (∀ c ∈ label, c ≠ ']') ∧ passed = label ++ [']'] ∧
        opened = label ++ ']' :: rest := by
  have hlabel : ∀ c ∈ opened.takeWhile (· ≠ ']'), c ≠ ']' :=
    fun c hc => by simpa using List.all_eq_true.mp List.all_takeWhile c hc
  simp only [attempt] at h
  split at h
  · next hdrop =>
    cases h
    have hopened := List.takeWhile_append_dropWhile (p := fun c => decide (c ≠ ']')) (l := opened)
    rw [hdrop, List.append_nil] at hopened
    rw [hopened] at hlabel
    exact Or.inl ⟨rfl, rfl, fun hmem => hlabel ']' hmem rfl⟩
  · next closing closed hdrop =>
    have hopened := closing_of_dropWhile hdrop
    right
    split at h
    · split at h
      · exact nomatch h
      · cases h; exact ⟨_, hlabel, rfl, hopened⟩
    · cases h; exact ⟨_, hlabel, rfl, hopened⟩

theorem Begins.bracket_mem {cs rest : List Char} {d : Directive} (h : Begins cs d rest) :
    ']' ∈ cs := by
  obtain ⟨p, -, -, rfl⟩ := h
  simp [Parts.toChars]

theorem Begins.paren_mem {cs rest : List Char} {d : Directive} (h : Begins cs d rest) :
    ')' ∈ cs := by
  obtain ⟨p, -, -, rfl⟩ := h
  simp [Parts.toChars]

/-- Without a closing bracket or a closing parenthesis there is no directive. -/
theorem silent_of_not_mem {cs : List Char} (h : ']' ∉ cs ∨ ')' ∉ cs) : Silent cs [] := by
  rw [silent_iff]
  rintro us vs rfl - d rest hbegins
  rw [List.append_nil] at hbegins
  rcases h with h | h
  · exact h (List.mem_append_right us hbegins.bracket_mem)
  · exact h (List.mem_append_right us hbegins.paren_mem)

theorem forall_opening_ne {label : List Char} (h : ∀ c ∈ label, c ≠ ']') :
    ∀ c ∈ ':' :: '[' :: label, c ≠ ']' :=
  List.forall_mem_cons.mpr ⟨by decide, List.forall_mem_cons.mpr ⟨by decide, h⟩⟩

/-- An opening inside a label shares the closing bracket of the label, and so all that follows. -/
theorem Begins.relabel {label before rest closed : List Char} {d : Directive}
    (hlabel : ∀ c ∈ label, c ≠ ']') (hbefore : ∀ c ∈ before, c ≠ ']')
    (h : Begins (before ++ ']' :: closed) d rest) :
    ∃ d', Begins (':' :: '[' :: label ++ ']' :: closed) d' rest := by
  obtain ⟨⟨plabel, target, gap, behind⟩, hp, -, heq⟩ := h
  rw [Parts.toChars_append] at heq
  -- both labels end at the first closing bracket
  obtain ⟨-, hclosed⟩ := append_cons_inj hbefore (forall_opening_ne hp.label_chars) heq
  refine ⟨_, ⟨label, target, gap, behind⟩, { hp with label_chars := hlabel }, rfl, ?_⟩
  rw [Parts.toChars_append, hclosed]

/-- No directive begins in what a failed attempt passes over. -/
theorem silent_of_failed {opened passed rest : List Char}
    (h : attempt opened = .failed passed rest) : Silent (':' :: '[' :: passed) rest := by
  rw [silent_iff]
  intro us vs heq hvs d rest' hbegins
  rcases attempt_eq_failed_cases h with ⟨rfl, rfl, hopen⟩ | ⟨label, hlabel, rfl, rfl⟩
  · -- the label is never closed, so there is no bracket for any directive
    have hmem : ']' ∈ us ++ vs ++ rest := by
      simpa using Or.inr (List.mem_append.mp hbegins.bracket_mem)
    rw [← heq] at hmem
    simp [hopen] at hmem
  · -- the text from this place up to the bracket is some end of `:[` and the label
    obtain rfl | ⟨before, last, rfl⟩ := List.eq_nil_or_concat vs
    · exact hvs rfl
    have hends : (':' :: '[' :: label) ++ [']'] = (us ++ before) ++ [last] := by simpa using heq
    obtain ⟨hsplit, hlast⟩ := List.append_inj' hends rfl
    obtain rfl : ']' = last := by simpa using hlast
    have hbefore : ∀ c ∈ before, c ≠ ']' := fun c hc =>
      forall_opening_ne hlabel c (hsplit ▸ List.mem_append_right us hc)
    have hbegins' : Begins (before ++ ']' :: rest) d rest' := by simpa using hbegins
    obtain ⟨d', hrelabel⟩ := hbegins'.relabel hlabel hbefore
    exact nomatch h.symm.trans (attempt_eq_found_iff.mpr hrelabel)

end Directive

/-! ## The outline of a text -/

namespace Outline

/-- The text of the parts of an outline and of what stands behind them. -/
def flatten (tail : List Char) : List (List Char × Directive) → List Char
  | [] => tail
  | (gap, d) :: parts => gap ++ (d.source.toList ++ flatten tail parts)

theorem toChars_eq_flatten (outline : Outline) :
    outline.toChars = flatten outline.tail outline.parts := by
  obtain ⟨parts, tail⟩ := outline
  simp only [toChars]
  induction parts with
  | nil => rfl
  | cons part parts ih =>
    rw [List.flatMap_cons, List.append_assoc, ih, flatten, List.append_assoc]

/-- Each part ends in a directive, and none begins in the gaps and behind the last one. -/
def LeftmostParts (tail : List Char) : List (List Char × Directive) → Prop
  | [] => Silent tail []
  | (gap, d) :: parts =>
      let rest := flatten tail parts
      Silent gap (d.source.toList ++ rest) ∧ Begins (d.source.toList ++ rest) d rest ∧
        LeftmostParts tail parts

/-- The directives of the outline are the leftmost ones of its text. -/
def Leftmost (outline : Outline) : Prop :=
  LeftmostParts outline.tail outline.parts

/-- Cutting leaves no directive in the gaps, if none begins in the gap it is given. -/
theorem leftmost_cut {gap cs : List Char} (h : Silent gap cs) : (cut gap cs).Leftmost := by
  fun_induction cut gap cs with
  | case1 gap cs hopen =>
    have hcs := silent_of_findOpen_eq_none hopen
    show Silent (gap ++ cs) []
    rw [silent_append, List.append_nil]
    exact ⟨h, hcs⟩
  | case2 gap cs before opened hopen directive rest hattempt outline ih =>
    obtain ⟨passed, rfl, rfl, hpassed⟩ := silent_of_findOpen_eq_some hopen
    have hbegins := attempt_eq_found_iff.mp hattempt
    have hsource := hbegins.source_append
    have hflat : flatten outline.tail outline.parts = rest := by
      rw [← toChars_eq_flatten, toChars_cut, List.nil_append]
    rw [hsource] at h hpassed hbegins
    refine ⟨?_, ?_, ih trivial⟩
    · rw [hflat, silent_append]
      exact ⟨h, hpassed⟩
    · rw [hflat]
      exact hbegins
  | case3 gap cs before opened hopen passed rest hattempt ih =>
    obtain ⟨before, rfl, rfl, hbefore⟩ := silent_of_findOpen_eq_some hopen
    have hopened := attempt_failed hattempt
    have hpassed := silent_of_failed hattempt
    -- what the attempt passes over becomes part of the gap
    refine ih ?_
    subst hopened
    rw [List.append_assoc, List.append_assoc, silent_append, silent_append]
    exact ⟨by simpa using h, by simpa using hbefore, hpassed⟩

/-- The text up to the first directive is the same in any two readings. -/
theorem gap_unique {gap gap' cs cs' rest rest' : List Char} {d d' : Directive}
    (hsilent : Silent gap cs) (hsilent' : Silent gap' cs') (hbegins : Begins cs d rest)
    (hbegins' : Begins cs' d' rest') (h : gap ++ cs = gap' ++ cs') : gap = gap' ∧ cs = cs' := by
  rcases List.append_eq_append_iff.mp h with ⟨more, rfl, rfl⟩ | ⟨more, rfl, rfl⟩
  · cases more with
    | nil => simp
    | cons c more =>
      have hmore := (silent_append.mp hsilent').2
      exact absurd hbegins (hmore.1 d rest)
  · cases more with
    | nil => simp
    | cons c more =>
      have hmore := (silent_append.mp hsilent).2
      exact absurd hbegins' (hmore.1 d' rest')

/-- A silent text has no directive in it at all. -/
theorem gap_not_silent {gap cs ds rest : List Char} {d : Directive} (hsilent : Silent ds [])
    (hbegins : Begins cs d rest) : ds ≠ gap ++ cs := by
  rintro rfl
  obtain ⟨opened, rfl, -⟩ := hbegins.exists_opened
  have hcs := (silent_append.mp hsilent).2
  rw [silent_cons, List.append_nil] at hcs
  exact hcs.1 d rest hbegins

/-- A text has one leftmost outline at most. -/
theorem Leftmost.unique {o o' : Outline} (h : o.Leftmost) (h' : o'.Leftmost)
    (heq : o.toChars = o'.toChars) : o = o' := by
  obtain ⟨parts, tail⟩ := o
  obtain ⟨parts', tail'⟩ := o'
  rw [toChars_eq_flatten, toChars_eq_flatten] at heq
  simp only [Leftmost] at h h' heq
  induction parts generalizing parts' with
  | nil =>
    cases parts' with
    | nil => rw [flatten, flatten] at heq; rw [heq]
    | cons part' parts' => exact absurd heq (gap_not_silent h h'.2.1)
  | cons part parts ih =>
    obtain ⟨gap, d⟩ := part
    cases parts' with
    | nil => exact absurd heq.symm (gap_not_silent h' h.2.1)
    | cons part' parts' =>
      obtain ⟨gap', d'⟩ := part'
      obtain ⟨hsilent, hbegins, hparts⟩ := h
      obtain ⟨hsilent', hbegins', hparts'⟩ := h'
      -- the first gaps agree, so the first directives begin at the same place
      obtain ⟨rfl, hcs⟩ := gap_unique hsilent hsilent' hbegins hbegins' heq
      rw [hcs] at hbegins
      obtain ⟨rfl, hrest⟩ := hbegins.unique hbegins'
      have hrest' := ih hparts parts' hparts' hrest
      rw [Outline.mk.injEq] at hrest' ⊢
      exact ⟨by rw [hrest'.1], hrest'.2⟩

/-- The outline of a text is the leftmost one with that text. -/
theorem ofText_eq_iff {text : String} {o : Outline} :
    ofText text = o ↔ o.Leftmost ∧ o.toChars = text.toList := by
  have hleftmost : (ofText text).Leftmost := leftmost_cut trivial
  have hchars : (ofText text).toChars = text.toList := toChars_cut [] text.toList
  constructor
  · rintro rfl
    exact ⟨hleftmost, hchars⟩
  · rintro ⟨ho, heq⟩
    exact hleftmost.unique ho (hchars.trans heq.symm)

/-! ### Sites -/

/-- The directive `d` is one of the outline, and the text from its start on is `cs`. -/
def Site (o : Outline) (d : Directive) (cs : List Char) : Prop :=
  ∃ front gap back, o.parts = front ++ (gap, d) :: back ∧
    cs = d.source.toList ++ flatten o.tail back

theorem exists_site {o : Outline} {d : Directive} (h : d ∈ o.directives) : ∃ cs, o.Site d cs := by
  obtain ⟨⟨gap, d'⟩, hpart, rfl⟩ := List.mem_map.mp h
  obtain ⟨front, back, hparts⟩ := List.append_of_mem hpart
  exact ⟨_, front, gap, back, hparts, rfl⟩

theorem Site.mem {o : Outline} {d : Directive} {cs : List Char} (h : o.Site d cs) :
    d ∈ o.directives := by
  obtain ⟨front, gap, back, hparts, -⟩ := h
  refine List.mem_map.mpr ⟨(gap, d), ?_, rfl⟩
  rw [hparts]
  exact List.mem_append_right front List.mem_cons_self

/-- At its site a directive begins. -/
theorem Site.begins {o : Outline} (ho : o.Leftmost) {d : Directive} {cs : List Char}
    (h : o.Site d cs) : ∃ rest, Begins cs d rest := by
  obtain ⟨parts, tail⟩ := o
  obtain ⟨front, gap, back, rfl, rfl⟩ := h
  simp only [Leftmost] at ho
  induction front with
  | nil => exact ⟨_, ho.2.1⟩
  | cons part front ih => exact ih ho.2.2

/-- The text from a site on is an end of the whole text. -/
theorem Site.suffix {o : Outline} {d : Directive} {cs : List Char} (h : o.Site d cs) :
    cs <:+ o.toChars := by
  obtain ⟨parts, tail⟩ := o
  obtain ⟨front, gap, back, rfl, rfl⟩ := h
  rw [toChars_eq_flatten]
  induction front with
  | nil => exact ⟨gap, by simp only [flatten, List.nil_append]⟩
  | cons part front ih =>
    obtain ⟨before, hbefore⟩ := ih
    exact ⟨part.1 ++ part.2.source.toList ++ before, by
      simp only [List.cons_append, flatten, List.append_assoc, hbefore]⟩

theorem leftmost_ofText (text : String) : (ofText text).Leftmost :=
  (ofText_eq_iff.mp rfl).1

theorem toChars_ofText (text : String) : (ofText text).toChars = text.toList :=
  (ofText_eq_iff.mp rfl).2

end Outline

/-- The directives of a text are grammatical. -/
theorem exists_parts_of_mem_directives {text : String} {d : Directive}
    (h : d ∈ directives text) : ∃ p : Parts, p.Grammatical ∧ d = p.directive := by
  obtain ⟨cs, hsite⟩ := Outline.exists_site h
  obtain ⟨rest, p, hp, heq, -⟩ := hsite.begins (Outline.leftmost_ofText text)
  exact ⟨p, hp, heq⟩

/-- The target of a directive is not empty. -/
theorem target_ne_empty_of_mem_directives {text : String} {d : Directive} (h : d ∈ directives text) :
    d.target ≠ "" := by
  obtain ⟨p, hp, rfl⟩ := exists_parts_of_mem_directives h
  intro hempty
  have hnil : p.target = [] := by simpa [Parts.directive, assemble] using hempty
  exact hp.target_ne_nil hnil

/-! ## The scan finds the outline -/

theorem Scan.pass_all {p : Position} {gap cs : List Char} {found : List (Directive × Position)}
    (hsilent : Silent gap cs) (h : Scan (p.advance gap) cs found) : Scan p (gap ++ cs) found := by
  induction gap generalizing p with
  | nil => exact h
  | cons c gap ih => exact .pass hsilent.1 (ih hsilent.2 h)

theorem scan_flatten {p : Position} {tail : List Char} {parts : List (List Char × Directive)}
    (h : Outline.LeftmostParts tail parts) :
    Scan p (Outline.flatten tail parts) (Outline.starts p parts) := by
  induction parts generalizing p with
  | nil =>
    have hdone := Scan.pass_all (p := p) h (.done _)
    rwa [List.append_nil] at hdone
  | cons part parts ih =>
    obtain ⟨gap, d⟩ := part
    obtain ⟨hsilent, hbegins, hparts⟩ := h
    exact .pass_all hsilent (.take hbegins (ih hparts))

theorem Scan.unique {p : Position} {cs : List Char} {found found' : List (Directive × Position)}
    (h : Scan p cs found) (h' : Scan p cs found') : found = found' := by
  induction h generalizing found' with
  | done p =>
    cases h' with
    | done => rfl
    | take begins => exact absurd rfl begins.ne_nil
  | take begins _ ih =>
    cases h' with
    | done => exact absurd rfl begins.ne_nil
    | take begins' behind' =>
      obtain ⟨rfl, rfl⟩ := begins.unique begins'
      rw [ih behind']
    | pass none => exact absurd begins (none _ _)
  | pass none _ ih =>
    cases h' with
    | take begins' => exact absurd begins' (none _ _)
    | pass _ behind' => exact ih behind'

/-- The located directives of a text are what the scan finds, and nothing else is. -/
theorem scan_iff {text : String} {found : List (Directive × Position)} :
    Scan Position.start text.toList found ↔ found = locate text := by
  have hscan : Scan Position.start text.toList (locate text) := by
    rw [← Outline.toChars_ofText, Outline.toChars_eq_flatten]
    exact scan_flatten (Outline.leftmost_ofText text)
  constructor
  · intro h
    exact h.unique hscan
  · rintro rfl
    exact hscan

end Transclusion
