import Transclusion.Directive

/-!
# The grammar of directives

What a directive looks like, said without an attempt at reading one.

* `Directive.Parts` — the texts that one directive is written with, and `Parts.Grammatical`, the
  condition on each of them;
* `Directive.Begins cs d rest` — the text `cs` begins with the directive `d`, and `rest` follows;
* `attempt_eq_found_iff` — reading what follows `:[` finds exactly these;
* `Begins.unique` — so a text begins with one directive at most, whatever follows it.

The blanks between target and secondary text need not be all that stand there: a secondary text may
begin with blanks of its own, which trimming removes. So the parts are not unique, but what is
written in the directive is.
-/

namespace Transclusion.Directive

/-! ## Parts -/

/-- The texts that one directive is written with. -/
structure Parts where
  label : List Char
  target : List Char
  /-- The blanks behind the target. -/
  gap : List Char
  /-- The text between those blanks and the closing parenthesis. -/
  behind : List Char

namespace Parts

/-- The directive as it is written. -/
def toChars (p : Parts) : List Char :=
  [':', '['] ++ p.label ++ [']', '('] ++ p.target ++ p.gap ++ p.behind ++ [')']

/-- What the parts must be like: a label without `]`, a non-empty target without blanks, newline and
`)`, and a secondary text without newline and `)`, only behind some blanks. -/
structure Grammatical (p : Parts) : Prop where
  label_chars : ∀ c ∈ p.label, c ≠ ']'
  target_ne_nil : p.target ≠ []
  target_chars : ∀ c ∈ p.target, c ∉ [' ', '\t', '\r', '\n', ')']
  gap_chars : ∀ c ∈ p.gap, c ∈ [' ', '\t', '\r']
  behind_chars : ∀ c ∈ p.behind, c ∉ ['\n', ')']
  behind_eq_nil : p.gap = [] → p.behind = []

/-- What is written in the directive. The secondary text is trimmed and loses one pair of quotes. -/
def directive (p : Parts) : Directive :=
  assemble p.label p.target p.gap p.behind

@[simp] theorem toList_source_directive (p : Parts) : p.directive.source.toList = p.toChars :=
  String.toList_ofList

theorem toChars_append (p : Parts) (rest : List Char) :
    p.toChars ++ rest =
      ':' :: '[' :: p.label ++
        ']' :: '(' :: (p.target ++ (p.gap ++ (p.behind ++ ')' :: rest))) := by
  simp [toChars]

end Parts

/-- The text `cs` begins with the directive `d`, and `rest` follows it. -/
def Begins (cs : List Char) (d : Directive) (rest : List Char) : Prop :=
  ∃ p : Parts, p.Grammatical ∧ d = p.directive ∧ cs = p.toChars ++ rest

/-! ## Character classes -/

theorem isTargetChar_iff {c : Char} :
    isTargetChar c = true ↔ c ∉ [' ', '\t', '\r', '\n', ')'] := by
  simp [isTargetChar, not_or, and_assoc]

theorem isGapChar_iff {c : Char} : isGapChar c = true ↔ c ∈ [' ', '\t', '\r'] := by
  simp [isGapChar, or_assoc]

theorem isSecondaryChar_iff {c : Char} : isSecondaryChar c = true ↔ c ∉ ['\n', ')'] := by
  simp [isSecondaryChar, not_or]

/-- The text can stand as a target. -/
def IsTarget (target : String) : Prop :=
  target ≠ "" ∧ ∀ c ∈ target.toList, c ∉ [' ', '\t', '\r', '\n', ')']

instance (target : String) : Decidable (IsTarget target) :=
  decidable_of_iff (target ≠ "" ∧ target.toList.all isTargetChar) <| by
    simp only [IsTarget, List.all_eq_true, isTargetChar_iff]

/-- What may stand in a target may stand in front of one. -/
theorem IsTarget.append_left {front target : String} (h : IsTarget target)
    (hfront : ∀ c ∈ front.toList, c ∉ [' ', '\t', '\r', '\n', ')']) :
    IsTarget (front ++ target) := by
  refine ⟨by simp [h.1], fun c hc => ?_⟩
  rw [String.toList_append] at hc
  rcases List.mem_append.mp hc with hc | hc
  · exact hfront c hc
  · exact h.2 c hc

theorem isTargetChar_eq_false_of_isGapChar {c : Char} (h : isGapChar c = true) :
    isTargetChar c = false := by
  simp only [isGapChar, Bool.or_eq_true, decide_eq_true_eq] at h
  rcases h with (rfl | rfl) | rfl <;> rfl

theorem isBlank_of_isGapChar {c : Char} (h : isGapChar c = true) : Text.isBlank c = true := by
  simp only [isGapChar, Bool.or_eq_true, decide_eq_true_eq] at h
  rcases h with (rfl | rfl) | rfl <;> rfl

/-! ## Runs of characters -/

/-- What is left of a text behind a run of the characters of a class begins with none. -/
theorem head?_dropWhile_eq_false (p : Char → Bool) (cs : List Char) :
    ∀ c ∈ (cs.dropWhile p).head?, p c = false := by
  intro c hc
  have hhead := List.head?_dropWhile_not p cs
  rw [hc] at hhead
  simpa using hhead

/-- A text begins with a run of the characters of a class. -/
theorem exists_run (p : Char → Bool) (cs : List Char) :
    ∃ run rest, cs = run ++ rest ∧ (∀ c ∈ run, p c = true) ∧ ∀ c ∈ rest.head?, p c = false :=
  ⟨cs.takeWhile p, cs.dropWhile p, List.takeWhile_append_dropWhile.symm,
    List.all_eq_true.mp List.all_takeWhile, head?_dropWhile_eq_false p cs⟩

/-- A run takes all characters of its class, up to one of another class. -/
theorem takeWhile_run {p : Char → Bool} {cs ds : List Char} (hcs : ∀ c ∈ cs, p c = true)
    (hds : ∀ c ∈ ds.head?, p c = false) : (cs ++ ds).takeWhile p = cs := by
  rw [List.takeWhile_append_of_pos hcs]
  cases ds with
  | nil => simp
  | cons d ds => simp [hds d rfl]

theorem dropWhile_run {p : Char → Bool} {cs ds : List Char} (hcs : ∀ c ∈ cs, p c = true)
    (hds : ∀ c ∈ ds.head?, p c = false) : (cs ++ ds).dropWhile p = ds := by
  rw [List.dropWhile_append_of_pos hcs]
  cases ds with
  | nil => rfl
  | cons d ds => simp [hds d rfl]

/-- A text is cut at the first of some character in one way. -/
theorem append_cons_inj {c : Char} {as as' bs bs' : List Char} (has : ∀ a ∈ as, a ≠ c)
    (has' : ∀ a ∈ as', a ≠ c) (h : as ++ c :: bs = as' ++ c :: bs') : as = as' ∧ bs = bs' := by
  have hstop : ∀ cs : List Char, ∀ a ∈ (c :: cs).head?, decide (a ≠ c) = false := by
    simp
  have hrun : ∀ {cs : List Char}, (∀ a ∈ cs, a ≠ c) → ∀ a ∈ cs, decide (a ≠ c) = true :=
    fun hcs a ha => by simpa using hcs a ha
  have htake := congrArg (List.takeWhile fun a => decide (a ≠ c)) h
  rw [takeWhile_run (hrun has) (hstop bs), takeWhile_run (hrun has') (hstop bs')] at htake
  subst htake
  exact ⟨rfl, (List.cons.inj (List.append_cancel_left h)).2⟩

/-! ### First characters -/

section Head

variable {P : Char → Prop} {c : Char} {cs : List Char}

theorem forall_head?_cons (h : P c) (cs : List Char) : ∀ d ∈ (c :: cs).head?, P d := by
  intro d hd
  obtain rfl : c = d := Option.some.inj hd
  exact h

theorem forall_head?_append {ds : List Char} (hcs : ∀ d ∈ cs.head?, P d)
    (hds : ∀ d ∈ ds.head?, P d) : ∀ d ∈ (cs ++ ds).head?, P d := by
  cases cs with
  | nil => exact hds
  | cons c cs => exact hcs

theorem forall_head?_append_of_ne_nil (hne : cs ≠ []) (h : ∀ c ∈ cs, P c) (ds : List Char) :
    ∀ d ∈ (cs ++ ds).head?, P d := by
  obtain ⟨c, cs, rfl⟩ := List.exists_cons_of_ne_nil hne
  exact forall_head?_cons (h c List.mem_cons_self) (cs ++ ds)

end Head

/-! ## Reading what is grammatical -/

/-- Blanks that a secondary text begins with do not count. -/
theorem readSecondary_dropWhile (cs : List Char) :
    readSecondary (cs.dropWhile isGapChar) = readSecondary cs := by
  have htrim : Text.trim (cs.dropWhile isGapChar) = Text.trim cs := by
    simp only [Text.trim, Text.trimStart]
    congr 1
    induction cs with
    | nil => rfl
    | cons c cs ih =>
      rw [List.dropWhile_cons]
      split
      · next hc => rw [ih, List.dropWhile_cons, if_pos (isBlank_of_isGapChar hc)]
      · rfl
  rw [readSecondary, readSecondary, htrim]

/-- What follows `](` in a grammatical directive is read as that directive. -/
theorem Parts.Grammatical.readTarget?_eq {p : Parts} (h : p.Grammatical) (rest : List Char) :
    readTarget? p.label (p.target ++ (p.gap ++ (p.behind ++ ')' :: rest))) =
      some (p.directive, rest) := by
  obtain ⟨label, target, gap, behind⟩ := p
  obtain ⟨-, hne, htarget, hgap, hbehind, hnil⟩ := h
  simp only at hne htarget hgap hbehind hnil ⊢
  have htarget' : ∀ c ∈ target, isTargetChar c = true :=
    fun c hc => isTargetChar_iff.mpr (htarget c hc)
  have hgap' : ∀ c ∈ gap, isGapChar c = true := fun c hc => isGapChar_iff.mpr (hgap c hc)
  have hstop : ∀ c ∈ (gap ++ (behind ++ ')' :: rest)).head?, isTargetChar c = false := by
    by_cases hg : gap = []
    · rw [hg, hnil hg]
      exact forall_head?_cons (by rfl) rest
    · exact forall_head?_append_of_ne_nil hg
        (fun c hc => isTargetChar_eq_false_of_isGapChar (hgap' c hc)) _
  obtain ⟨t, ts, rfl⟩ := List.exists_cons_of_ne_nil hne
  simp only [readTarget?, takeWhile_run htarget' hstop, dropWhile_run htarget' hstop]
  by_cases hg : gap = []
  · -- without blanks there is no secondary text, and the parenthesis comes at once
    obtain rfl := hg
    obtain rfl := hnil rfl
    have hparen : isGapChar ')' = false := rfl
    simp [hparen, Parts.directive]
  · -- the run of blanks goes on into the blanks that the secondary text begins with
    have hsplit : gap ++ (behind ++ ')' :: rest) =
        (gap ++ behind.takeWhile isGapChar) ++ (behind.dropWhile isGapChar ++ ')' :: rest) := by
      rw [List.append_assoc, ← List.append_assoc (behind.takeWhile isGapChar),
        List.takeWhile_append_dropWhile]
    have hrun : ∀ c ∈ gap ++ behind.takeWhile isGapChar, isGapChar c = true := by
      intro c hc
      rcases List.mem_append.mp hc with hc | hc
      · exact hgap' c hc
      · exact List.all_eq_true.mp List.all_takeWhile c hc
    have hcore : ∀ c ∈ behind.dropWhile isGapChar, isSecondaryChar c = true :=
      fun c hc => isSecondaryChar_iff.mpr
        (hbehind c ((List.dropWhile_suffix isGapChar).subset hc))
    have hclose : ∀ c ∈ (')' :: rest).head?, isSecondaryChar c = false :=
      forall_head?_cons (by rfl) rest
    have hlead : ∀ c ∈ (behind.dropWhile isGapChar ++ ')' :: rest).head?, isGapChar c = false :=
      forall_head?_append (head?_dropWhile_eq_false isGapChar behind)
        (forall_head?_cons (by rfl) rest)
    have hne' : gap ++ behind.takeWhile isGapChar ≠ [] := by simp [hg]
    rw [hsplit, takeWhile_run hrun hlead, dropWhile_run hrun hlead, if_neg hne', if_neg hne',
      takeWhile_run hcore hclose, dropWhile_run hcore hclose]
    simp only [assemble, Parts.directive, readSecondary_dropWhile, List.append_assoc]
    rw [← List.append_assoc (behind.takeWhile isGapChar), List.takeWhile_append_dropWhile]

/-! ## What is read is grammatical -/

/-- What is read behind `](` is a grammatical directive with the label that was given, and with all
blanks behind the target in its gap. -/
theorem exists_parts_of_readTarget? {label inner rest : List Char} {d : Directive}
    (hlabel : ∀ c ∈ label, c ≠ ']') (h : readTarget? label inner = some (d, rest)) :
    ∃ p : Parts, p.Grammatical ∧ p.label = label ∧ d = p.directive ∧
      (∀ c ∈ p.behind.head?, isGapChar c = false) ∧
      inner = p.target ++ (p.gap ++ (p.behind ++ ')' :: rest)) := by
  have hinner := List.takeWhile_append_dropWhile (p := isTargetChar) (l := inner)
  have hgap := List.takeWhile_append_dropWhile (p := isGapChar) (l := inner.dropWhile isTargetChar)
  have hbehind := List.takeWhile_append_dropWhile (p := isSecondaryChar)
    (l := (inner.dropWhile isTargetChar).dropWhile isGapChar)
  have htargets : ∀ c ∈ inner.takeWhile isTargetChar, c ∉ [' ', '\t', '\r', '\n', ')'] :=
    fun c hc => isTargetChar_iff.mp (List.all_eq_true.mp List.all_takeWhile c hc)
  have hgaps : ∀ c ∈ (inner.dropWhile isTargetChar).takeWhile isGapChar, c ∈ [' ', '\t', '\r'] :=
    fun c hc => isGapChar_iff.mp (List.all_eq_true.mp List.all_takeWhile c hc)
  simp only [readTarget?] at h
  split at h
  · next t ts rest' htarget hclose =>
    simp only [Option.some.injEq, Prod.mk.injEq] at h
    obtain ⟨rfl, rfl⟩ := h
    have hne : inner.takeWhile isTargetChar ≠ [] := by simp [htarget]
    split at hclose
    · next hnil =>
      refine ⟨⟨label, inner.takeWhile isTargetChar, [], []⟩,
        ⟨hlabel, hne, htargets, by simp, by simp, fun _ => rfl⟩, rfl, ?_, by simp, ?_⟩
      · simp [Parts.directive, hnil]
      · rw [hnil, List.nil_append, hclose] at hgap
        simp [hgap, hinner]
    · next hcons =>
      refine ⟨⟨label, inner.takeWhile isTargetChar,
        (inner.dropWhile isTargetChar).takeWhile isGapChar,
        ((inner.dropWhile isTargetChar).dropWhile isGapChar).takeWhile isSecondaryChar⟩,
        ⟨hlabel, hne, htargets, hgaps, fun c hc => ?_, fun hg => absurd hg hcons⟩, rfl, ?_,
        fun c hc => ?_, ?_⟩
      · exact isSecondaryChar_iff.mp (List.all_eq_true.mp List.all_takeWhile c hc)
      · simp [Parts.directive, hcons]
      · rw [List.head?_takeWhile, Option.mem_filter_iff] at hc
        exact head?_dropWhile_eq_false isGapChar _ c hc.1
      · rw [hclose] at hbehind
        simp only [hbehind, hgap, hinner]
  · cases h

/-- A directive that an attempt finds is grammatical, with all blanks behind the target in its
gap. -/
theorem exists_parts_of_attempt {opened rest : List Char} {d : Directive}
    (h : attempt opened = .found d rest) :
    ∃ p : Parts, p.Grammatical ∧ d = p.directive ∧
      (∀ c ∈ p.behind.head?, isGapChar c = false) ∧
      ':' :: '[' :: opened = p.toChars ++ rest := by
  simp only [attempt] at h
  split at h
  · exact nomatch h
  · next closing closed hdrop =>
    have hopened := closing_of_dropWhile hdrop
    have hlabel : ∀ c ∈ opened.takeWhile (· ≠ ']'), c ≠ ']' :=
      fun c hc => by simpa using List.all_eq_true.mp List.all_takeWhile c hc
    split at h
    · next inner =>
      split at h
      · next d' rest' hread =>
        cases h
        obtain ⟨p, hp, hplabel, rfl, hbehind, hinner⟩ := exists_parts_of_readTarget? hlabel hread
        refine ⟨p, hp, rfl, hbehind, ?_⟩
        rw [Parts.toChars_append, hplabel, ← hinner]
        conv => lhs; rw [hopened]
        rfl
      · exact nomatch h
    · exact nomatch h

/-- What follows an opening is found to be a directive exactly if the text begins with one. -/
theorem attempt_eq_found_iff {opened rest : List Char} {d : Directive} :
    attempt opened = .found d rest ↔ Begins (':' :: '[' :: opened) d rest := by
  constructor
  · intro h
    obtain ⟨p, hp, hd, -, hcs⟩ := exists_parts_of_attempt h
    exact ⟨p, hp, hd, hcs⟩
  · rintro ⟨p, hp, rfl, hcs⟩
    rw [Parts.toChars_append] at hcs
    simp only [List.cons_append, List.cons.injEq, true_and] at hcs
    have hlabel : ∀ c ∈ p.label, decide (c ≠ ']') = true :=
      fun c hc => by simpa using hp.label_chars c hc
    have hclose : ∀ c ∈ (']' :: '(' :: (p.target ++ (p.gap ++ (p.behind ++ ')' :: rest)))).head?,
        decide (c ≠ ']') = false := forall_head?_cons (by rfl) _
    simp only [attempt, hcs, takeWhile_run hlabel hclose, dropWhile_run hlabel hclose,
      hp.readTarget?_eq]

/-! ## Consequences -/

theorem Begins.exists_opened {cs rest : List Char} {d : Directive} (h : Begins cs d rest) :
    ∃ opened, cs = ':' :: '[' :: opened ∧ attempt opened = .found d rest := by
  obtain ⟨p, hp, rfl, rfl⟩ := h
  rw [Parts.toChars_append]
  refine ⟨_, rfl, attempt_eq_found_iff.mpr ⟨p, hp, rfl, ?_⟩⟩
  rw [Parts.toChars_append]
  rfl

theorem Begins.ne_nil {cs rest : List Char} {d : Directive} (h : Begins cs d rest) : cs ≠ [] := by
  obtain ⟨opened, rfl, -⟩ := h.exists_opened
  exact List.cons_ne_nil _ _

/-- A text begins with one directive at most. -/
theorem Begins.unique {cs rest rest' : List Char} {d d' : Directive} (h : Begins cs d rest)
    (h' : Begins cs d' rest') : d = d' ∧ rest = rest' := by
  obtain ⟨opened, rfl, hfound⟩ := h.exists_opened
  obtain ⟨opened', heq, hfound'⟩ := h'.exists_opened
  obtain rfl : opened = opened' := by simpa using heq
  rw [hfound, Attempt.found.injEq] at hfound'
  exact hfound'

theorem Begins.source_append {cs rest : List Char} {d : Directive} (h : Begins cs d rest) :
    cs = d.source.toList ++ rest := by
  obtain ⟨p, -, rfl, rfl⟩ := h
  rw [Parts.toList_source_directive]

/-- What follows a directive does not matter to it. -/
theorem Begins.append {cs rest : List Char} {d : Directive} (h : Begins cs d rest)
    (more : List Char) : Begins (cs ++ more) d (rest ++ more) := by
  obtain ⟨p, hp, rfl, rfl⟩ := h
  exact ⟨p, hp, rfl, by simp⟩

end Transclusion.Directive
