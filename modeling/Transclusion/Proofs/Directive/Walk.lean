import Mathlib.Logic.Relation
import Transclusion.Proofs.Directive.Parse
import Transclusion.Proofs.Directive.Scan

/-!
# The walk finds the leftmost directives

The walk over the tokens of a text ends, and what it finds are the directives of the leftmost scan.

* `Walker.run_found` — over a directive the walk goes on behind it, with the marks of its parts;
* `Walker.run_failed` — over a failed attempt it goes on behind the label, or it has come to the end
  of the text, and then no directive is left;
* `Walker.finds_of_scan` — so it finds what the scan finds, from any place on;
* `Walk.parse?_eq` — and what is cut out at its marks are the located directives.

The marks of a directive are a function of its parts and of the byte it starts at (`Parts.marks`).
So that they read back as the directive is a fact about bytes alone.
-/

namespace Transclusion

open Directive

/-- A scan over silent text finds what it finds behind it. -/
theorem Scan.of_silent {p : Position} {gap cs : List Char} {found : List (Directive × Position)}
    (hsilent : Silent gap cs) (h : Scan p (gap ++ cs) found) : Scan (p.advance gap) cs found := by
  induction gap generalizing p with
  | nil => exact h
  | cons c gap ih =>
    cases h with
    | take begins => exact absurd begins (hsilent.1 _ _)
    | pass _ behind => exact ih hsilent.2 behind

/-- A scan takes the directive that begins where it stands. -/
theorem Scan.of_begins {p : Position} {cs rest : List Char} {d : Directive}
    {found : List (Directive × Position)} (hbegins : Begins cs d rest) (h : Scan p cs found) :
    ∃ behind, found = (d, p) :: behind ∧ Scan (p.advance d.source.toList) rest behind := by
  cases h with
  | done => exact absurd rfl hbegins.ne_nil
  | take begins behind =>
    obtain ⟨rfl, rfl⟩ := hbegins.unique begins
    exact ⟨_, rfl, behind⟩
  | pass none => exact absurd hbegins (none _ _)

theorem Scan.eq_nil {p : Position} {cs : List Char} {found : List (Directive × Position)}
    (hsilent : Silent cs []) (h : Scan p cs found) : found = [] := by
  have hrest := Scan.of_silent hsilent (by rwa [List.append_nil])
  cases hrest with
  | done => rfl
  | take begins => exact absurd rfl begins.ne_nil

namespace Directive

open Walk

/-! ## The steps of the walk -/

namespace Walk

theorem Walker.run_of_step {w w' : Walker} (h : w.step = some w') : w.run = w'.run := by
  rw [run]
  split
  · next hnone =>
    rw [h] at hnone
    cases hnone
  · next w'' hsome =>
    rw [h] at hsome
    rw [Option.some.inj hsome]

/-- The first token decides how a walk goes on. -/
theorem Walker.run_cons (context : Context) (lexeme : Lexeme) (unread : List Lexeme)
    (found : List Marks) :
    run ⟨context, lexeme :: unread, found⟩ =
      match context.read unread lexeme with
      | .on context => run ⟨context, unread, found⟩
      | .back resume => run ⟨.outside, resume, found⟩
      | .found marks => run ⟨.outside, unread, found ++ [marks]⟩ := by
  cases hread : context.read unread lexeme <;> exact run_of_step (by simp [step, hread])

@[simp] theorem Walker.run_nil (context : Context) (found : List Marks) :
    run ⟨context, [], found⟩ = found := by
  rw [run]
  rfl

/-- Tokens that leave the context as it is are passed over. -/
theorem Walker.run_skip {context : Context} {passed : List Lexeme}
    (h : ∀ lexeme ∈ passed, ∀ unread, context.read unread lexeme = .on context)
    (unread : List Lexeme) (found : List Marks) :
    run ⟨context, passed ++ unread, found⟩ = run ⟨context, unread, found⟩ := by
  induction passed with
  | nil => rfl
  | cons lexeme passed ih =>
    rw [List.cons_append, run_cons, h lexeme List.mem_cons_self]
    exact ih fun lexeme hlexeme => h lexeme (List.mem_cons_of_mem _ hlexeme)

/-! ### Tokens that a context passes over -/

theorem read_label {start labelStart offset : Nat} {label : List Char}
    (hlabel : ∀ c ∈ label, c ≠ ']') :
    ∀ lexeme ∈ lexemes offset label, ∀ unread,
      (Context.label start labelStart).read unread lexeme = .on (.label start labelStart) := by
  intro lexeme hlexeme unread
  obtain ⟨c, hc, rest, htoken⟩ := exists_mem_of_mem_lexemes hlexeme
  have hclose : lexeme.token ≠ .bracketClose := fun heq =>
    hlabel c hc ((next_token_eq c rest).1 (htoken.symm.trans heq))
  simp [Context.read, hclose]

theorem read_target {resume : List Lexeme} {start targetStart offset : Nat} {name : Span}
    {target : List Char} (htarget : ∀ c ∈ target, isTargetChar c = true) :
    ∀ lexeme ∈ lexemes offset target, ∀ unread,
      (Context.target resume start name targetStart).read unread lexeme =
        .on (.target resume start name targetStart) := by
  intro lexeme hlexeme unread
  obtain ⟨c, hc, rest, htoken⟩ := exists_mem_of_mem_lexemes hlexeme
  have hchar := htarget c hc
  obtain ⟨-, hparen, -, hnewline, hblanks⟩ := next_token_eq c rest
  rw [← htoken] at hparen hnewline hblanks
  have hnotParen : lexeme.token ≠ .parenClose := fun heq => by
    rw [hparen heq] at hchar; exact nomatch hchar
  have hnotNewline : lexeme.token ≠ .newline := fun heq => by
    rw [hnewline heq] at hchar; exact nomatch hchar
  have hnotBlanks : lexeme.token ≠ .blanks := fun heq => by
    rw [isTargetChar_eq_false_of_isGapChar (hblanks heq)] at hchar; exact nomatch hchar
  simp only [Context.read]

theorem read_secondary {resume : List Lexeme} {start secondaryStart offset : Nat}
    {name goal : Span} {behind : List Char} (hbehind : ∀ c ∈ behind, isSecondaryChar c = true) :
    ∀ lexeme ∈ lexemes offset behind, ∀ unread,
      (Context.secondary resume start name goal secondaryStart).read unread lexeme =
        .on (.secondary resume start name goal secondaryStart) := by
  intro lexeme hlexeme unread
  obtain ⟨c, hc, rest, htoken⟩ := exists_mem_of_mem_lexemes hlexeme
  have hchar := hbehind c hc
  obtain ⟨-, hparen, -, hnewline, -⟩ := next_token_eq c rest
  rw [← htoken] at hparen hnewline
  have hnotParen : lexeme.token ≠ .parenClose := fun heq => by
    rw [hparen heq] at hchar; exact nomatch hchar
  have hnotNewline : lexeme.token ≠ .newline := fun heq => by
    rw [hnewline heq] at hchar; exact nomatch hchar
  simp only [Context.read]

/-! ### Tokens of one character -/

theorem lexemes_opening (offset : Nat) (cs : List Char) :
    lexemes offset (':' :: '[' :: cs) = ⟨.opening, offset, offset + 2⟩ :: lexemes (offset + 2) cs :=
  lexemes_cons offset ':' ('[' :: cs)

theorem lexemes_bracketClose (offset : Nat) (cs : List Char) :
    lexemes offset (']' :: cs) = ⟨.bracketClose, offset, offset + 1⟩ :: lexemes (offset + 1) cs :=
  lexemes_cons offset ']' cs

theorem lexemes_parenOpen (offset : Nat) (cs : List Char) :
    lexemes offset ('(' :: cs) = ⟨.parenOpen, offset, offset + 1⟩ :: lexemes (offset + 1) cs :=
  lexemes_cons offset '(' cs

theorem lexemes_parenClose (offset : Nat) (cs : List Char) :
    lexemes offset (')' :: cs) = ⟨.parenClose, offset, offset + 1⟩ :: lexemes (offset + 1) cs :=
  lexemes_cons offset ')' cs

theorem lexemes_newline (offset : Nat) (cs : List Char) :
    lexemes offset ('\n' :: cs) = ⟨.newline, offset, offset + 1⟩ :: lexemes (offset + 1) cs :=
  lexemes_cons offset '\n' cs

/-- A run of blanks with something else behind it is one token. -/
theorem lexemes_blanks {gap cs : List Char} (hne : gap ≠ []) (hgap : ∀ c ∈ gap, isGapChar c = true)
    (hcs : ∀ c ∈ cs.head?, isGapChar c = false) (offset : Nat) :
    lexemes offset (gap ++ cs) =
      ⟨.blanks, offset, offset + bytes gap⟩ :: lexemes (offset + bytes gap) cs := by
  obtain ⟨g, gap, rfl⟩ := List.exists_cons_of_ne_nil hne
  have hg := hgap g List.mem_cons_self
  have hrun : ∀ c ∈ gap, isGapChar c = true := fun c hc => hgap c (List.mem_cons_of_mem g hc)
  have hsingle : single? g = none ∧ g ≠ ':' := by
    simp only [isGapChar, Bool.or_eq_true, decide_eq_true_eq] at hg
    rcases hg with (rfl | rfl) | rfl <;> decide
  have hnext : next g (gap ++ cs) = (.blanks, g :: gap, cs) := by
    rw [next_of_not_opening fun _ hcolon _ => hsingle.2 hcolon, hsingle.1]
    simp only [hg, if_true, takeWhile_run hrun hcs, dropWhile_run hrun hcs]
  rw [List.cons_append, lexemes_cons, hnext]

/-- A closing character or a newline ends the token before it. -/
theorem apart_cons {c : Char} (h : c = ']' ∨ c = ')' ∨ c = '\n') (cs ds : List Char) :
    Apart cs (c :: ds) := by
  intro d hd
  obtain rfl : c = d := by simpa using hd
  rcases h with rfl | rfl | rfl <;> exact ⟨by decide, rfl, fun hgap => nomatch hgap⟩

/-- Blanks end the token before them, if that holds no blanks itself. -/
theorem apart_gap {cs ds : List Char} (hcs : ∀ c ∈ cs, isTargetChar c = true)
    (hds : ∀ c ∈ ds.head?, isGapChar c = true) : Apart cs ds := by
  intro d hd
  have hgap := hds d hd
  refine ⟨?_, by simp [isTextChar, hgap], fun _ c hc => Bool.eq_false_iff.mpr fun hblank => ?_⟩
  · rintro rfl
    exact nomatch hgap
  · have hchar := hcs c hc
    rw [isTargetChar_eq_false_of_isGapChar hblank] at hchar
    exact nomatch hchar

/-! ### Over a label -/

theorem Walker.run_label {label : List Char} (hlabel : ∀ c ∈ label, c ≠ ']')
    (start offset : Nat) (closed : List Char) (found : List Marks) :
    run ⟨.label start offset, lexemes offset (label ++ ']' :: closed), found⟩ =
      run ⟨.closed (lexemes (offset + bytes label + 1) closed) start ⟨offset, offset + bytes label⟩,
        lexemes (offset + bytes label + 1) closed, found⟩ := by
  rw [lexemes_append (apart_cons (Or.inl rfl) label closed), run_skip (read_label hlabel),
    lexemes_bracketClose, run_cons]
  rfl

theorem Walker.run_label_unclosed {opened : List Char} (h : ']' ∉ opened) (start offset : Nat)
    (found : List Marks) : run ⟨.label start offset, lexemes offset opened, found⟩ = found := by
  have hlabel : ∀ c ∈ opened, c ≠ ']' := fun c hc heq => h (heq ▸ hc)
  have hskip : run ⟨.label start offset, lexemes offset opened ++ [], found⟩ =
      run ⟨.label start offset, [], found⟩ := run_skip (read_label hlabel) [] found
  rwa [List.append_nil, run_nil] at hskip

/-! ### Over a directive -/

theorem Walker.run_target {target cs : List Char} (htarget : ∀ c ∈ target, isTargetChar c = true)
    (hcs : Apart target cs) (resume : List Lexeme) (start targetStart offset : Nat) (name : Span)
    (found : List Marks) :
    run ⟨.target resume start name targetStart, lexemes offset (target ++ cs), found⟩ =
      run ⟨.target resume start name targetStart, lexemes (offset + bytes target) cs, found⟩ := by
  rw [lexemes_append hcs, run_skip (read_target htarget)]

theorem Walker.run_secondary {behind cs : List Char}
    (hbehind : ∀ c ∈ behind, isSecondaryChar c = true) (hcs : Apart behind cs)
    (resume : List Lexeme) (start secondaryStart offset : Nat) (name goal : Span)
    (found : List Marks) :
    run ⟨.secondary resume start name goal secondaryStart, lexemes offset (behind ++ cs), found⟩ =
      run ⟨.secondary resume start name goal secondaryStart, lexemes (offset + bytes behind) cs,
        found⟩ := by
  rw [lexemes_append hcs, run_skip (read_secondary hbehind)]

/-- Blanks behind a target open the secondary text. -/
theorem Walker.run_gap {target gap cs : List Char} (hne : target ≠ []) (hgapne : gap ≠ [])
    (hgap : ∀ c ∈ gap, isGapChar c = true) (hcs : ∀ c ∈ cs.head?, isGapChar c = false)
    (resume : List Lexeme) (start targetStart : Nat) (name : Span) (found : List Marks) :
    run ⟨.target resume start name targetStart,
        lexemes (targetStart + bytes target) (gap ++ cs), found⟩ =
      run ⟨.secondary resume start name ⟨targetStart, targetStart + bytes target⟩
          (targetStart + bytes target + bytes gap),
        lexemes (targetStart + bytes target + bytes gap) cs, found⟩ := by
  have hbytes : targetStart + bytes target ≠ targetStart := by
    have hzero := mt bytes_eq_zero.mp hne
    omega
  rw [lexemes_blanks hgapne hgap hcs, run_cons]
  simp only [Context.read, if_neg hbytes]

/-- A parenthesis behind a target closes the directive. -/
theorem Walker.run_close_target {targetStart offset : Nat} (hne : offset ≠ targetStart)
    (resume : List Lexeme) (start : Nat) (name : Span) (rest : List Char) (found : List Marks) :
    run ⟨.target resume start name targetStart, lexemes offset (')' :: rest), found⟩ =
      run ⟨.outside, lexemes (offset + 1) rest,
        found ++ [⟨⟨start, offset + 1⟩, name, ⟨targetStart, offset⟩, none⟩]⟩ := by
  rw [lexemes_parenClose, run_cons]
  simp only [Context.read, if_neg hne, Move.close, Option.filter_none]

/-- So does one behind a secondary text, which counts if it is not empty. -/
theorem Walker.run_close_secondary (resume : List Lexeme) (start secondaryStart : Nat)
    (name goal : Span) (behind rest : List Char) (found : List Marks) :
    run ⟨.secondary resume start name goal secondaryStart,
        lexemes (secondaryStart + bytes behind) (')' :: rest), found⟩ =
      run ⟨.outside, lexemes (secondaryStart + bytes behind + 1) rest,
        found ++ [⟨⟨start, secondaryStart + bytes behind + 1⟩, name, goal,
          if behind = [] then none
            else some ⟨secondaryStart, secondaryStart + bytes behind⟩⟩]⟩ := by
  rw [lexemes_parenClose, run_cons]
  simp only [Context.read, Move.close]
  by_cases hnil : behind = []
  · simp [hnil, Option.filter_some]
  · have hpos : 0 < bytes behind := Nat.pos_of_ne_zero (mt bytes_eq_zero.mp hnil)
    simp [hnil, hpos, Option.filter_some]

/-- Over a directive the walk goes on behind it, with the marks of its parts. -/
theorem Walker.run_found {p : Parts} (hp : p.Grammatical)
    (hbehind : ∀ c ∈ p.behind.head?, isGapChar c = false) (offset : Nat) (rest : List Char)
    (found : List Marks) :
    run ⟨.outside, lexemes offset (p.toChars ++ rest), found⟩ =
      run ⟨.outside, lexemes (offset + bytes p.toChars) rest, found ++ [p.marks offset]⟩ := by
  have htarget : ∀ c ∈ p.target, isTargetChar c = true :=
    fun c hc => isTargetChar_iff.mpr (hp.target_chars c hc)
  have hgap : ∀ c ∈ p.gap, isGapChar c = true := fun c hc => isGapChar_iff.mpr (hp.gap_chars c hc)
  have hsecondary : ∀ c ∈ p.behind, isSecondaryChar c = true :=
    fun c hc => isSecondaryChar_iff.mpr (hp.behind_chars c hc)
  have hoffset : offset + bytes p.toChars = offset + 2 + bytes p.label + 1 + 1 + bytes p.target +
      bytes p.gap + bytes p.behind + 1 := by
    rw [bytes_toChars]
    omega
  rw [Parts.toChars_append, hoffset]
  simp only [List.cons_append]
  rw [lexemes_opening, run_cons]
  simp only [Context.read, if_true]
  rw [run_label hp.label_chars, lexemes_parenOpen, run_cons]
  simp only [Context.read, if_true]
  by_cases hnil : p.gap = []
  · -- the parenthesis closes right behind the target
    have hne : offset + 2 + bytes p.label + 1 + 1 + bytes p.target ≠
        offset + 2 + bytes p.label + 1 + 1 := by
      have hzero := mt bytes_eq_zero.mp hp.target_ne_nil
      omega
    rw [hnil, hp.behind_eq_nil hnil, List.nil_append, List.nil_append,
      run_target htarget (apart_cons (Or.inr (Or.inl rfl)) _ _), run_close_target hne]
    simp only [Parts.marks, hnil, hp.behind_eq_nil hnil, bytes_nil, if_true, Nat.add_zero]
  · have hhead : ∀ c ∈ (p.behind ++ ')' :: rest).head?, isGapChar c = false :=
      forall_head?_append hbehind (forall_head?_cons (by rfl) rest)
    have hgaps : ∀ c ∈ (p.gap ++ (p.behind ++ ')' :: rest)).head?, isGapChar c = true :=
      forall_head?_append_of_ne_nil hnil hgap _
    rw [run_target htarget (apart_gap htarget hgaps), run_gap hp.target_ne_nil hnil hgap hhead,
      run_secondary hsecondary (apart_cons (Or.inr (Or.inl rfl)) _ _), run_close_secondary]
    rfl

/-! ### Over a failed attempt -/

/-- A secondary text that no parenthesis closes sends the walk back, unless the text ends. -/
theorem Walker.run_secondary_failed {after : List Char}
    (h : ∀ behind rest, (∀ c ∈ behind, isSecondaryChar c = true) → after ≠ behind ++ ')' :: rest)
    (resume : List Lexeme) (start secondaryStart offset : Nat) (name goal : Span)
    (found : List Marks) :
    run ⟨.secondary resume start name goal secondaryStart, lexemes offset after, found⟩ =
        run ⟨.outside, resume, found⟩ ∨
      (run ⟨.secondary resume start name goal secondaryStart, lexemes offset after, found⟩ = found ∧
        ')' ∉ after) := by
  obtain ⟨behind, rest, rfl, hbehind, hrest⟩ := exists_run isSecondaryChar after
  cases rest with
  | nil =>
    right
    rw [run_secondary hbehind (apart_nil behind), lexemes_nil, run_nil, List.append_nil]
    exact ⟨rfl, fun hmem => nomatch hbehind ')' hmem⟩
  | cons c rest =>
    left
    have hclass : c = '\n' ∨ c = ')' := by
      simpa [isSecondaryChar, Decidable.or_iff_not_imp_left] using hrest c rfl
    rcases hclass with rfl | rfl
    · rw [run_secondary hbehind (apart_cons (Or.inr (Or.inr rfl)) _ _), lexemes_newline, run_cons]
      rfl
    · exact absurd rfl (h behind rest hbehind)

/-- Neither target nor blanks go on at a newline or a closing parenthesis only. -/
theorem eq_newline_or_paren {c : Char} (htarget : isTargetChar c = false) (hgap : ¬ isGapChar c) :
    c = '\n' ∨ c = ')' := by
  simp only [isGapChar, isTargetChar, Bool.not_eq_false', Bool.or_eq_true, decide_eq_true_eq]
    at hgap htarget
  grind

/-- Blanks behind a target send the walk back if there is no target, or no parenthesis behind them,
unless the text ends. -/
theorem Walker.run_gap_failed {target gap rest : List Char} (hgapne : gap ≠ [])
    (htarget : ∀ c ∈ target, isTargetChar c = true) (hgap : ∀ c ∈ gap, isGapChar c = true)
    (hrest : ∀ c ∈ rest.head?, isGapChar c = false)
    (h : target ≠ [] → ∀ behind rest', (∀ c ∈ behind, isSecondaryChar c = true) →
      rest ≠ behind ++ ')' :: rest')
    (resume : List Lexeme) (start offset : Nat) (name : Span) (found : List Marks) :
    run ⟨.target resume start name offset, lexemes offset (target ++ (gap ++ rest)), found⟩ =
        run ⟨.outside, resume, found⟩ ∨
      (run ⟨.target resume start name offset, lexemes offset (target ++ (gap ++ rest)), found⟩ =
          found ∧
        ')' ∉ target ++ (gap ++ rest)) := by
  have hhead : ∀ c ∈ (gap ++ rest).head?, isGapChar c = true :=
    forall_head?_append_of_ne_nil hgapne hgap rest
  rw [run_target htarget (apart_gap htarget hhead)]
  by_cases hne : target = []
  · left
    rw [hne, lexemes_blanks hgapne hgap hrest, run_cons]
    simp only [Context.read, bytes_nil, Nat.add_zero, if_true]
  · rw [run_gap hne hgapne hgap hrest]
    refine (run_secondary_failed (h hne) _ _ _ _ _ _ _).imp_right fun ⟨hrun, hmem⟩ => ⟨hrun, ?_⟩
    have hnotTarget : ')' ∉ target := fun hmem => nomatch htarget ')' hmem
    have hnotGap : ')' ∉ gap := fun hmem => nomatch hgap ')' hmem
    simp [hnotTarget, hnotGap, hmem]

/-- What follows `](` sends the walk back if it is no target with a parenthesis behind it, unless
the text ends. -/
theorem Walker.run_target_failed {inner : List Char}
    (h : ∀ p : Parts, p.Grammatical → ∀ rest,
      inner ≠ p.target ++ (p.gap ++ (p.behind ++ ')' :: rest)))
    (resume : List Lexeme) (start offset : Nat) (name : Span) (found : List Marks) :
    run ⟨.target resume start name offset, lexemes offset inner, found⟩ =
        run ⟨.outside, resume, found⟩ ∨
      (run ⟨.target resume start name offset, lexemes offset inner, found⟩ = found ∧
        ')' ∉ inner) := by
  obtain ⟨target, after, rfl, htarget, hafter⟩ := exists_run isTargetChar inner
  have hparts : ∀ gap behind rest, target ≠ [] → (∀ c ∈ gap, isGapChar c = true) →
      (∀ c ∈ behind, isSecondaryChar c = true) → (gap = [] → behind = []) →
      after ≠ gap ++ (behind ++ ')' :: rest) := by
    rintro gap behind rest hne hgap hbehind hnil rfl
    exact h ⟨[], target, gap, behind⟩ ⟨by simp, hne, fun c hc => isTargetChar_iff.mp (htarget c hc),
      fun c hc => isGapChar_iff.mp (hgap c hc),
      fun c hc => isSecondaryChar_iff.mp (hbehind c hc), hnil⟩ rest rfl
  obtain ⟨gap, rest, rfl, hgap, hrest⟩ := exists_run isGapChar after
  by_cases hgapne : gap = []
  · -- what ends the target is no blank, so the attempt ends here
    rw [hgapne, List.nil_append] at hafter hparts ⊢
    cases rest with
    | nil =>
      right
      rw [run_target htarget (apart_nil target), lexemes_nil, run_nil, List.append_nil]
      exact ⟨rfl, fun hmem => nomatch htarget ')' hmem⟩
    | cons c cs =>
      left
      have hclass : c = '\n' ∨ c = ')' :=
        eq_newline_or_paren (hafter c rfl) (Bool.eq_false_iff.mp (hrest c rfl))
      rcases hclass with rfl | rfl
      · rw [run_target htarget (apart_cons (Or.inr (Or.inr rfl)) _ _), lexemes_newline, run_cons]
        rfl
      · by_cases hne : target = []
        · rw [hne, List.nil_append, lexemes_parenClose, run_cons]
          simp only [Context.read, if_true]
        · exact absurd rfl (hparts [] [] cs hne (by simp) (by simp) (fun _ => rfl))
  · refine run_gap_failed hgapne htarget hgap hrest ?_ resume start offset name found
    intro hne behind rest' hbehind heq
    exact hparts gap behind rest' hne hgap hbehind (fun hnil => absurd hnil hgapne) (by rw [heq])

/-- Behind a closed label that no target follows, the walk goes back to the closing bracket, or it
has come to the end of the text, and then no directive is left. -/
theorem Walker.run_closed_failed {label closed : List Char} (hlabel : ∀ c ∈ label, c ≠ ']')
    (h : ∀ d rest, ¬ Begins (':' :: '[' :: label ++ ']' :: closed) d rest)
    (resume : List Lexeme) (start offset : Nat) (name : Span) (found : List Marks) :
    run ⟨.closed resume start name, lexemes offset closed, found⟩ = run ⟨.outside, resume, found⟩ ∨
      (run ⟨.closed resume start name, lexemes offset closed, found⟩ = found ∧
        Silent closed []) := by
  cases closed with
  | nil => exact Or.inr ⟨by rw [lexemes_nil, run_nil], trivial⟩
  | cons c inner =>
    by_cases hc : c = '('
    · subst hc
      rw [lexemes_parenOpen, run_cons]
      simp only [Context.read, if_true]
      have hinner : ∀ p : Parts, p.Grammatical → ∀ rest,
          inner ≠ p.target ++ (p.gap ++ (p.behind ++ ')' :: rest)) := by
        rintro p hp rest rfl
        exact h _ rest ⟨{ p with label }, { hp with label_chars := hlabel }, rfl, by
          rw [Parts.toChars_append]⟩
      refine (run_target_failed hinner _ _ _ _ _).imp_right fun ⟨hrun, hmem⟩ => ⟨hrun, ?_⟩
      exact silent_of_not_mem (Or.inr (by simp [hmem]))
    · left
      have htoken : (next c inner).1 ≠ .parenOpen := fun heq =>
        hc ((next_token_eq c inner).2.2.1 heq)
      rw [lexemes_cons, run_cons]
      simp only [Context.read, if_neg htoken]

/-- Over a failed attempt the walk goes on behind the label, or it has come to the end of the text,
and then no directive is left. -/
theorem Walker.run_failed {opened passed rest : List Char}
    (h : attempt opened = .failed passed rest) (offset : Nat) (found : List Marks) :
    run ⟨.outside, lexemes offset (':' :: '[' :: opened), found⟩ =
        run ⟨.outside, lexemes (offset + 2 + bytes passed) rest, found⟩ ∨
      (run ⟨.outside, lexemes offset (':' :: '[' :: opened), found⟩ = found ∧ Silent rest []) := by
  have hnone : ∀ d rest', ¬ Begins (':' :: '[' :: opened) d rest' := fun d rest' hbegins =>
    nomatch h.symm.trans (attempt_eq_found_iff.mpr hbegins)
  rw [lexemes_opening, run_cons]
  simp only [Context.read, if_true]
  -- an attempt fails in its label or behind it
  rcases attempt_eq_failed_cases h with ⟨rfl, rfl, hopen⟩ | ⟨label, hlabel, rfl, rfl⟩
  · exact Or.inr ⟨run_label_unclosed hopen _ _ _, silent_of_not_mem (Or.inl hopen)⟩
  · have hbytes : offset + 2 + bytes (label ++ [']']) = offset + 2 + bytes label + 1 := by
      rw [bytes_append, ← Nat.add_assoc]
      rfl
    rw [run_label hlabel, hbytes]
    exact run_closed_failed hlabel hnone _ _ _ _ _

/-! ## The walk and the scan -/

/-- Where the first token is no opening, no directive begins in it. -/
theorem silent_next {c : Char} {cs : List Char} (h : ∀ opened, c :: cs ≠ ':' :: '[' :: opened) :
    Silent (next c cs).2.1 (next c cs).2.2 := by
  have hrun : ∀ {p : Char → Bool}, p ':' = false → p c = true →
      Silent (c :: cs.takeWhile p) (cs.dropWhile p) := by
    intro p hcolon hc
    have hall : ∀ x ∈ c :: cs.takeWhile p, p x = true := fun x hx =>
      (List.mem_cons.mp hx).elim (fun heq => heq ▸ hc) fun hx =>
        List.all_eq_true.mp List.all_takeWhile x hx
    rw [silent_iff]
    intro us vs heq hvs
    obtain ⟨v, vs, rfl⟩ := List.exists_cons_of_ne_nil hvs
    refine not_begins_of_not_opening fun rest hopen => ?_
    have hv := hall v (heq ▸ List.mem_append_right us List.mem_cons_self)
    rw [(List.cons.inj hopen).1, hcolon] at hv
    exact nomatch hv
  fun_cases next c cs with
  | case1 rest => exact absurd rfl (h rest)
  | case2 c cs hopen token hsingle =>
    exact ⟨not_begins_of_not_opening h, trivial⟩
  | case3 c cs hopen hsingle hgap => exact hrun rfl hgap
  | case4 c cs hopen hsingle hgap =>
    exact hrun rfl (by simpa [isTextChar, hsingle] using hgap)

namespace Walker

/-- Outside of any directive, with `before` behind it and `cs` in front of it, a walk over the text
finds the directives that are located, whatever it has found already. -/
def Finds (text : String) (before cs : List Char) (located : List (Directive × Position)) : Prop :=
  ∀ found, ∃ ms, run ⟨.outside, lexemes (bytes before) cs, found⟩ = found ++ ms ∧
    ms.mapM (Marks.cutOut? text.toList) = some located ∧
    ms.map Marks.span = located.map fun (d, p) => Span.of d p

/-- A walk that ends finds nothing more. -/
theorem finds_nil_of_run_eq {text : String} {before cs : List Char}
    (h : ∀ found, run ⟨.outside, lexemes (bytes before) cs, found⟩ = found) :
    Finds text before cs [] :=
  fun found => ⟨[], by rw [h, List.append_nil], rfl, rfl⟩

/-- A directive is found, and then what stands behind it. -/
theorem Finds.directive {text : String} {before rest : List Char} {p : Parts}
    {located : List (Directive × Position)} (htext : text.toList = before ++ (p.toChars ++ rest))
    (hp : p.Grammatical) (hbehind : ∀ c ∈ p.behind.head?, isGapChar c = false)
    (h : Finds text (before ++ p.toChars) rest located) :
    Finds text before (p.toChars ++ rest)
      ((p.directive, Position.start.advance before) :: located) := by
  intro found
  obtain ⟨ms, hrun, hread, hspans⟩ := h (found ++ [p.marks (bytes before)])
  rw [bytes_append] at hrun
  refine ⟨p.marks (bytes before) :: ms, ?_, ?_, ?_⟩
  · rw [run_found hp hbehind, hrun, List.append_assoc]
    rfl
  · rw [List.mapM_cons, cutOut?_marks htext, hread]
    rfl
  · rw [List.map_cons, hspans, List.map_cons, span_marks]

/-- A token that is no opening is passed over. -/
theorem Finds.token {text : String} {before : List Char} {c : Char} {cs : List Char}
    {located : List (Directive × Position)} (hopen : ∀ opened, c :: cs ≠ ':' :: '[' :: opened)
    (h : Finds text (before ++ (next c cs).2.1) (next c cs).2.2 located) :
    Finds text before (c :: cs) located := by
  intro found
  rw [lexemes_cons, run_cons]
  simp only [Context.read, if_neg (next_token_ne_opening hopen), ← bytes_append]
  exact h found

/-- So is a failed attempt up to the end of its label; if the text ends in it, there is nothing left
to find. -/
theorem Finds.failed {text : String} {before opened passed rest : List Char}
    {located : List (Directive × Position)} (hattempt : attempt opened = .failed passed rest)
    (h : Finds text (before ++ ':' :: '[' :: passed) rest located)
    (hend : Silent rest [] → located = []) :
    Finds text before (':' :: '[' :: opened) located := by
  intro found
  rcases run_failed hattempt (bytes before) found with hrun | ⟨hrun, hsilent⟩
  · have hbytes : bytes (before ++ ':' :: '[' :: passed) = bytes before + 2 + bytes passed := by
      rw [bytes_append, bytes_cons, bytes_cons, ← Nat.add_assoc, ← Nat.add_assoc]
      rfl
    rw [hrun, ← hbytes]
    exact h found
  · rw [hend hsilent]
    exact ⟨[], by rw [hrun, List.append_nil], rfl, rfl⟩

/-- From any place on, the walk finds what the scan finds. -/
theorem finds_of_scan {text : String} {before cs : List Char}
    {located : List (Directive × Position)} (htext : text.toList = before ++ cs)
    (hscan : Scan (Position.start.advance before) cs located) : Finds text before cs located := by
  induction hlength : cs.length using Nat.strongRecOn generalizing before cs located with
  | ind n ih =>
  subst hlength
  -- behind silent text, walk and scan stand at the same place again
  have hpass : ∀ passed rest, passed ++ rest = cs → passed ≠ [] → Silent passed rest →
      Finds text (before ++ passed) rest located := by
    rintro passed rest rfl hne hsilent
    have hshorter : rest.length < (passed ++ rest).length := by
      have hpos := List.length_pos_iff.mpr hne
      rw [List.length_append]
      omega
    refine ih rest.length hshorter (by rw [htext, List.append_assoc]) ?_ rfl
    rw [Position.advance_append]
    exact hscan.of_silent hsilent
  cases cs with
  | nil =>
    obtain rfl := hscan.eq_nil (silent_nil [])
    exact finds_nil_of_run_eq fun found => by rw [lexemes_nil, run_nil]
  | cons c cs =>
    by_cases hopen : ∃ opened, c :: cs = ':' :: '[' :: opened
    · obtain ⟨opened, hopened⟩ := hopen
      rw [hopened] at htext hscan ih hpass ⊢
      cases hattempt : attempt opened with
      | found d rest =>
        obtain ⟨p, hp, rfl, hhead, hcs⟩ := exists_parts_of_attempt hattempt
        obtain ⟨behind, rfl, hrest⟩ := hscan.of_begins (attempt_eq_found_iff.mp hattempt)
        rw [Parts.toList_source_directive, ← Position.advance_append] at hrest
        have hshorter : rest.length < (':' :: '[' :: opened).length := by
          rw [hcs]
          simp [Parts.toChars]
          omega
        rw [hcs] at htext ⊢
        have hfinds := ih rest.length hshorter (by rw [htext, List.append_assoc]) hrest rfl
        exact hfinds.directive htext hp hhead
      | failed passed rest =>
        have hsplit : ':' :: '[' :: passed ++ rest = ':' :: '[' :: opened := by
          rw [← attempt_failed hattempt]
          rfl
        have hsilent := silent_of_failed hattempt
        refine (hpass _ rest hsplit (List.cons_ne_nil _ _) hsilent).failed hattempt fun hend => ?_
        rw [← hsplit] at hscan
        exact (hscan.of_silent hsilent).eq_nil hend
    · have hnot : ∀ opened, c :: cs ≠ ':' :: '[' :: opened := fun opened heq =>
        hopen ⟨opened, heq⟩
      exact (hpass _ _ (next_append c cs) (next_ne_nil c cs) (silent_next hnot)).token hnot

end Walker

/-- A text without an opening gives nothing to find, so it need not be walked. -/
theorem marks_eq_run (text : String) : marks text = (Walker.ofText text).run := by
  rw [marks]
  split
  · rfl
  · next hnone =>
    have hsilent : Silent text.toList [] :=
      silent_of_findOpen_eq_none (Option.not_isSome_iff_eq_none.mp hnone)
    have hscan : Scan Position.start text.toList [] := by
      have hpass := Scan.pass_all (p := Position.start) hsilent (.done _)
      rwa [List.append_nil] at hpass
    obtain ⟨ms, hrun, -, hspans⟩ := Walker.finds_of_scan (List.nil_append _).symm hscan []
    obtain rfl := List.map_eq_nil_iff.mp hspans
    exact hrun.symm

/-- What is cut out at the marks of a text are the directives that are located, and their spans are
those of the marks. -/
theorem parse?_eq (text : String) :
    parse? text = some (locate text) ∧
      (marks text).map Marks.span = (locate text).map (fun (d, p) => Span.of d p) := by
  have hscan : Scan Position.start text.toList (locate text) := scan_iff.mpr rfl
  obtain ⟨ms, hrun, hread, hspans⟩ := Walker.finds_of_scan (List.nil_append _).symm hscan []
  have hms : marks text = ms := (marks_eq_run text).trans hrun
  rw [parse?, hms]
  exact ⟨hread, hspans⟩

/-- The walk ends: after finitely many steps all tokens are read. -/
theorem Walker.exists_end (w : Walker) :
    ∃ w', Relation.ReflTransGen (fun v v' : Walker => v.step = some v') w w' ∧
      w'.unread = [] ∧ w'.found = w.run := by
  fun_induction run w with
  | case1 w hstep =>
    refine ⟨w, .refl, ?_, rfl⟩
    obtain ⟨context, unread, found⟩ := w
    cases unread with
    | nil => rfl
    | cons lexeme unread => cases hread : context.read unread lexeme <;> simp [step, hread] at hstep
  | case2 w w' hstep ih =>
    obtain ⟨end', hreach, hunread, hfound⟩ := ih
    exact ⟨end', .head hstep hreach, hunread, hfound⟩

end Walk

theorem map_fst_starts (p : Position) (parts : List (List Char × Directive)) :
    (Outline.starts p parts).map Prod.fst = parts.map Prod.snd := by
  induction parts generalizing p with
  | nil => rfl
  | cons part parts ih => simp [Outline.starts, ih]

open Walk in
/-- The directives of a text are those of the leftmost scan. The scan that tries every place finds
the located directives and nothing else. The walk over the tokens ends, whether or not it looks for
an opening first, and what is written at its marks are these directives, in these spans. -/
theorem walk_finds_leftmost_directives (text : String) :
    (∀ found, Scan Position.start text.toList found ↔ found = locate text) ∧
      directives text = (locate text).map Prod.fst ∧
      parse? text = some (locate text) ∧
      (marks text).map Marks.span = (locate text).map (fun (d, p) => Span.of d p) ∧
      ∃ w, Relation.ReflTransGen (fun v v' : Walker => v.step = some v') (Walker.ofText text) w ∧
        w.unread = [] ∧ w.found = marks text := by
  obtain ⟨hparse, hspans⟩ := parse?_eq text
  obtain ⟨w, hreach, hunread, hfound⟩ := (Walker.ofText text).exists_end
  refine ⟨fun found => scan_iff, (map_fst_starts _ _).symm, hparse, hspans, w, hreach, hunread, ?_⟩
  rw [hfound, marks_eq_run]

end Directive

end Transclusion
