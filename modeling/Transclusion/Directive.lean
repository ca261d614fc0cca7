import Transclusion.Text.Blank
import Transclusion.Text.Position

/-!
# Directives

A directive `:[label](target secondary)` asks for the document that its target denotes.

The label is any text without `]`; it may be empty and may span lines. The target is a non-empty
text without space, tab, carriage return, newline or `)`. After a run of spaces, tabs and carriage
returns there may be a secondary text, without newline or `)`. A directive never spans another:
the leftmost one that is complete counts, and the search goes on behind it.

* `Directive` — what is written in one directive, with its source text;
* `Outline.ofText` — a text cut into its directives and the gaps between them;
* `Outline.toChars_ofChars` — nothing is lost in cutting;
* `directives`, `locate` — the directives of a text, and where they start;
* `Directive.withTarget` — a directive written again, with another target;
* `isRemoteTarget` — whether a target is a URL, which no document of the set answers to.

## Going on after a failed attempt

An opening `:[` whose label is closed but not followed by a complete target cannot be completed,
and neither can any `:[` inside that label, since they share the closing `]`. So the search goes on
behind the `]`, or behind the opening itself when the label is never closed.
-/

namespace Transclusion

/-- What is written in one directive. -/
structure Directive where
  /-- The text shown in place of the target; it has no meaning for resolution. -/
  label : String
  /-- The reference as written. -/
  target : String
  /-- The text behind the target, without surrounding blanks and quotes; none if that leaves
  nothing. -/
  secondary : Option String
  /-- The directive as it stands in its text. -/
  source : String
  deriving DecidableEq, Repr, Inhabited

/-! ## Remote targets -/

/-- Whether a text is a URL scheme: at least two characters, the first a letter, all of them
letters, digits, `+`, `-` or `.`. A single letter is a drive, not a scheme. -/
def isScheme : List Char → Bool
  | first :: second :: rest =>
      first.isAlpha &&
        (first :: second :: rest).all fun c => c.isAlphanum || c = '+' || c = '-' || c = '.'
  | _ => false

/-- Whether a target is a URL: it starts with `//`, or with a scheme and a colon. -/
def isRemoteTarget (target : String) : Bool :=
  let cs := target.toList
  ['/', '/'].isPrefixOf cs || (cs.contains ':' && isScheme (cs.takeWhile (· ≠ ':')))

namespace Directive

/-- Whether the target is a URL. -/
def isRemote (d : Directive) : Bool :=
  isRemoteTarget d.target

/-- The directive written with another target. The secondary text follows after one space. -/
def withTarget (d : Directive) (target : String) : String :=
  match d.secondary with
  | some secondary => ":[" ++ d.label ++ "](" ++ target ++ " " ++ secondary ++ ")"
  | none => ":[" ++ d.label ++ "](" ++ target ++ ")"

/-! ## One attempt -/

/-- Characters a target is made of. -/
def isTargetChar (c : Char) : Bool :=
  !(c = ' ' || c = '\t' || c = '\r' || c = '\n' || c = ')')

/-- Characters that may stand between the target and the secondary text. -/
def isGapChar (c : Char) : Bool :=
  c = ' ' || c = '\t' || c = '\r'

/-- Characters a secondary text is made of. -/
def isSecondaryChar (c : Char) : Bool :=
  !(c = '\n' || c = ')')

/-- A text without the pair of equal quotes around it. A lone quote is no pair. -/
def unquote : List Char → List Char
  | [] => []
  | q :: rest =>
      if (q = '"' ∨ q = '\'') ∧ rest.getLast? = some q then rest.dropLast else q :: rest

/-- The secondary text of a directive: without blanks at its ends and one pair of quotes, none
if that leaves nothing. -/
def readSecondary (cs : List Char) : Option String :=
  match unquote (Text.trim cs) with
  | [] => none
  | c :: rest => some (String.ofList (c :: rest))

/-- What becomes of an opening `:[`. -/
inductive Attempt
  /-- A complete directive, and the text behind it. -/
  | found (directive : Directive) (rest : List Char)
  /-- No directive opens here: the text that is passed over behind `:[`, and the text where the
  search goes on. -/
  | failed (passed rest : List Char)

/-- The directive of the given label and target, where `behind` is the text between the target
and the closing parenthesis. -/
def assemble (label target gap behind : List Char) : Directive where
  label := String.ofList label
  target := String.ofList target
  secondary := readSecondary behind
  source := String.ofList ([':', '['] ++ label ++ [']', '('] ++ target ++ gap ++ behind ++ [')'])

/-- Reads what follows `](`: a target, perhaps a secondary text, and the closing parenthesis. -/
def readTarget? (label inner : List Char) : Option (Directive × List Char) :=
  let target := inner.takeWhile isTargetChar
  let afterTarget := inner.dropWhile isTargetChar
  let gap := afterTarget.takeWhile isGapChar
  let afterGap := afterTarget.dropWhile isGapChar
  let behind := if gap = [] then [] else afterGap.takeWhile isSecondaryChar
  let close := if gap = [] then afterGap else afterGap.dropWhile isSecondaryChar
  match target, close with
  | _ :: _, ')' :: rest => some (assemble label target gap behind, rest)
  | _, _ => none

/-- Reads what follows an opening `:[`. -/
def attempt (opened : List Char) : Attempt :=
  let label := opened.takeWhile (· ≠ ']')
  match opened.dropWhile (· ≠ ']') with
  | [] => .failed [] opened
  | _ :: closed =>
      match closed with
      | '(' :: inner =>
          match readTarget? label inner with
          | some (directive, rest) => .found directive rest
          | none => .failed (label ++ [']']) closed
      | _ => .failed (label ++ [']']) closed

/-- The first `:[` of a text: what stands before it and what follows it. -/
def findOpen (before : List Char) : List Char → Option (List Char × List Char)
  | ':' :: '[' :: rest => some (before.reverse, rest)
  | c :: rest => findOpen (c :: before) rest
  | [] => none

/-! ### What an attempt leaves -/

theorem findOpen_eq_some {before cs gap rest : List Char}
    (h : findOpen before cs = some (gap, rest)) :
    gap ++ ':' :: '[' :: rest = before.reverse ++ cs := by
  fun_induction findOpen before cs with
  | case1 before rest' =>
    simp only [Option.some.injEq, Prod.mk.injEq] at h
    obtain ⟨rfl, rfl⟩ := h
    rfl
  | case2 before c cs _ ih => simpa using ih h
  | case3 => simp at h

theorem readTarget?_eq_some {label inner rest : List Char} {d : Directive}
    (h : readTarget? label inner = some (d, rest)) :
    d.source.toList ++ rest = ':' :: '[' :: label ++ ']' :: '(' :: inner ∧
      rest.length < inner.length := by
  have hinner := List.takeWhile_append_dropWhile (p := isTargetChar) (l := inner)
  have hgap := List.takeWhile_append_dropWhile (p := isGapChar) (l := inner.dropWhile isTargetChar)
  have hbehind := List.takeWhile_append_dropWhile (p := isSecondaryChar)
    (l := (inner.dropWhile isTargetChar).dropWhile isGapChar)
  simp only [readTarget?] at h
  split at h
  · next c target rest' htarget hclose =>
    simp only [Option.some.injEq, Prod.mk.injEq] at h
    obtain ⟨rfl, rfl⟩ := h
    simp only [assemble, String.toList_ofList]
    split at hclose
    · next hnil =>
      rw [hnil, List.nil_append, hclose] at hgap
      rw [← hgap, htarget] at hinner
      rw [if_pos hnil, hnil, htarget, ← hinner]
      simp
      omega
    · next hcons =>
      rw [hclose] at hbehind
      rw [← hgap, ← hbehind, htarget] at hinner
      rw [if_neg hcons, htarget]
      conv => rhs; rw [← hinner]
      conv => lhs; rhs; rhs; rw [← hinner]
      simp
      omega
  · simp at h

theorem closing_of_dropWhile {cs closed : List Char} {closing : Char}
    (h : cs.dropWhile (· ≠ ']') = closing :: closed) :
    cs = cs.takeWhile (· ≠ ']') ++ ']' :: closed := by
  have hclosing : closing = ']' := by
    have hne : cs.dropWhile (· ≠ ']') ≠ [] := by rw [h]; simp
    have hhead := List.head_dropWhile_not (fun c => decide (c ≠ ']')) hne
    simp only [h, List.head_cons] at hhead
    simpa using hhead
  conv => lhs; rw [← List.takeWhile_append_dropWhile (p := fun c => decide (c ≠ ']')) (l := cs)]
  rw [h, hclosing]

/-- A found directive and the rest make up the text that was opened. -/
theorem attempt_found {opened rest : List Char} {d : Directive}
    (h : attempt opened = .found d rest) :
    d.source.toList ++ rest = ':' :: '[' :: opened ∧ rest.length < opened.length := by
  simp only [attempt] at h
  split at h
  · exact nomatch h
  · next closing closed hdrop =>
    have hopened := closing_of_dropWhile hdrop
    split at h
    · next inner =>
      split at h
      · next d' rest' hread =>
        cases h
        obtain ⟨hsource, hlength⟩ := readTarget?_eq_some hread
        refine ⟨?_, ?_⟩
        · rw [hsource]
          conv => rhs; rw [hopened]
          simp
        · rw [hopened]
          simp
          omega
      · exact nomatch h
    · exact nomatch h

/-- The text passed over and the rest make up the text that was opened. -/
theorem attempt_failed {opened passed rest : List Char}
    (h : attempt opened = .failed passed rest) : passed ++ rest = opened := by
  simp only [attempt] at h
  split at h
  · cases h; rfl
  · next closing closed hdrop =>
    have hopened := closing_of_dropWhile hdrop
    conv => rhs; rw [hopened]
    split at h
    · split at h
      · exact nomatch h
      · cases h; simp
    · cases h; simp

end Directive

/-! ## The outline of a text -/

/-- A text cut at its directives: each directive with the gap before it, and the text behind the
last one. -/
structure Outline where
  parts : List (List Char × Directive)
  tail : List Char
  deriving DecidableEq, Repr

namespace Outline

/-- Cuts `cs`, where `gap` is the text since the last directive. -/
def cut (gap cs : List Char) : Outline :=
  match _hopen : Directive.findOpen [] cs with
  | none => ⟨[], gap ++ cs⟩
  | some (before, opened) =>
      match _hattempt : Directive.attempt opened with
      | .found directive rest =>
          let outline := cut [] rest
          ⟨(gap ++ before, directive) :: outline.parts, outline.tail⟩
      | .failed passed rest => cut (gap ++ before ++ [':', '['] ++ passed) rest
termination_by cs.length
decreasing_by
  · have hcs := congrArg List.length (Directive.findOpen_eq_some _hopen)
    have hrest := (Directive.attempt_found _hattempt).2
    simp at hcs
    omega
  · have hcs := congrArg List.length (Directive.findOpen_eq_some _hopen)
    have hrest := congrArg List.length (Directive.attempt_failed _hattempt)
    simp at hcs hrest
    omega

/-- The outline of a text. -/
def ofText (text : String) : Outline :=
  cut [] text.toList

/-- The directives in order. -/
def directives (outline : Outline) : List Directive :=
  outline.parts.map Prod.snd

/-- The text that an outline was cut from. -/
def toChars (outline : Outline) : List Char :=
  outline.parts.flatMap (fun part => part.1 ++ part.2.source.toList) ++ outline.tail

/-- Nothing is lost in cutting. -/
theorem toChars_cut (gap cs : List Char) : (cut gap cs).toChars = gap ++ cs := by
  fun_induction cut gap cs with
  | case1 gap cs hopen => simp [toChars]
  | case2 gap cs before opened hopen directive rest hattempt outline ih =>
    have hcs := Directive.findOpen_eq_some hopen
    have hrest := (Directive.attempt_found hattempt).1
    simp only [toChars, List.flatMap_cons, List.append_assoc] at ih ⊢
    rw [ih, List.nil_append, hrest, hcs]
    rfl
  | case3 gap cs before opened hopen passed rest hattempt ih =>
    have hcs := Directive.findOpen_eq_some hopen
    have hrest := Directive.attempt_failed hattempt
    rw [List.reverse_nil, List.nil_append] at hcs
    rw [ih, ← hcs, ← hrest]
    simp

/-- Where the directives start, walking from `p`. -/
def starts (p : Position) : List (List Char × Directive) → List (Directive × Position)
  | [] => []
  | (gap, directive) :: parts =>
      let start := p.advance gap
      (directive, start) :: starts (start.advance directive.source.toList) parts

end Outline

/-- The directives of a text in order. -/
def directives (text : String) : List Directive :=
  (Outline.ofText text).directives

/-- The directives of a text in order, each with the position of its colon. -/
def locate (text : String) : List (Directive × Position) :=
  Outline.starts Position.start (Outline.ofText text).parts

end Transclusion
