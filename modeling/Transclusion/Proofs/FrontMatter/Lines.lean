import Transclusion.FrontMatter.Search
import Transclusion.Proofs.FrontMatter

/-!
# The lines of front matter

Which texts have front matter, said of their lines. The first line is a mark `---`, and some line
behind it is a mark `---` or `...`; the first such line closes the header.

* `Block` — a text put together from a first line, a header, a closing line and a body;
* `split?_eq_some_iff` — a text is split exactly as it is put together;
* `isPresent_iff` — which texts can be split;
* `search?_eq`, `cutApart?_eq` — the search along byte offsets comes to the same header and body,
  and no cut fails on its way;
* `split_along_lines` — all of this about one text.
-/

namespace Transclusion.FrontMatter

theorem isOpening_iff {cs : List Char} : isOpening cs ↔ Text.trimEnd cs = ['-', '-', '-'] :=
  decide_eq_true_iff

theorem isClosing_iff {cs : List Char} :
    isClosing cs ↔ Text.trimEnd cs = ['-', '-', '-'] ∨ Text.trimEnd cs = ['.', '.', '.'] := by
  simp [isClosing]

/-! ## The grammar -/

/-- A text that opens with a block of metadata, line by line. -/
structure Block where
  first : List Char
  /-- The lines between the marks, without their newlines. -/
  lines : List (List Char)
  closing : List Char
  /-- What follows the newline of the closing line; none if the text ends without that newline. -/
  behind : Option (List Char)

namespace Block

/-- The complete lines between the marks. -/
def header (b : Block) : List Char :=
  b.lines.flatMap (· ++ ['\n'])

/-- What follows the closing line. -/
def body (b : Block) : List Char :=
  b.behind.getD []

/-- The closing line with all that follows it. -/
def ending (b : Block) : List Char :=
  b.closing ++ b.behind.elim [] ('\n' :: ·)

/-- The whole text. -/
def toChars (b : Block) : List Char :=
  b.first ++ '\n' :: (b.header ++ b.ending)

/-- What the lines must be like. Blanks at the end of a mark do not count. -/
structure Grammatical (b : Block) : Prop where
  first_line : '\n' ∉ b.first
  first_mark : Text.trimEnd b.first = ['-', '-', '-']
  lines_line : ∀ cs ∈ b.lines, '\n' ∉ cs
  lines_no_mark : ∀ cs ∈ b.lines,
    Text.trimEnd cs ≠ ['-', '-', '-'] ∧ Text.trimEnd cs ≠ ['.', '.', '.']
  closing_line : '\n' ∉ b.closing
  closing_mark : Text.trimEnd b.closing = ['-', '-', '-'] ∨ Text.trimEnd b.closing = ['.', '.', '.']

end Block

/-! ## Splitting by lines -/

/-- A header has a closing line, which may lack its newline, and no line before that closes it. -/
theorem exists_lines_of_splitHeader? {cs header body : List Char}
    (h : splitHeader? cs = some (header, body)) :
    ∃ (lines : List (List Char)) (closing : List Char) (behind : Option (List Char)),
      (∀ l ∈ lines, '\n' ∉ l ∧ ¬ isClosing l) ∧ '\n' ∉ closing ∧ isClosing closing ∧
      header = lines.flatMap (· ++ ['\n']) ∧ body = behind.getD [] ∧
      cs = header ++ (closing ++ behind.elim [] ('\n' :: ·)) := by
  induction cs using Text.lines_induction generalizing header body with
  | last cs hcs =>
    rw [splitHeader?_of_not_mem hcs] at h
    split at h
    · next hclosing =>
      cases h
      exact ⟨[], cs, none, by simp, hcs, hclosing, rfl, rfl, by simp⟩
    · cases h
  | line cs rest hcs ih =>
    rw [splitHeader?_append hcs] at h
    split at h
    · next hclosing =>
      cases h
      exact ⟨[], cs, some rest, by simp, hcs, hclosing, rfl, rfl, by simp⟩
    · next hopen =>
      obtain ⟨⟨header', body'⟩, hrest, heq⟩ := Option.map_eq_some_iff.mp h
      cases heq
      obtain ⟨lines, closing, behind, hlines, hclosing, hmark, rfl, rfl, hcut⟩ := ih hrest
      have hlines' := List.forall_mem_cons.mpr ⟨⟨hcs, hopen⟩, hlines⟩
      refine ⟨cs :: lines, closing, behind, hlines', hclosing, hmark, by simp, rfl, ?_⟩
      conv => lhs; rw [hcut]
      simp

/-- Some line must close the header. -/
theorem isSome_splitHeader?_iff {cs : List Char} :
    (splitHeader? cs).isSome ↔ ∃ l ∈ Text.fields '\n' cs, isClosing l := by
  induction cs using Text.lines_induction with
  | last cs hcs =>
    rw [splitHeader?_of_not_mem hcs, Text.fields_of_not_mem hcs]
    split <;> simp [*]
  | line cs rest hcs ih =>
    rw [splitHeader?_append hcs, Text.fields_append_cons, Text.fields_of_not_mem hcs]
    split <;> simp [*]

theorem split?_append {first : List Char} (h : '\n' ∉ first) (rest : List Char) :
    split? (first ++ '\n' :: rest) = if isOpening first then splitHeader? rest else none := by
  obtain ⟨hline, hafter⟩ := line_append h rest
  rw [split?, hafter, hline]

theorem split?_of_not_mem {cs : List Char} (h : '\n' ∉ cs) : split? cs = none := by
  rw [split?, (line_of_not_mem h).2]

/-- A text is taken apart as it is put together. -/
theorem Block.Grammatical.split?_eq {b : Block} (h : b.Grammatical) :
    split? b.toChars = some (b.header, b.body) := by
  have hlines : ∀ cs ∈ b.lines, '\n' ∉ cs ∧ ¬ isClosing cs := fun cs hcs =>
    ⟨h.lines_line cs hcs, isClosing_iff.not.mpr (not_or.mpr (h.lines_no_mark cs hcs))⟩
  have hending : splitHeader? b.ending = some ([], b.body) := by
    have hclosing := isClosing_iff.mpr h.closing_mark
    rw [Block.ending, Block.body]
    cases b.behind with
    | none =>
      rw [Option.elim_none, List.append_nil, splitHeader?_of_not_mem h.closing_line,
        if_pos hclosing]
      rfl
    | some body =>
      rw [Option.elim_some, splitHeader?_append h.closing_line, if_pos hclosing]
      rfl
  rw [Block.toChars, split?_append h.first_line, if_pos (isOpening_iff.mpr h.first_mark),
    Block.header, splitHeader?_lines hlines, hending]
  simp

/-- A text is split in one way, as it is put together from its lines. -/
theorem split?_eq_some_iff {cs header body : List Char} :
    split? cs = some (header, body) ↔
      ∃ b : Block, b.Grammatical ∧ b.toChars = cs ∧ b.header = header ∧ b.body = body := by
  constructor
  · intro h
    by_cases hnewline : '\n' ∈ cs
    · obtain ⟨first, rest, rfl, hfirst⟩ := List.eq_append_cons_of_mem hnewline
      rw [split?_append hfirst] at h
      split at h
      · next hopening =>
        obtain ⟨lines, closing, behind, hlines, hclosing, hmark, rfl, rfl, hrest⟩ :=
          exists_lines_of_splitHeader? h
        have hno_mark : ∀ l ∈ lines,
            Text.trimEnd l ≠ ['-', '-', '-'] ∧ Text.trimEnd l ≠ ['.', '.', '.'] :=
          fun l hl => not_or.mp (isClosing_iff.not.mp (hlines l hl).2)
        refine ⟨⟨first, lines, closing, behind⟩, ⟨hfirst, isOpening_iff.mp hopening,
          fun l hl => (hlines l hl).1, hno_mark, hclosing, isClosing_iff.mp hmark⟩, ?_, rfl, rfl⟩
        rw [hrest]
        rfl
      · cases h
    · rw [split?_of_not_mem hnewline] at h
      cases h
  · rintro ⟨b, hb, rfl, rfl, rfl⟩
    exact hb.split?_eq

/-- A text has front matter exactly if its first line is a mark and some other line is a closing
mark. -/
theorem isPresent_iff {text : String} :
    isPresent text ↔ ∃ first later, Text.fields '\n' text.toList = first :: later ∧
      isOpening first ∧ ∃ cs ∈ later, isClosing cs := by
  rw [isPresent]
  by_cases hnewline : '\n' ∈ text.toList
  · obtain ⟨first, rest, htext, hfirst⟩ := List.eq_append_cons_of_mem hnewline
    rw [htext, split?_append hfirst, Text.fields_append_cons, Text.fields_of_not_mem hfirst]
    simp only [List.singleton_append, List.cons.injEq]
    split
    · next hopening =>
      rw [isSome_splitHeader?_iff]
      constructor
      · intro h
        exact ⟨first, _, ⟨rfl, rfl⟩, hopening, h⟩
      · rintro ⟨_, _, ⟨rfl, rfl⟩, -, h⟩
        exact h
    · next hopening =>
      refine iff_of_false (by simp) ?_
      rintro ⟨_, _, ⟨rfl, rfl⟩, h, -⟩
      exact hopening h
  · rw [split?_of_not_mem hnewline, Text.fields_of_not_mem hnewline]
    simp

/-! ## The search -/

section Search

open Directive.Walk

/-- Where a header that starts at a byte and the body at the end of the text lie. -/
def placed (text : List Char) (headerStart start : Nat) (parts : List Char × List Char) :
    Span × Span :=
  (⟨headerStart, start + bytes parts.1⟩, ⟨bytes text - bytes parts.2, bytes text⟩)

/-- At a line with a newline the search ends, or it goes on behind that newline. -/
theorem turn?_append {cs : List Char} (hcs : '\n' ∉ cs) (before rest : List Char)
    (headerStart : Nat) :
    turn? (before ++ (cs ++ '\n' :: rest)) headerStart (bytes before) =
      some (if isClosing cs then
          .closed ⟨headerStart, bytes before⟩
            ⟨bytes (before ++ (cs ++ '\n' :: rest)) - bytes rest,
              bytes (before ++ (cs ++ '\n' :: rest))⟩
        else .next (bytes (before ++ (cs ++ ['\n'])))) := by
  have hbytes : bytes ('\n' :: rest) = 1 + bytes rest ∧ bytes ['\n'] = 1 := ⟨rfl, rfl⟩
  simp only [turn?, Text.cut?_suffix before (cs ++ '\n' :: rest), Option.bind_eq_bind,
    Option.bind_some, Text.newline?_append hcs, Option.elim_some, Text.cut?_append rfl rfl,
    Option.pure_def, Option.some.injEq]
  simp only [bytes_append, hbytes]
  split
  · congr 2
    omega
  · rw [if_neg (by omega), Nat.add_assoc]

/-- At the last line the search ends. -/
theorem turn?_of_not_mem {cs : List Char} (hcs : '\n' ∉ cs) (before : List Char)
    (headerStart : Nat) :
    turn? (before ++ cs) headerStart (bytes before) =
      some (if isClosing cs then
          .closed ⟨headerStart, bytes before⟩ ⟨bytes (before ++ cs), bytes (before ++ cs)⟩
        else .ended) := by
  simp only [turn?, Text.cut?_suffix before cs, Option.bind_eq_bind,
    Option.bind_some, Text.newline?_of_not_mem hcs, Option.elim_none, Option.pure_def, if_true,
    Nat.min_eq_right (Nat.le_succ _)]

/-- What the search comes to at a line decides how it goes on. -/
theorem search?_of_turn? {text : List Char} {headerStart start : Nat} {turn : Turn}
    (hstart : start ≤ bytes text) :
    turn? text headerStart start = some turn → search? text headerStart start =
      match turn with
      | .closed header body => some (some (header, body))
      | .ended => some none
      | .next next => search? text headerStart next := by
  intro hturn
  rw [search?, dif_pos hstart]
  cases turn <;> split <;> simp_all

/-- From the start of a line on, the search comes to what the lines are split into. -/
theorem search?_eq {text cs : List Char} (before : List Char) (h : text = before ++ cs)
    (headerStart : Nat) :
    search? text headerStart (bytes before) =
      some ((splitHeader? cs).map (placed text headerStart (bytes before))) := by
  induction cs using Text.lines_induction generalizing before with
  | last cs hcs =>
    have hturn := turn?_of_not_mem hcs before headerStart
    rw [← h] at hturn
    rw [search?_of_turn? (by simp [h]) hturn, splitHeader?_of_not_mem hcs]
    by_cases hclosing : isClosing cs <;> simp [hclosing, placed]
  | line cs rest hcs ih =>
    have hturn := turn?_append hcs before rest headerStart
    have hrest := ih (before ++ (cs ++ ['\n'])) (by simp [h])
    rw [← h] at hturn
    rw [search?_of_turn? (by simp [h]) hturn, splitHeader?_append hcs]
    by_cases hclosing : isClosing cs
    · simp [hclosing, placed]
    · simp only [if_neg hclosing, hrest, Option.map_map]
      -- the header grows by the line that was passed
      refine congrArg (fun f => some (Option.map f (splitHeader? rest))) (funext fun parts => ?_)
      simp [placed, Nat.add_assoc]

/-- The search finds where the header and the body of a text lie. -/
theorem spans?_eq (text : List Char) :
    spans? text =
      some ((split? text).map (placed text (bytes (line text) + 1) (bytes (line text) + 1))) := by
  by_cases hnewline : '\n' ∈ text
  · obtain ⟨first, rest, htext, hfirst⟩ := List.eq_append_cons_of_mem hnewline
    have hrest : text = (first ++ ['\n']) ++ rest := by simp [htext]
    have hsearch := search?_eq (first ++ ['\n']) hrest (bytes first + 1)
    have hstart : bytes (first ++ ['\n']) = bytes first + 1 := bytes_append first ['\n']
    rw [hstart, htext] at hsearch
    rw [htext, spans?, Text.newline?_append hfirst, split?_append hfirst,
      (line_append hfirst rest).1]
    simp only [Text.cut?_prefix, hsearch, Option.bind_eq_bind, Option.bind_some]
    split <;> rfl
  · rw [spans?, Text.newline?_of_not_mem hnewline, split?_of_not_mem hnewline]
    rfl

/-- What the search finds can be cut out, and is what the lines are split into. -/
theorem cutApart?_eq (text : List Char) : cutApart? text = some (split? text) := by
  rw [cutApart?, spans?_eq]
  cases hsplit : split? text with
  | none => rfl
  | some parts =>
    obtain ⟨header, body⟩ := parts
    obtain ⟨front, hfront⟩ := suffix_of_split? hsplit
    obtain ⟨b, hb, htext, rfl, rfl⟩ := split?_eq_some_iff.mp hsplit
    have hline : line text = b.first := by
      rw [← htext]
      exact (line_append hb.first_line _).1
    have hstart : bytes (b.first ++ ['\n']) = bytes b.first + 1 := bytes_append b.first ['\n']
    have hheader : Text.cut? text ⟨bytes b.first + 1, bytes b.first + 1 + bytes b.header⟩ =
        some b.header := by
      have hchars : text = b.first ++ ['\n'] ++ (b.header ++ b.ending) := by
        simp [← htext, Block.toChars]
      rw [hchars]
      exact Text.cut?_append hstart.symm rfl
    have hbody : Text.cut? text ⟨bytes text - bytes b.body, bytes text⟩ = some b.body := by
      have hstart : bytes text - bytes b.body = bytes front := by simp [← hfront]
      rw [hstart, ← hfront]
      exact Text.cut?_suffix front b.body
    simp only [Option.map_some, placed, hline, Option.bind_eq_bind, Option.bind_some, hheader,
      hbody, Option.pure_def]

end Search

/-! ## Main result -/

/-- A text has front matter exactly if its first line is a mark and some line behind it is a closing
mark, where the last line may lack its newline. Then the header is made of the complete lines up to
the first closing mark, and the body is what follows; with the two marks they are the whole text.
Otherwise the text is all body. Cutting header and body out by their bytes never fails. -/
theorem split_along_lines (text : String) :
    (isPresent text ↔ ∃ first later, Text.fields '\n' text.toList = first :: later ∧
      Text.trimEnd first = ['-', '-', '-'] ∧
      ∃ cs ∈ later, Text.trimEnd cs = ['-', '-', '-'] ∨ Text.trimEnd cs = ['.', '.', '.']) ∧
    (∀ header body, split? text.toList = some (header, body) ↔
      ∃ b : Block, b.Grammatical ∧ b.toChars = text.toList ∧ b.header = header ∧ b.body = body) ∧
    (∀ b : Block, b.Grammatical → b.toChars = text.toList →
      parse text = (readHeader b.header).map fun metadata => ⟨String.ofList b.body, metadata⟩) ∧
    (¬ isPresent text → parse text = .ok ⟨text, .empty⟩) ∧
    cutApart? text.toList = some (split? text.toList) := by
  refine ⟨?_, fun header body => split?_eq_some_iff, fun b hb htext => ?_, fun hnone => ?_,
    cutApart?_eq text.toList⟩
  · rw [isPresent_iff]
    simp only [isOpening_iff, isClosing_iff]
  · rw [parse, ← htext, hb.split?_eq]
  · rw [isPresent, Option.not_isSome_iff_eq_none] at hnone
    rw [parse, hnone]

/-- The closing mark may end the text, and carriage returns in front of newlines do not count. -/
example : cutApart? "---\r\né: 1\r\n...".toList = some (some ("é: 1\r\n".toList, [])) := by
  decide +kernel

end Transclusion.FrontMatter
