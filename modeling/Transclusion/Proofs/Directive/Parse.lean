import Transclusion.Proofs.Directive.Grammar
import Transclusion.Proofs.Text.Position

/-!
# Directives at their marks

Where the parts of a directive lie is a function of its parts and of the byte it starts at. What is
cut out there is the directive itself, and its position is right.

* `Parts.marks`, `span_marks` — the marks of a directive;
* `Walk.unquote?_eq` — quotes can always be cut off;
* `cutOut?_marks` — what is cut out at the marks.
-/

namespace Transclusion.Directive

open Walk

/-! ## Marks -/

/-- Where the parts of a directive lie that starts at the byte `start`. -/
def Parts.marks (p : Parts) (start : Nat) : Marks :=
  let label := start + 2
  let target := label + bytes p.label + 1 + 1
  let behind := target + bytes p.target + bytes p.gap
  { span := ⟨start, behind + bytes p.behind + 1⟩
    label := ⟨label, label + bytes p.label⟩
    target := ⟨target, target + bytes p.target⟩
    secondary := if p.behind = [] then none else some ⟨behind, behind + bytes p.behind⟩ }

theorem bytes_toChars (p : Parts) :
    bytes p.toChars =
      2 + bytes p.label + 2 + bytes p.target + bytes p.gap + bytes p.behind + 1 := by
  have hbytes : bytes [':', '['] = 2 ∧ bytes [']', '('] = 2 ∧ bytes [')'] = 1 := ⟨rfl, rfl, rfl⟩
  simp only [Parts.toChars, bytes_append, hbytes.1, hbytes.2.1, hbytes.2.2]

theorem span_marks (p : Parts) (before : List Char) :
    (p.marks (bytes before)).span = Span.of p.directive (Position.start.advance before) := by
  have hstart : Position.start.offset = 0 := rfl
  simp only [Span.of, Position.offset_advance, hstart, Nat.zero_add,
    Parts.toList_source_directive, bytes_toChars, Parts.marks, Span.mk.injEq, true_and]
  omega

/-! ## Cutting at the marks -/

namespace Walk

theorem bytes_quote {q : Char} (h : q ∈ ['"', '\'']) : bytes [q] = 1 := by
  have hcases : q = '"' ∨ q = '\'' := by simpa using h
  rcases hcases with rfl | rfl <;> rfl

/-- Quotes are one byte long, so they can be cut off. -/
theorem unquote?_eq (cs : List Char) : unquote? cs = some (unquote cs) := by
  by_cases hquoted : ∃ q ∈ ['"', '\''], ∃ inner, cs = [q] ++ (inner ++ [q])
  · obtain ⟨q, hq, inner, rfl⟩ := hquoted
    have hbytes : bytes ([q] ++ (inner ++ [q])) = 1 + bytes inner + 1 := by
      rw [bytes_append, bytes_append, bytes_quote hq, Nat.add_assoc]
    have hcut : Text.cut? ([q] ++ (inner ++ [q])) ⟨1, 1 + bytes inner⟩ = some inner :=
      Text.cut?_append (bytes_quote hq).symm rfl
    have hplain : unquote ([q] ++ (inner ++ [q])) = inner := by
      have hends : (q = '"' ∨ q = '\'') ∧ (inner ++ [q]).getLast? = some q :=
        ⟨by simpa using hq, List.getLast?_concat⟩
      rw [List.singleton_append, unquote, if_pos hends, List.dropLast_concat]
    have hlast : ([q] ++ (inner ++ [q])).getLast? = some q := by
      rw [← List.append_assoc, List.getLast?_concat]
    rw [unquote?, if_pos, hbytes, Nat.add_sub_cancel, hcut, hplain]
    refine List.any_eq_true.mpr ⟨q, hq, ?_⟩
    rw [hbytes, hlast]
    simp
  · have hplain : unquote cs = cs := by
      cases cs with
      | nil => rfl
      | cons q rest =>
        rw [unquote, if_neg]
        rintro ⟨hq, hlast⟩
        obtain ⟨inner, rfl⟩ := List.getLast?_eq_some_iff.mp hlast
        exact hquoted ⟨q, by simpa using hq, inner, rfl⟩
    rw [unquote?, if_neg, hplain]
    intro hany
    obtain ⟨q, hq, hends⟩ := List.any_eq_true.mp hany
    simp only [Bool.and_eq_true, decide_eq_true_eq] at hends
    obtain ⟨⟨hlength, hhead⟩, hlast⟩ := hends
    obtain ⟨rest, rfl⟩ := List.head?_eq_some_iff.mp hhead
    -- the quote at the end is another one than that at the start
    have hne : rest ≠ [] := by
      rintro rfl
      rw [bytes_quote hq] at hlength
      exact absurd hlength (by decide)
    rw [List.getLast?_cons_of_ne_nil hne] at hlast
    obtain ⟨inner, rfl⟩ := List.getLast?_eq_some_iff.mp hlast
    exact hquoted ⟨q, hq, inner, rfl⟩

theorem cutSecondary?_of_cut? {text cs : List Char} {span : Span}
    (h : Text.cut? text span = some cs) :
    cutSecondary? text (some span) = some (readSecondary cs) := by
  simp only [cutSecondary?, h, Option.bind_eq_bind, Option.bind_some, unquote?_eq, Option.pure_def,
    readSecondary]
  cases unquote (Text.trim cs) <;> rfl

end Walk

/-- What is written at the marks of a directive is that directive, and its position is right. -/
theorem cutOut?_marks {text : List Char} {before rest : List Char} {p : Parts}
    (h : text = before ++ (p.toChars ++ rest)) :
    (p.marks (bytes before)).cutOut? text = some (p.directive, Position.start.advance before) := by
  have hbytes : bytes [':', '['] = 2 ∧ bytes [']', '('] = 2 := ⟨rfl, rfl⟩
  have hspan : Text.cut? text (p.marks (bytes before)).span = some p.toChars := by
    rw [h]
    refine Text.cut?_append rfl ?_
    rw [bytes_toChars]
    omega
  have hlabel : Text.cut? text (p.marks (bytes before)).label = some p.label := by
    have htext : text = (before ++ [':', '[']) ++ (p.label ++
        ([']', '('] ++ p.target ++ p.gap ++ p.behind ++ [')'] ++ rest)) := by
      simp [h, Parts.toChars]
    rw [htext]
    exact Text.cut?_append (by rw [bytes_append, hbytes.1]) rfl
  have htarget : Text.cut? text (p.marks (bytes before)).target = some p.target := by
    have htext : text = (before ++ ([':', '['] ++ p.label ++ [']', '('])) ++ (p.target ++
        (p.gap ++ p.behind ++ [')'] ++ rest)) := by
      simp [h, Parts.toChars]
    rw [htext]
    refine Text.cut?_append ?_ rfl
    simp only [bytes_append, hbytes.1, hbytes.2]
    omega
  have hsecondary : cutSecondary? text (p.marks (bytes before)).secondary =
      some (readSecondary p.behind) := by
    by_cases hnil : p.behind = []
    · simp only [Parts.marks, hnil, if_pos]
      rfl
    · have htext : text = (before ++ ([':', '['] ++ p.label ++ [']', '('] ++ p.target ++
          p.gap)) ++ (p.behind ++ ([')'] ++ rest)) := by
        simp [h, Parts.toChars]
      have hcut : Text.cut? text ⟨bytes before + 2 + bytes p.label + 2 + bytes p.target +
          bytes p.gap, bytes before + 2 + bytes p.label + 2 + bytes p.target + bytes p.gap +
            bytes p.behind⟩ = some p.behind := by
        rw [htext]
        refine Text.cut?_append ?_ rfl
        simp only [bytes_append, hbytes.1, hbytes.2]
        omega
      simp only [Parts.marks, hnil, if_false, cutSecondary?_of_cut? hcut]
  have hposition : Position.cutAt? text (p.marks (bytes before)).span.start =
      some (Position.start.advance before) := by
    rw [h]
    exact Position.cutAt?_append before (p.toChars ++ rest)
  simp only [Marks.cutOut?, hspan, hlabel, htarget, hsecondary, hposition]
  simp [Parts.directive, assemble, Parts.toChars]

end Transclusion.Directive
