import Mathlib.Data.List.Induction
import Transclusion.Directive.Parse
import Transclusion.Proofs.Text.Cut

/-!
# Lines and columns

What the position behind a text says about the lines of that text, and of a longer one.

* `Position.line_column` — the number of lines, and the length of the last one;
* `Position.exists_line` — so the position behind the first part of a text leads to the second part;
* `Position.cutAt?_append` — and it can be read off the first part, cut out by its bytes;
* `Position.Precedes`, `Position.precedes_advance` — every character moves the position on.
-/

namespace Transclusion.Position

open Directive.Walk Text

/-- Every text has a last line. -/
theorem exists_last_line (cs : List Char) : ∃ front last, fields '\n' cs = front ++ [last] :=
  ⟨_, _, (List.dropLast_concat_getLast (fields_ne_nil '\n' cs)).symm⟩

/-- The position behind a text counts its lines and the characters of the last one. -/
theorem line_column {cs last : List Char} {front : List (List Char)}
    (h : fields '\n' cs = front ++ [last]) :
    (start.advance cs).line = front.length + 1 ∧ (start.advance cs).column = last.length + 1 := by
  induction cs using List.reverseRecOn generalizing front last with
  | nil =>
    obtain ⟨rfl, hlast⟩ := List.append_inj' (show [] ++ [[]] = front ++ [last] from h) rfl
    cases hlast
    exact ⟨rfl, rfl⟩
  | append_singleton cs c ih =>
    obtain ⟨front', last', hcs⟩ := exists_last_line cs
    obtain ⟨hline, hcolumn⟩ := ih hcs
    rw [advance_append, advance_cons, advance_nil, next]
    by_cases hc : c = '\n'
    · -- the last line is behind the newline, and is empty
      have hfields : fields '\n' cs ++ [[]] = front ++ [last] := by
        rw [← h, hc]
        exact (fields_append_cons '\n' cs []).symm
      obtain ⟨rfl, hlast⟩ := List.append_inj' hfields rfl
      cases hlast
      rw [if_pos hc, hline, hcs]
      simp
    · have hfields : front' ++ [last' ++ [c]] = front ++ [last] := by
        rw [← h]
        exact (fields_append hcs (by simpa using Ne.symm hc)).symm
      obtain ⟨rfl, hlast⟩ := List.append_inj' hfields rfl
      cases hlast
      rw [if_neg hc, hline, hcolumn]
      simp

/-- The lines of the second part of a text are those from the position behind the first part on: the
line with that number, without the characters before that column, and the lines behind it. -/
theorem exists_line (cs ds : List Char) :
    ∃ front line back, fields '\n' (cs ++ ds) = front ++ line :: back ∧
      (start.advance cs).line = front.length + 1 ∧ 1 ≤ (start.advance cs).column ∧
      (start.advance cs).column ≤ line.length + 1 ∧
      fields '\n' ds = line.drop ((start.advance cs).column - 1) :: back := by
  obtain ⟨front, last, hcs⟩ := exists_last_line cs
  obtain ⟨first, back, hds⟩ := List.exists_cons_of_ne_nil (fields_ne_nil '\n' ds)
  obtain ⟨hline, hcolumn⟩ := line_column hcs
  refine ⟨front, last ++ first, back, fields_append_fields hcs hds, hline, ?_, ?_, ?_⟩
  · omega
  · rw [hcolumn, List.length_append]
    omega
  · rw [hcolumn, Nat.add_sub_cancel, List.drop_left, hds]

/-- At the end of the first part of a text the position is read off that part. -/
theorem cutAt?_append (cs ds : List Char) :
    cutAt? (cs ++ ds) (bytes cs) = some (start.advance cs) := by
  obtain ⟨front, last, hcs⟩ := exists_last_line cs
  have hlast : '\n' ∉ last :=
    not_mem_of_mem_fields (hcs ▸ List.mem_append_right front List.mem_cons_self)
  have hcount : cs.count '\n' + 1 = front.length + 1 := by
    rw [← length_fields, hcs, List.length_append, List.length_singleton]
  have hbehind : cut? cs ⟨(lastNewline? cs).elim 0 (· + 1), bytes cs⟩ = some last := by
    by_cases hfront : front = []
    · obtain rfl : cs = last := by rw [← unite_fields '\n' cs, hcs, hfront]; rfl
      rw [lastNewline?_of_not_mem hlast]
      exact cut?_suffix [] cs
    · have hunite : cs = unite ['\n'] front ++ '\n' :: last := by
        rw [← unite_fields '\n' cs, hcs, unite_append ['\n'] hfront (List.cons_ne_nil _ _)]
        simp [unite]
      have hstart : bytes (unite ['\n'] front ++ ['\n']) = bytes (unite ['\n'] front) + 1 :=
        bytes_append _ ['\n']
      have hsuffix := cut?_suffix (unite ['\n'] front ++ ['\n']) last
      rw [hstart, List.append_assoc, List.singleton_append] at hsuffix
      rw [hunite, lastNewline?_append _ hlast]
      exact hsuffix
  obtain ⟨hline, hcolumn⟩ := line_column hcs
  have hoffset : (start.advance cs).offset = bytes cs := by
    rw [offset_advance]
    exact Nat.zero_add _
  have hle : bytes cs ≤ bytes (cs ++ ds) := by simp
  simp only [cutAt?, Nat.min_eq_left hle, cut?_prefix, Option.bind_eq_bind, Option.bind_some,
    hbehind, hcount, ← hline, ← hcolumn, Option.pure_def]
  rw [← hoffset]

/-! ## Order -/

/-- The position is in an earlier line, or in the same line and an earlier column. -/
def Precedes (p q : Position) : Prop :=
  p.line < q.line ∨ p.line = q.line ∧ p.column < q.column

theorem Precedes.trans {p q r : Position} (h : p.Precedes q) (h' : q.Precedes r) :
    p.Precedes r := by
  simp only [Precedes] at *
  omega

theorem precedes_next (p : Position) (c : Char) : p.Precedes (p.next c) := by
  rw [next]
  split
  · exact .inl (Nat.lt_succ_self _)
  · exact .inr ⟨rfl, Nat.lt_succ_self _⟩

/-- Every character moves the position on. -/
theorem precedes_advance (p : Position) {cs : List Char} (h : cs ≠ []) :
    p.Precedes (p.advance cs) := by
  induction cs generalizing p with
  | nil => exact absurd rfl h
  | cons c cs ih =>
    by_cases hcs : cs = []
    · rw [hcs]
      exact precedes_next p c
    · exact (precedes_next p c).trans (ih (p.next c) hcs)

end Transclusion.Position
