import Mathlib.Data.List.TakeWhile
import Transclusion.Proofs.Directive.Tokens
import Transclusion.Text.Cut
import Transclusion.Text.Fields

/-!
# Cutting a text at its parts

A cut at the bytes of a part of the text is possible, and gives that part. A text with a newline has
one line before the first newline and one behind the last.

* `cut?_append`, `cut?_prefix`, `cut?_suffix` — what is cut out at the bytes of a part;
* `newline?_append`, `lastNewline?_append` — where the newline stands that a line ends or starts at;
* `lines_induction` — a text is one line, or a line with a newline and a text behind it.
-/

namespace Transclusion.Text

open Directive.Walk

theorem drop?_bytes (cs ds : List Char) : drop? (bytes cs) (cs ++ ds) = some ds := by
  induction cs with
  | nil => simp [drop?]
  | cons c cs ih =>
    obtain ⟨n, hn⟩ := Nat.exists_eq_add_one_of_ne_zero (Nat.ne_of_gt c.utf8Size_pos)
    rw [bytes_cons, hn, Nat.add_right_comm, List.cons_append, drop?, if_pos (by omega)]
    rw [← ih]
    congr 1
    omega

theorem take?_bytes (cs ds : List Char) : take? (bytes cs) (cs ++ ds) = some cs := by
  induction cs with
  | nil => simp [take?]
  | cons c cs ih =>
    obtain ⟨n, hn⟩ := Nat.exists_eq_add_one_of_ne_zero (Nat.ne_of_gt c.utf8Size_pos)
    have hrest : n + bytes cs + 1 - c.utf8Size = bytes cs := by omega
    rw [bytes_cons, hn, Nat.add_right_comm, List.cons_append, take?, if_pos (by omega), hrest, ih]
    rfl

/-- What is cut out at the bytes of a part of a text is that part. -/
theorem cut?_append {cs ds es : List Char} {start stop : Nat} (hstart : start = bytes cs)
    (hstop : stop = start + bytes ds) : cut? (cs ++ (ds ++ es)) ⟨start, stop⟩ = some ds := by
  subst hstart hstop
  rw [cut?, if_pos (Nat.le_add_right _ _), drop?_bytes, Nat.add_sub_cancel_left]
  exact take?_bytes ds es

theorem cut?_prefix (cs ds : List Char) : cut? (cs ++ ds) ⟨0, bytes cs⟩ = some cs := by
  have h : cut? ([] ++ (cs ++ ds)) ⟨0, bytes cs⟩ = some cs :=
    cut?_append rfl (Nat.zero_add _).symm
  rwa [List.nil_append] at h

theorem cut?_suffix (cs ds : List Char) :
    cut? (cs ++ ds) ⟨bytes cs, bytes (cs ++ ds)⟩ = some ds := by
  have h : cut? (cs ++ (ds ++ [])) ⟨bytes cs, bytes (cs ++ ds)⟩ = some ds :=
    cut?_append rfl (bytes_append cs ds)
  rwa [List.append_nil] at h

/-! ## Lines -/

theorem ne_newline {cs : List Char} (h : '\n' ∉ cs) : ∀ c ∈ cs, decide (c ≠ '\n') = true :=
  fun _ hc => decide_eq_true fun heq => h (heq ▸ hc)

/-- A line ends where its newline stands. -/
theorem newline?_append {cs : List Char} (h : '\n' ∉ cs) (ds : List Char) :
    newline? (cs ++ '\n' :: ds) = some (bytes cs) := by
  rw [newline?, if_pos (by simp), List.takeWhile_append_of_pos (ne_newline h)]
  simp

theorem newline?_of_not_mem {cs : List Char} (h : '\n' ∉ cs) : newline? cs = none := by
  rw [newline?, if_neg (by simpa using h)]

/-- A line starts behind the newline before it. -/
theorem lastNewline?_append (cs : List Char) {ds : List Char} (h : '\n' ∉ ds) :
    lastNewline? (cs ++ '\n' :: ds) = some (bytes cs) := by
  have hds : ∀ c ∈ ds.reverse, decide (c ≠ '\n') = true :=
    ne_newline fun hmem => h (List.mem_reverse.mp hmem)
  rw [lastNewline?, List.reverse_append, List.reverse_cons, List.append_assoc,
    List.dropWhile_append_of_pos hds]
  simp

theorem lastNewline?_of_not_mem {cs : List Char} (h : '\n' ∉ cs) : lastNewline? cs = none := by
  have hcs : ∀ c ∈ cs.reverse, decide (c ≠ '\n') = true :=
    ne_newline fun hmem => h (List.mem_reverse.mp hmem)
  rw [lastNewline?, List.dropWhile_eq_nil_iff.mpr hcs]

/-- A text is one line, or a line with a newline and a text behind it. -/
@[elab_as_elim]
theorem lines_induction {motive : List Char → Prop} (last : ∀ cs, '\n' ∉ cs → motive cs)
    (line : ∀ cs rest, '\n' ∉ cs → motive rest → motive (cs ++ '\n' :: rest))
    (text : List Char) : motive text := by
  by_cases h : '\n' ∈ text
  · obtain ⟨cs, rest, htext, hcs⟩ := List.eq_append_cons_of_mem h
    exact htext ▸ line cs rest hcs (lines_induction last line rest)
  · exact last text h
termination_by text.length
decreasing_by
  rw [htext, List.length_append, List.length_cons]
  omega

end Transclusion.Text
