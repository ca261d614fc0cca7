/-!
# Separated fields

Splitting a text, or any other list, at a separator and joining it again.

* `fields sep cs` — the parts of `cs` between the separators, always at least one;
* `unite sep parts` — the parts with a separator between neighbours;
* `unite_fields`, `fields_unite` — joining what was split gives the text back, and splitting what
  was joined the parts;
* `fields_append_cons`, `fields_append`, `fields_append_fields` — the parts before and behind one
  separator, and of a text with more behind it;
* `length_fields` — how many parts there are;
* `unite_append`, `flatMap_append_sep` — joining in two rows, and with a separator at the end.
-/

namespace Transclusion.Text

variable {α : Type} [DecidableEq α]

/-- The parts of a text between its separators. A text without a separator is one part, so the
empty text has one empty part. -/
def fields (sep : α) : List α → List (List α)
  | [] => [[]]
  | c :: cs =>
      if c = sep then [] :: fields sep cs
      else
        match fields sep cs with
        | [] => [[c]]
        | part :: parts => (c :: part) :: parts

/-- The parts in order with a separator between neighbours. -/
def unite {α : Type} (sep : List α) : List (List α) → List α
  | [] => []
  | [part] => part
  | part :: next :: parts => part ++ sep ++ unite sep (next :: parts)

theorem fields_ne_nil (sep : α) (cs : List α) : fields sep cs ≠ [] := by
  cases cs with
  | nil => simp [fields]
  | cons c cs =>
    rw [fields]
    split
    · simp
    · split <;> simp

/-- Joining the parts of a text gives the text back. -/
theorem unite_fields (sep : α) (cs : List α) : unite [sep] (fields sep cs) = cs := by
  induction cs with
  | nil => rfl
  | cons c cs ih =>
    rw [fields]
    split
    · next h =>
      match hf : fields sep cs with
      | [] => exact absurd hf (fields_ne_nil sep cs)
      | part :: parts => rw [hf] at ih; simp [unite, ih, h]
    · match hf : fields sep cs with
      | [] => exact absurd hf (fields_ne_nil sep cs)
      | [part] => rw [hf] at ih; simp [unite] at ih ⊢; exact ih
      | part :: next :: parts => rw [hf] at ih; simp [unite] at ih ⊢; exact ih

theorem unite_append {α : Type} (sep : List α) {parts others : List (List α)} (hparts : parts ≠ [])
    (hothers : others ≠ []) :
    unite sep (parts ++ others) = unite sep parts ++ sep ++ unite sep others := by
  fun_induction unite sep parts with
  | case1 => exact absurd rfl hparts
  | case2 part =>
    obtain ⟨next, others, rfl⟩ := List.exists_cons_of_ne_nil hothers
    rfl
  | case3 part next parts ih =>
    simp only [List.cons_append, unite, List.append_assoc] at ih ⊢
    rw [ih (List.cons_ne_nil _ _)]

/-- What is written behind joined parts belongs to the last of them. -/
theorem unite_concat_append {α : Type} (sep : List α) (parts : List (List α)) (last more : List α) :
    unite sep (parts ++ [last]) ++ more = unite sep (parts ++ [last ++ more]) := by
  by_cases h : parts = []
  · subst h
    rfl
  · rw [unite_append sep h (List.cons_ne_nil _ _), unite_append sep h (List.cons_ne_nil _ _)]
    simp [unite]

/-- A further part makes the text longer by at least its own length. -/
theorem length_unite_concat {α : Type} (sep : List α) (parts : List (List α)) (last : List α) :
    (unite sep parts).length + last.length ≤ (unite sep (parts ++ [last])).length := by
  by_cases h : parts = []
  · subst h
    simp [unite]
  · rw [unite_append sep h (List.cons_ne_nil _ _)]
    simp only [unite, List.length_append]
    omega

/-- Parts that each end in the separator are the joined text and one more separator. -/
theorem flatMap_append_sep {α : Type} (sep : List α) {parts : List (List α)} (h : parts ≠ []) :
    parts.flatMap (· ++ sep) = unite sep parts ++ sep := by
  fun_induction unite sep parts with
  | case1 => exact absurd rfl h
  | case2 part => simp
  | case3 part next parts ih => simp [ih (List.cons_ne_nil _ _)]

/-- No part holds the separator. -/
theorem not_mem_of_mem_fields {sep : α} {cs part : List α} (h : part ∈ fields sep cs) :
    sep ∉ part := by
  induction cs generalizing part with
  | nil => simp [fields] at h; simp [h]
  | cons c cs ih =>
    rw [fields] at h
    split at h
    · rcases List.mem_cons.mp h with rfl | h
      · simp
      · exact ih h
    · next hc =>
      match hf : fields sep cs with
      | [] => exact absurd hf (fields_ne_nil sep cs)
      | first :: parts =>
        rw [hf] at h ih
        rcases List.mem_cons.mp h with rfl | h
        · have := @ih first (by simp)
          simp [this, Ne.symm hc]
        · exact ih (List.mem_cons_of_mem _ h)

/-- The parts of a text are those before and those behind any of its separators. -/
theorem fields_append_cons (sep : α) (cs ds : List α) :
    fields sep (cs ++ sep :: ds) = fields sep cs ++ fields sep ds := by
  induction cs with
  | nil => simp [fields]
  | cons c cs ih =>
    rw [List.cons_append, fields, fields, ih]
    split
    · rfl
    · match hf : fields sep cs with
      | [] => exact absurd hf (fields_ne_nil sep cs)
      | part :: parts => rfl

/-- A text without the separator is one part. -/
theorem fields_of_not_mem {sep : α} {cs : List α} (h : sep ∉ cs) : fields sep cs = [cs] := by
  induction cs with
  | nil => rfl
  | cons c cs ih =>
    rw [List.mem_cons, not_or] at h
    obtain ⟨hc, hcs⟩ := h
    rw [fields, if_neg (Ne.symm hc), ih hcs]

/-- Splitting what was joined gives the parts back. -/
theorem fields_unite {sep : α} {parts : List (List α)} (hne : parts ≠ [])
    (h : ∀ part ∈ parts, sep ∉ part) : fields sep (unite [sep] parts) = parts := by
  fun_induction unite [sep] parts with
  | case1 => exact absurd rfl hne
  | case2 part => exact fields_of_not_mem (h part List.mem_cons_self)
  | case3 part next parts ih =>
    obtain ⟨hpart, hothers⟩ := List.forall_mem_cons.mp h
    rw [List.append_assoc, List.singleton_append, fields_append_cons, fields_of_not_mem hpart,
      ih (List.cons_ne_nil _ _) hothers]
    rfl

/-- What is written behind a text, without a separator, belongs to its last part. -/
theorem fields_append {sep : α} {cs ds last : List α} {front : List (List α)}
    (h : fields sep cs = front ++ [last]) (hds : sep ∉ ds) :
    fields sep (cs ++ ds) = front ++ [last ++ ds] := by
  have hparts : ∀ part ∈ front ++ [last], sep ∉ part := fun part hpart =>
    not_mem_of_mem_fields (h ▸ hpart)
  obtain ⟨hfront, hlast⟩ := List.forall_mem_append.mp hparts
  have hcs : cs = unite [sep] (front ++ [last]) := by rw [← h, unite_fields]
  rw [hcs, unite_concat_append]
  refine fields_unite (by simp) (List.forall_mem_append.mpr ⟨hfront, ?_⟩)
  simpa [hds] using hlast

/-- Where two texts meet, the last part of the one and the first part of the other are one part. -/
theorem fields_append_fields {sep : α} {cs ds last first : List α} {front back : List (List α)}
    (hcs : fields sep cs = front ++ [last]) (hds : fields sep ds = first :: back) :
    fields sep (cs ++ ds) = front ++ (last ++ first) :: back := by
  have hparts : ∀ part ∈ first :: back, sep ∉ part := fun part hpart =>
    not_mem_of_mem_fields (hds ▸ hpart)
  obtain ⟨hfirst, hback⟩ := List.forall_mem_cons.mp hparts
  have hunite : ds = unite [sep] (first :: back) := by rw [← hds, unite_fields]
  cases back with
  | nil =>
    rw [hunite]
    exact fields_append hcs hfirst
  | cons next back =>
    have hcut : cs ++ ds = (cs ++ first) ++ sep :: unite [sep] (next :: back) := by
      simp [hunite, unite]
    rw [hcut, fields_append_cons, fields_append hcs hfirst,
      fields_unite (List.cons_ne_nil _ _) hback]
    simp

/-- There is one part more than there are separators. -/
theorem length_fields (sep : α) (cs : List α) : (fields sep cs).length = cs.count sep + 1 := by
  induction cs with
  | nil => rfl
  | cons c cs ih =>
    rw [fields, List.count_cons]
    split
    · next hc => simp [ih, hc]
    · next hc =>
      split
      · next hnil => exact absurd hnil (fields_ne_nil sep cs)
      · next part parts hparts =>
        rw [hparts] at ih
        simpa [hc] using ih

end Transclusion.Text
