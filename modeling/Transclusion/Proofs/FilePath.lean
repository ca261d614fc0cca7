import Mathlib.Data.List.Induction
import Transclusion.FilePath
import Transclusion.Key

/-!
# Paths below a directory

A name behind a path is one more step, so different names lead to different paths.

* `FilePath.components_join` — the steps of a path continued by a name;
* `FilePath.descend` — the path that some names lead to from a directory;
* `FilePath.descend_inj` — other names lead to another path.
-/

namespace Transclusion.FilePath

variable {name path directory : String}

/-! ## One name -/

theorem isAbsolute_of_not_mem (h : '/' ∉ name.toList) : isAbsolute name = false := by
  rw [isAbsolute, decide_eq_false_iff_not]
  intro hhead
  exact h (List.mem_of_head? hhead)

theorem isAbsolute_append (h : path ≠ "") (more : String) :
    isAbsolute (path ++ more) = isAbsolute path := by
  have hne : path.toList ≠ [] := by simpa using h
  obtain ⟨c, cs, hcs⟩ := List.exists_cons_of_ne_nil hne
  simp [isAbsolute, hcs]

theorem isAbsolute_join (h : '/' ∉ name.toList) (path : String) :
    isAbsolute (join path name) = isAbsolute path := by
  rw [join, isAbsolute_of_not_mem h, if_neg Bool.false_ne_true]
  by_cases hempty : path = ""
  · subst hempty
    simpa [isAbsolute] using isAbsolute_of_not_mem h
  · split
    · exact isAbsolute_append hempty name
    · rw [isAbsolute_append (by simp [hempty]), isAbsolute_append hempty]

/-- A name behind a path stands in place of the empty part at its end, or behind its last part. -/
theorem exists_parts_join (h : '/' ∉ name.toList) (path : String) :
    ∃ front rest, parts path = front ++ rest ∧ (∀ part ∈ rest, part = "") ∧
      parts (join path name) = front ++ [name] := by
  have hfields : Text.fields '/' name.toList = [name.toList] := Text.fields_of_not_mem h
  rw [join, isAbsolute_of_not_mem h, if_neg Bool.false_ne_true]
  by_cases hempty : path = ""
  · subst hempty
    exact ⟨[], [""], rfl, by simp, by simp [parts, hfields]⟩
  · by_cases hslash : path.toList.getLast? = some '/'
    · obtain ⟨cs, hcs⟩ := List.getLast?_eq_some_iff.mp hslash
      refine ⟨(Text.fields '/' cs).map String.ofList, [""], ?_, by simp, ?_⟩
      · rw [parts, hcs, Text.fields_append_cons]
        simp [Text.fields]
      · simp [parts, hcs, Text.fields_append_cons, hfields]
    · refine ⟨parts path, [], by simp, by simp, ?_⟩
      simp [hempty, hslash, parts, Text.fields_append_cons, hfields]

theorem isIdle_of_isName (h : Key.IsName name.toList) : isIdle name = false := by
  obtain ⟨hne, hdot, -, -⟩ := h
  have hempty : name ≠ "" := by simpa using hne
  have hpoint : name ≠ "." := by
    rintro rfl
    exact hdot rfl
  simp [isIdle, hempty, hpoint]

theorem filter_isIdle_of_empty {rest : List String} (h : ∀ part ∈ rest, part = "") :
    rest.filter (!isIdle ·) = [] := by
  rw [List.filter_eq_nil_iff]
  intro part hpart
  rw [h part hpart]
  decide

theorem componentParts_of_head? {all : List String} (h : all.head? ≠ some ".") :
    componentParts all = all.filter (!isIdle ·) := by
  unfold componentParts
  split
  · exact absurd rfl h
  · rfl

theorem componentParts_append_name (hname : Key.IsName name.toList) {front rest : List String}
    (hrest : ∀ part ∈ rest, part = "") :
    componentParts (front ++ [name]) = componentParts (front ++ rest) ++ [name] := by
  have hidle := isIdle_of_isName hname
  have hempty := filter_isIdle_of_empty hrest
  cases front with
  | nil =>
    have hpoint : name ≠ "." := by
      rintro rfl
      exact hname.2.1 rfl
    have hhead : rest.head? ≠ some "." := by
      intro hhead
      exact absurd (hrest "." (List.mem_of_head? hhead)) (by decide)
    rw [List.nil_append, List.nil_append, componentParts_of_head? (by simpa using hpoint),
      componentParts_of_head? hhead, hempty]
    simp [hidle]
  | cons part front =>
    by_cases hpart : part = "."
    · subst hpart
      simp [componentParts, hidle, hempty]
    · rw [componentParts_of_head? (by simpa using hpart),
        componentParts_of_head? (by simpa using hpart), List.filter_append, List.filter_append,
        hempty]
      simp [hidle]

/-- A name behind a path is one more step. -/
theorem components_join (hname : Key.IsName name.toList) (path : String) :
    components (join path name) = components path ++ [name] := by
  have hslash : '/' ∉ name.toList := hname.2.2.2
  obtain ⟨front, rest, hparts, hrest, hjoin⟩ := exists_parts_join hslash path
  rw [components, components, isAbsolute_join hslash, hjoin, hparts]
  split
  · simp [isIdle_of_isName hname, filter_isIdle_of_empty hrest]
  · exact componentParts_append_name hname hrest

/-! ## Rows of names -/

/-- The path that some names lead to from a directory, one below the other. -/
def descend (directory : String) (names : List String) : String :=
  names.foldl join directory

@[simp] theorem descend_nil (directory : String) : descend directory [] = directory := rfl

@[simp] theorem descend_concat (directory : String) (names : List String) (name : String) :
    descend directory (names ++ [name]) = join (descend directory names) name := by
  rw [descend, List.foldl_append]
  rfl

theorem components_descend {names : List String} (h : ∀ name ∈ names, Key.IsName name.toList)
    (directory : String) :
    components (descend directory names) = components directory ++ names := by
  induction names using List.reverseRecOn with
  | nil => simp
  | append_singleton names name ih =>
    obtain ⟨hnames, hname⟩ := List.forall_mem_append.mp h
    rw [descend_concat, components_join (hname name List.mem_cons_self), ih hnames,
      List.append_assoc]

/-- Other names lead to another path. -/
theorem descend_inj {names names' : List String} (h : ∀ name ∈ names, Key.IsName name.toList)
    (h' : ∀ name ∈ names', Key.IsName name.toList)
    (heq : descend directory names = descend directory names') : names = names' := by
  have hsteps := components_descend h directory
  rw [heq, components_descend h'] at hsteps
  exact (List.append_cancel_left hsteps).symm

end Transclusion.FilePath
