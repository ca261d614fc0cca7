import Mathlib.Data.List.Basic
import Transclusion.Proofs.FilePath

/-!
# Paths seen from a directory

Names that lead from a directory to something are what the path of that thing is, seen from the
directory. Continuing a directory by such a path is going down along the names again.

* `FilePath.exists_parts_descend` — the parts of a path that names lead to;
* `FilePath.relativeTo_descend` — the path seen from the directory is the names, with slashes
  between;
* `FilePath.join_ofParts` — what continues a directory by it.
-/

namespace Transclusion.FilePath

open Key (IsName)

variable {names : List String}

theorem ne_empty_of_isName {name : String} (h : IsName name.toList) : name ≠ "" := by
  rintro rfl
  exact h.1 rfl

/-! ## Parts -/

/-- In front of the slash that an absolute path starts with there is nothing. -/
theorem exists_parts_of_isAbsolute {path : String} (h : isAbsolute path = true) :
    ∃ rest, parts path = "" :: rest := by
  obtain ⟨cs, hcs⟩ := List.head?_eq_some_iff.mp (of_decide_eq_true h)
  exact ⟨(Text.fields '/' cs).map String.ofList, by rw [parts, hcs]; rfl⟩

/-- The parts of a path end in the names that lead to it. In the directory only empty parts may
stand in their place. -/
theorem exists_parts_descend (hne : names ≠ []) (h : ∀ name ∈ names, IsName name.toList)
    (directory : String) :
    ∃ front rest, parts directory = front ++ rest ∧ (∀ part ∈ rest, part = "") ∧
      parts (descend directory names) = front ++ names := by
  induction names using List.reverseRecOn with
  | nil => exact absurd rfl hne
  | append_singleton names name ih =>
    obtain ⟨hnames, hname⟩ := List.forall_mem_append.mp h
    have hslash : '/' ∉ name.toList := (hname name List.mem_cons_self).2.2.2
    obtain ⟨front, rest, hparts, hrest, hjoin⟩ :=
      exists_parts_join hslash (descend directory names)
    rw [descend_concat]
    by_cases hnil : names = []
    · subst hnil
      exact ⟨front, rest, hparts, hrest, hjoin⟩
    · obtain ⟨before, others, hdirectory, hothers, hdescend⟩ := ih hnil hnames
      -- the path so far ends in a name, so nothing of it is replaced
      rcases List.eq_nil_or_concat' rest with rfl | ⟨rest, last, rfl⟩
      · rw [List.append_nil, hdescend] at hparts
        exact ⟨before, others, hdirectory, hothers, by rw [hjoin, ← hparts, List.append_assoc]⟩
      · obtain ⟨names, final, rfl⟩ := (List.eq_nil_or_concat' names).resolve_left hnil
        rw [hdescend, ← List.append_assoc, ← List.append_assoc] at hparts
        have hlast := (List.cons.inj (List.append_inj' hparts rfl).2).1
        have hempty : final = "" := hlast.trans (hrest last (by simp))
        exact absurd hempty (ne_empty_of_isName (hnames final (by simp)))

/-- A path that names lead to does not end in a slash. -/
theorem not_slashed_descend (hne : names ≠ []) (h : ∀ name ∈ names, IsName name.toList)
    (directory : String) :
    descend directory names ≠ "" ∧ (descend directory names).toList.getLast? ≠ some '/' := by
  obtain ⟨front, -, -, -, hdescend⟩ := exists_parts_descend hne h directory
  obtain ⟨names, name, rfl⟩ := (List.eq_nil_or_concat' names).resolve_left hne
  have hname : name ≠ "" := ne_empty_of_isName (h name (by simp))
  -- otherwise the last part of it would be empty
  have hends : ∀ all, parts (descend directory (names ++ [name])) ≠ all ++ [""] := by
    intro all hparts
    rw [hdescend, ← List.append_assoc] at hparts
    exact hname (List.cons.inj (List.append_inj' hparts rfl).2).1
  constructor
  · intro hempty
    exact hends [] (by rw [hempty]; rfl)
  · intro hslash
    obtain ⟨cs, hcs⟩ := List.getLast?_eq_some_iff.mp hslash
    refine hends ((Text.fields '/' cs).map String.ofList) ?_
    rw [parts, hcs, Text.fields_append_cons, List.map_append]
    rfl

/-! ## Joined names -/

theorem toList_ofParts (names : List String) :
    (ofParts names).toList = Text.unite ['/'] (names.map String.toList) :=
  String.toList_ofList

theorem parts_ofParts {all : List String} (hne : all ≠ [])
    (h : ∀ part ∈ all, '/' ∉ part.toList) : parts (ofParts all) = all := by
  have hslash : ∀ part ∈ all.map String.toList, '/' ∉ part := by
    intro part hpart
    obtain ⟨name, hname, rfl⟩ := List.mem_map.mp hpart
    exact h name hname
  rw [parts, toList_ofParts, Text.fields_unite (by simpa using hne) hslash, List.map_map]
  simp [Function.comp_def]

theorem parts_ofParts_of_isName (hne : names ≠ []) (h : ∀ name ∈ names, IsName name.toList) :
    parts (ofParts names) = names :=
  parts_ofParts hne fun name hname => (h name hname).2.2.2

theorem isAbsolute_ofParts (hne : names ≠ []) (h : ∀ name ∈ names, IsName name.toList) :
    isAbsolute (ofParts names) = false := by
  rw [← Bool.not_eq_true]
  intro habsolute
  obtain ⟨rest, hparts⟩ := exists_parts_of_isAbsolute habsolute
  rw [parts_ofParts_of_isName hne h] at hparts
  exact ne_empty_of_isName (h "" (hparts ▸ List.mem_cons_self)) rfl

theorem ofParts_concat (hne : names ≠ []) (name : String) :
    ofParts (names ++ [name]) = ofParts names ++ ("/" ++ name) := by
  have hne' : names.map String.toList ≠ [] := by simpa using hne
  rw [← String.toList_inj, toList_ofParts, List.map_append,
    Text.unite_append ['/'] hne' (by simp), String.toList_append, toList_ofParts]
  simp [Text.unite]

theorem join_append {middle : String} (hempty : middle ≠ "") (hrelative : isAbsolute middle = false)
    (left more : String) : join left (middle ++ more) = join left middle ++ more := by
  rw [join, join, isAbsolute_append hempty, hrelative]
  simp only [Bool.false_eq_true, if_false]
  split <;> simp only [String.append_assoc]

theorem join_of_not_slashed {left right : String} (hrelative : isAbsolute right = false)
    (hempty : left ≠ "") (hslash : left.toList.getLast? ≠ some '/') :
    join left right = left ++ ("/" ++ right) := by
  rw [join, hrelative]
  simp [hempty, hslash, String.append_assoc]

/-- To continue a directory by joined names is to go down along them. -/
theorem join_ofParts (hne : names ≠ []) (h : ∀ name ∈ names, IsName name.toList)
    (directory : String) : join directory (ofParts names) = descend directory names := by
  induction names using List.reverseRecOn with
  | nil => exact absurd rfl hne
  | append_singleton names name ih =>
    obtain ⟨hnames, hname⟩ := List.forall_mem_append.mp h
    by_cases hnil : names = []
    · subst hnil
      rw [List.nil_append, ofParts, List.map_singleton, Text.unite, String.ofList_toList]
      rfl
    · obtain ⟨hempty, hslash⟩ := not_slashed_descend hnil hnames directory
      have hrelative : isAbsolute name = false :=
        isAbsolute_of_not_mem (hname name List.mem_cons_self).2.2.2
      have hall : ofParts names ≠ "" := by
        intro hempty
        have hparts := parts_ofParts_of_isName hnil hnames
        rw [hempty] at hparts
        exact ne_empty_of_isName (hnames "" (hparts ▸ List.mem_cons_self)) rfl
      calc join directory (ofParts (names ++ [name]))
          = join directory (ofParts names ++ ("/" ++ name)) := by rw [ofParts_concat hnil]
        _ = join directory (ofParts names) ++ ("/" ++ name) :=
            join_append hall (isAbsolute_ofParts hnil hnames) directory _
        _ = descend directory names ++ ("/" ++ name) := by rw [ih hnil hnames]
        _ = join (descend directory names) name :=
            (join_of_not_slashed hrelative hempty hslash).symm
        _ = descend directory (names ++ [name]) := (descend_concat directory names name).symm

theorem isAbsolute_descend (h : ∀ name ∈ names, IsName name.toList) (directory : String) :
    isAbsolute (descend directory names) = isAbsolute directory := by
  induction names using List.reverseRecOn with
  | nil => rfl
  | append_singleton names name ih =>
    obtain ⟨hnames, hname⟩ := List.forall_mem_append.mp h
    rw [descend_concat, isAbsolute_join (hname name List.mem_cons_self).2.2.2, ih hnames]

/-! ## Back to the names -/

/-- What is dropped with the components of some parts is those parts, up to idle ones at the end. -/
theorem exists_dropComponents {n : Nat} {front : List String}
    (h : (front.filter (!isIdle ·)).length = n) (back : List String) :
    ∃ idle, (∀ part ∈ idle, isIdle part = true) ∧
      dropComponents n false (front ++ back) = idle ++ back := by
  induction front generalizing n with
  | nil =>
    obtain rfl : 0 = n := h
    exact ⟨[], by simp, by rw [dropComponents]⟩
  | cons part front ih =>
    by_cases hidle : isIdle part = true
    · rw [List.filter_cons_of_neg (by simp [hidle])] at h
      cases n with
      | zero =>
        refine ⟨part :: front, List.forall_mem_cons.mpr ⟨hidle, fun other hother => ?_⟩,
          by rw [dropComponents]⟩
        simpa using List.filter_eq_nil_iff.mp (List.length_eq_zero_iff.mp h) other hother
      | succ n =>
        have hcond : (part = "" || (part = "." && !false)) = true := by simpa [isIdle] using hidle
        rw [List.cons_append, dropComponents, if_pos hcond]
        exact ih h
    · rw [List.filter_cons_of_pos (by simp [hidle]), List.length_cons] at h
      have hcond : ¬ (part = "" || (part = "." && !false)) = true := by simpa [isIdle] using hidle
      rw [← h, List.cons_append, dropComponents, if_neg hcond]
      exact ih rfl

/-- The same, where a point at the start is a component. -/
theorem exists_dropComponents_first {n : Nat} {front : List String}
    (h : (componentParts front).length = n) (back : List String) :
    ∃ idle, (∀ part ∈ idle, isIdle part = true) ∧
      dropComponents n true (front ++ back) = idle ++ back := by
  cases front with
  | nil =>
    obtain rfl : 0 = n := h
    exact ⟨[], by simp, by rw [dropComponents]⟩
  | cons part front =>
    by_cases hpoint : part = "."
    · subst hpoint
      rw [componentParts, List.length_cons] at h
      rw [← h, List.cons_append, dropComponents, if_neg (by decide)]
      exact exists_dropComponents rfl back
    · have hsame : dropComponents n true (part :: front ++ back) =
          dropComponents n false (part :: front ++ back) := by
        cases n <;> simp [dropComponents, hpoint]
      rw [componentParts_of_head? (by simpa using hpoint)] at h
      rw [hsame]
      exact exists_dropComponents h back

theorem dropWhile_isIdle (h : ∀ name ∈ names, isIdle name = false) :
    names.dropWhile isIdle = names := by
  cases names with
  | nil => rfl
  | cons name names => simp [h name List.mem_cons_self]

theorem dropIdleEnd_eq (h : ∀ name ∈ names, isIdle name = false) : dropIdleEnd names = names := by
  rw [dropIdleEnd, dropWhile_isIdle fun name hname => h name (List.mem_reverse.mp hname),
    List.reverse_reverse]

/-- Only the empty path has no components. -/
theorem components_ne_nil {path : String} (h : path ≠ "") : components path ≠ [] := by
  obtain ⟨c, cs, hcs⟩ := List.exists_cons_of_ne_nil (show path.toList ≠ [] by simpa using h)
  rw [components]
  split
  · exact List.cons_ne_nil _ _
  · next hrelative =>
    have hslash : c ≠ '/' := by
      rintro rfl
      exact hrelative (decide_eq_true (by rw [hcs]; rfl))
    -- the first part holds the first character
    obtain ⟨part, rest, hparts, hpart⟩ : ∃ part rest, parts path = part :: rest ∧ part ≠ "" := by
      obtain ⟨first, others, hfields⟩ := List.exists_cons_of_ne_nil (Text.fields_ne_nil '/' cs)
      refine ⟨String.ofList (c :: first), others.map String.ofList, ?_, by simp⟩
      rw [parts, hcs, Text.fields, if_neg hslash, hfields]
      rfl
    rw [hparts]
    by_cases hpoint : part = "."
    · rw [hpoint, componentParts]
      exact List.cons_ne_nil _ _
    · rw [componentParts_of_head? (by simpa using hpoint),
        List.filter_cons_of_pos (by simp [isIdle, hpart, hpoint])]
      exact List.cons_ne_nil _ _

/-- Empty parts at the end of a path are no components. -/
theorem componentParts_append {rest : List String} (hrest : ∀ part ∈ rest, part = "")
    (front : List String) : componentParts (front ++ rest) = componentParts front := by
  have hempty := filter_isIdle_of_empty hrest
  cases front with
  | nil =>
    have hhead : rest.head? ≠ some "." := fun hhead =>
      absurd (hrest "." (List.mem_of_head? hhead)) (by decide)
    rw [List.nil_append, componentParts_of_head? hhead, hempty]
    rfl
  | cons part front =>
    by_cases hpoint : part = "."
    · subst hpoint
      simp [componentParts, hempty]
    · have hhead : ∀ all : List String, (part :: all).head? ≠ some "." := by simpa using hpoint
      rw [List.cons_append, componentParts_of_head? (hhead _), componentParts_of_head? (hhead _),
        ← List.cons_append, List.filter_append, hempty, List.append_nil]

/-- Seen from the directory, the path that names lead to is these names. -/
theorem relativeTo_descend (hne : names ≠ []) (h : ∀ name ∈ names, IsName name.toList)
    (directory : String) : relativeTo directory (descend directory names) = ofParts names := by
  have hprefix : (components directory).isPrefixOf (components (descend directory names)) := by
    rw [components_descend h, List.isPrefixOf_iff_prefix]
    exact List.prefix_append _ _
  have hidle : ∀ name ∈ names, isIdle name = false := fun name hname =>
    isIdle_of_isName (h name hname)
  obtain ⟨front, rest, hdirectory, hrest, hdescend⟩ := exists_parts_descend hne h directory
  have hdropped : ∀ idle : List String, (∀ part ∈ idle, isIdle part = true) →
      dropIdleEnd ((idle ++ names).dropWhile isIdle) = names := by
    intro idle hall
    rw [List.dropWhile_append_of_pos hall, dropWhile_isIdle hidle, dropIdleEnd_eq hidle]
  rw [relativeTo, relativeTo?, if_pos hprefix]
  by_cases hempty : directory = ""
  · subst hempty
    have hjoin : descend "" names = ofParts names := by
      rw [← join_ofParts hne h, join, isAbsolute_ofParts hne h]
      simp
    rw [if_pos (by decide), hjoin, parts_ofParts_of_isName hne h, dropIdleEnd_eq hidle]
    rfl
  rw [if_neg (components_ne_nil hempty), isAbsolute_descend h, hdescend]
  by_cases habsolute : isAbsolute directory = true
  · -- the root is a component, but no part
    obtain ⟨front, rfl⟩ : ∃ front', front = "" :: front' := by
      obtain ⟨others, hothers⟩ :=
        exists_parts_of_isAbsolute ((isAbsolute_descend h directory).trans habsolute)
      rw [hdescend] at hothers
      cases front with
      | nil => exact absurd rfl (ne_empty_of_isName (h "" (by simp [show names = _ from hothers])))
      | cons part front => exact ⟨front, by rw [(List.cons.inj hothers).1]⟩
    have hlength : (front.filter (!isIdle ·)).length = (components directory).length - 1 := by
      rw [components, if_pos habsolute, hdirectory, List.filter_append,
        filter_isIdle_of_empty hrest]
      simp [isIdle]
    obtain ⟨idle, hall, hdrop⟩ := exists_dropComponents hlength names
    simp only [habsolute, if_true, Bool.not_true, List.cons_append, List.drop_one, List.tail_cons,
      hdrop, hdropped idle hall]
    rfl
  · have hlength : (componentParts front).length = (components directory).length := by
      rw [components, if_neg habsolute, hdirectory, componentParts_append hrest]
    obtain ⟨idle, hall, hdrop⟩ := exists_dropComponents_first hlength names
    simp only [habsolute, Bool.not_false, if_false, Bool.false_eq_true, hdrop, hdropped idle hall]
    rfl

end Transclusion.FilePath
