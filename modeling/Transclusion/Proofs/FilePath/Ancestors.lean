import Transclusion.Proofs.FilePath.Relative

/-!
# The directories above a path

The steps of a path, written as a path again, and the list of the directories above one: these are
the starts of its steps, from the longest to the shortest.

* `FilePath.ofSteps`, `FilePath.partsOf` — the text of some steps, and its parts;
* `FilePath.Thins` — parts without some of the idle ones; `FilePath.thins_components` — what the
  steps of a path are;
* `FilePath.ancestorsFrom_concat`, `FilePath.ancestors_parent_descend` — the directories above what
  names lead to.
-/

namespace Transclusion.FilePath

open Key (IsName)

variable {path directory name : String} {steps names few all : List String}

theorem not_slash_of_mem_parts {part : String} (h : part ∈ parts path) : '/' ∉ part.toList := by
  obtain ⟨cs, hcs, rfl⟩ := List.mem_map.mp h
  rw [String.toList_ofList]
  exact Text.not_mem_of_mem_fields hcs

theorem ofParts_parts (path : String) : ofParts (parts path) = path := by
  rw [← String.toList_inj, toList_ofParts, parts, List.map_map]
  simp [Function.comp_def, Text.unite_fields]

/-! ## Steps as texts -/

/-- The parts of the text of some steps. -/
def partsOf : List String → List String
  | "/" :: steps => "" :: steps
  | steps => steps

/-- The text of some steps. -/
def ofSteps (steps : List String) : String :=
  ofParts (partsOf steps)

theorem partsOf_of_head? (h : steps.head? ≠ some "/") : partsOf steps = steps := by
  unfold partsOf
  split
  · exact absurd rfl h
  · rfl

theorem partsOf_append (hne : steps ≠ []) (more : List String) :
    partsOf (steps ++ more) = partsOf steps ++ more := by
  obtain ⟨first, steps, rfl⟩ := List.exists_cons_of_ne_nil hne
  by_cases hroot : first = "/"
  · subst hroot
    rfl
  · rw [List.cons_append, partsOf_of_head? (by simpa using hroot),
      partsOf_of_head? (by simpa using hroot), List.cons_append]

theorem partsOf_ne_nil (hne : steps ≠ []) : partsOf steps ≠ [] := by
  unfold partsOf
  split
  · exact List.cons_ne_nil _ _
  · exact hne

/-- Parts without some of the idle ones. -/
inductive Thins : List String → List String → Prop
  | nil : Thins [] []
  | keep {few all : List String} (part : String) (rest : Thins few all) :
      Thins (part :: few) (part :: all)
  | drop {few all : List String} {part : String} (idle : isIdle part = true)
      (rest : Thins few all) : Thins few (part :: all)

theorem Thins.sublist (h : Thins few all) : few.Sublist all := by
  induction h with
  | nil => exact .slnil
  | keep part _ ih => exact ih.cons_cons part
  | drop _ _ ih => exact ih.cons _

theorem thins_filter (all : List String) : Thins (all.filter (!isIdle ·)) all := by
  induction all with
  | nil => exact .nil
  | cons part all ih =>
    by_cases hidle : isIdle part = true
    · rw [List.filter_cons_of_neg (by simp [hidle])]
      exact .drop hidle ih
    · rw [List.filter_cons_of_pos (by simp [hidle])]
      exact .keep part ih

theorem thins_append {rest : List String} (hrest : ∀ part ∈ rest, isIdle part = true)
    (front : List String) : Thins front (front ++ rest) := by
  induction front with
  | nil =>
    induction rest with
    | nil => exact .nil
    | cons part rest ih =>
      obtain ⟨hpart, hrest⟩ := List.forall_mem_cons.mp hrest
      exact .drop hpart (ih hrest)
  | cons part front ih => exact .keep part ih

theorem thins_componentParts (all : List String) : Thins (componentParts all) all := by
  unfold componentParts
  split
  · exact .keep _ (thins_filter _)
  · exact thins_filter all

/-- Where the steps of a path begin, it is written from the root or not. -/
theorem partsOf_components (path : String) :
    (isAbsolute path = true ∧ ∃ rest, parts path = "" :: rest ∧
      components path = "/" :: rest.filter (!isIdle ·) ∧
      partsOf (components path) = "" :: rest.filter (!isIdle ·)) ∨
    (isAbsolute path = false ∧ components path = componentParts (parts path) ∧
      partsOf (components path) = componentParts (parts path)) := by
  by_cases habsolute : isAbsolute path = true
  · obtain ⟨rest, hrest⟩ := exists_parts_of_isAbsolute habsolute
    have hcomponents : components path = "/" :: rest.filter (!isIdle ·) := by
      rw [components, if_pos habsolute, hrest, List.filter_cons_of_neg (by decide)]
    exact .inl ⟨habsolute, rest, hrest, hcomponents, by rw [hcomponents, partsOf]⟩
  · have hcomponents : components path = componentParts (parts path) := by
      rw [components, if_neg habsolute]
    refine .inr ⟨by simpa using habsolute, hcomponents, ?_⟩
    rw [hcomponents, partsOf_of_head?]
    -- no part of a path is a slash
    intro hhead
    have hmem := (thins_componentParts _).sublist.subset (List.mem_of_head? hhead)
    exact not_slash_of_mem_parts hmem (by decide)

/-- The steps of a path are its parts without idle ones, but for the first. -/
theorem thins_components (path : String) : Thins (partsOf (components path)) (parts path) := by
  rcases partsOf_components path with ⟨-, rest, hparts, -, heq⟩ | ⟨-, -, heq⟩
  · rw [heq, hparts]
    exact .keep "" (thins_filter rest)
  · rw [heq]
    exact thins_componentParts (parts path)

/-! ## Shorter texts -/

theorem ofParts_cons (part : String) (hne : all ≠ []) :
    ofParts (part :: all) = part ++ ("/" ++ ofParts all) := by
  obtain ⟨first, all, rfl⟩ := List.exists_cons_of_ne_nil hne
  rw [← String.toList_inj, toList_ofParts, String.toList_append, String.toList_append,
    toList_ofParts]
  simp [Text.unite]

theorem utf8ByteSize_ofParts_cons (part : String) (hne : all ≠ []) :
    (ofParts (part :: all)).utf8ByteSize = part.utf8ByteSize + 1 + (ofParts all).utf8ByteSize := by
  rw [ofParts_cons part hne, String.utf8ByteSize_append, String.utf8ByteSize_append, Nat.add_assoc]
  rfl

theorem ofParts_singleton (part : String) : ofParts [part] = part := String.ofList_toList

/-- With fewer parts a path is no longer. -/
theorem utf8ByteSize_ofParts_le (h : few.Sublist all) :
    (ofParts few).utf8ByteSize ≤ (ofParts all).utf8ByteSize := by
  induction h with
  | slnil => exact Nat.zero_le _
  | @cons few all part h ih =>
    by_cases hnil : all = []
    · subst hnil
      rw [List.sublist_nil.mp h]
      exact Nat.zero_le _
    · rw [utf8ByteSize_ofParts_cons part hnil]
      omega
  | @cons_cons few all part h ih =>
    by_cases hnil : all = []
    · subst hnil
      exact Nat.le_of_eq (by rw [List.sublist_nil.mp h])
    · rw [utf8ByteSize_ofParts_cons part hnil]
      by_cases hfew : few = []
      · rw [hfew, ofParts_singleton]
        omega
      · rw [utf8ByteSize_ofParts_cons part hfew]
        omega

theorem mem_ofParts {c : Char} (h : c ∈ (ofParts all).toList) :
    c = '/' ∨ ∃ part ∈ all, c ∈ part.toList := by
  induction all with
  | nil => exact nomatch h
  | cons part all ih =>
    by_cases hnil : all = []
    · rw [hnil, ofParts_singleton] at h
      exact .inr ⟨part, List.mem_cons_self, h⟩
    · rw [ofParts_cons part hnil, String.toList_append, String.toList_append, List.mem_append,
        List.mem_append] at h
      rcases h with h | h | h
      · exact .inr ⟨part, List.mem_cons_self, h⟩
      · exact .inl (List.mem_singleton.mp h)
      · exact (ih h).imp_right fun ⟨other, hother, hc⟩ => ⟨other, List.mem_cons_of_mem _ hother, hc⟩

theorem mem_ofParts_of_mem {part : String} {c : Char} (hpart : part ∈ all)
    (h : c ∈ part.toList) : c ∈ (ofParts all).toList := by
  induction all with
  | nil => exact nomatch hpart
  | cons first all ih =>
    by_cases hnil : all = []
    · subst hnil
      rw [List.mem_singleton.mp hpart] at h
      rwa [ofParts_singleton]
    · rw [ofParts_cons first hnil, String.toList_append, String.toList_append, List.mem_append,
        List.mem_append]
      rcases List.mem_cons.mp hpart with rfl | hpart
      · exact .inl h
      · exact .inr (.inr (ih hpart))

/-! ## The directories above -/

/-- The texts of the starts of some steps. -/
def ancestorsFrom : List String → List String
  | "/" :: steps => (ancestorsOf steps).map fun steps => "/" ++ ofParts steps
  | steps => (ancestorsOf steps).map ofParts

theorem ancestors_eq (path : String) : ancestors path = ancestorsFrom (components path) := rfl

theorem ancestorsOf_concat (steps : List String) (name : String) :
    ancestorsOf (steps ++ [name]) = (steps ++ [name]) :: ancestorsOf steps := by
  have hshort : ∀ n, (steps ++ [name]).take (steps.length - n) = steps.take (steps.length - n) :=
    fun n => List.take_append_of_le_length (Nat.sub_le _ _)
  rw [ancestorsOf, List.length_append, List.length_singleton, List.range_succ_eq_map, List.map_cons,
    List.map_map]
  congr 1
  · exact List.take_of_length_le (by simp)
  · simp only [Function.comp_def, Nat.succ_eq_add_one, Nat.add_sub_add_right, hshort]
    rfl

/-- Nearest first, the directory above the text of some steps is the text of one step less. -/
theorem ancestorsFrom_concat (hname : name ≠ "/") (steps : List String) :
    ancestorsFrom (steps ++ [name]) = ofSteps (steps ++ [name]) :: ancestorsFrom steps := by
  cases steps with
  | nil =>
    rw [List.nil_append, ofSteps, partsOf_of_head? (by simpa using hname)]
    unfold ancestorsFrom
    simp [hname, ancestorsOf]
  | cons first steps =>
    by_cases hroot : first = "/"
    · subst hroot
      have hne : steps ++ [name] ≠ [] := by simp
      rw [List.cons_append, ancestorsFrom, ancestorsFrom, ancestorsOf_concat, List.map_cons,
        ofSteps, partsOf, ofParts_cons "" hne, String.empty_append]
    · have hhead : ∀ all, partsOf (first :: all) = first :: all := fun all =>
        partsOf_of_head? (by simpa using hroot)
      have hfrom : ∀ all,
          ancestorsFrom (first :: all) = (ancestorsOf (first :: all)).map ofParts := by
        intro all
        unfold ancestorsFrom
        split
        · next heq => exact absurd (List.cons.inj heq).1 hroot
        · rfl
      rw [List.cons_append, hfrom, hfrom, ← List.cons_append, ancestorsOf_concat, List.map_cons,
        ofSteps, List.cons_append, hhead]

/-- The first component of a relative path is not empty. -/
theorem componentParts_head?_ne (all : List String) : (componentParts all).head? ≠ some "" := by
  unfold componentParts
  split
  · simp
  · intro hhead
    have hmem := (List.mem_filter.mp (List.mem_of_head? hhead)).2
    exact absurd hmem (by decide)

theorem componentParts_componentParts (all : List String) :
    componentParts (componentParts all) = componentParts all := by
  cases all with
  | nil => rfl
  | cons part all =>
    by_cases hpoint : part = "."
    · subst hpoint
      rw [componentParts, componentParts, List.filter_filter]
      simp only [Bool.and_self]
    · have hkept : componentParts (part :: all) = (part :: all).filter (!isIdle ·) :=
        componentParts_of_head? (by simpa using hpoint)
      rw [hkept, componentParts_of_head?, List.filter_filter]
      · simp only [Bool.and_self]
      · intro hhead
        have hmem := (List.mem_filter.mp (List.mem_of_head? hhead)).2
        exact absurd hmem (by decide)

/-- The text of the first steps of a path has these parts, and starts where the path does. -/
theorem parts_ofParts_of_isPrefix (hstarts : few <+: partsOf (components path)) (hne : few ≠ [])
    (hroot : few ≠ [""]) :
    parts (ofParts few) = few ∧ isAbsolute (ofParts few) = isAbsolute path := by
  have hslash : ∀ part ∈ few, '/' ∉ part.toList := fun part hpart =>
    not_slash_of_mem_parts ((thins_components path).sublist.subset (hstarts.subset hpart))
  refine ⟨parts_ofParts hne hslash, ?_⟩
  obtain ⟨first, few, rfl⟩ := List.exists_cons_of_ne_nil hne
  obtain ⟨more, hmore⟩ := hstarts
  have hfirst : isAbsolute first = false := isAbsolute_of_not_mem (hslash first List.mem_cons_self)
  rcases partsOf_components path with ⟨habsolute, rest, -, -, heq⟩ | ⟨hrelative, -, heq⟩
  · rw [heq, List.cons_append] at hmore
    obtain rfl : first = "" := (List.cons.inj hmore).1
    rw [habsolute, ofParts_cons "" (by simpa using hroot)]
    simp [isAbsolute]
  · rw [heq, List.cons_append] at hmore
    have hempty : first ≠ "" := by
      rintro rfl
      exact componentParts_head?_ne (parts path) (by rw [← hmore, List.head?_cons])
    rw [hrelative]
    by_cases hnil : few = []
    · rw [hnil, ofParts_singleton, hfirst]
    · rw [ofParts_cons first hnil, isAbsolute_append hempty, hfirst]

theorem partsOf_components_ne (hroot : components path ≠ ["/"]) :
    partsOf (components path) ≠ [""] := by
  rcases partsOf_components path with ⟨-, rest, -, hsteps, heq⟩ | ⟨-, -, heq⟩
  · rw [hsteps] at hroot
    rw [heq]
    simpa using hroot
  · intro hone
    exact componentParts_head?_ne (parts path) (by rw [← heq, hone, List.head?_cons])

/-- The text of the steps of a path has the same steps. -/
theorem components_ofSteps (hne : components path ≠ []) (hroot : components path ≠ ["/"]) :
    components (ofSteps (components path)) = components path := by
  obtain ⟨hparts, hsame⟩ := parts_ofParts_of_isPrefix (List.prefix_refl (partsOf (components path)))
    (partsOf_ne_nil hne) (partsOf_components_ne hroot)
  rcases partsOf_components path with ⟨habsolute, rest, -, hsteps, heq⟩ | ⟨hrelative, hsteps, heq⟩
  · rw [components, ofSteps, hsame, if_pos habsolute, hparts, heq,
      List.filter_cons_of_neg (by decide), List.filter_filter, hsteps]
    simp only [Bool.and_self]
  · rw [components, ofSteps, hsame, if_neg (by simp [hrelative]), hparts, heq,
      componentParts_componentParts, hsteps]

theorem exists_concat_components (hne : components path ≠ []) (hroot : components path ≠ ["/"]) :
    ∃ front last, components path = front ++ [last] ∧ last ≠ "/" := by
  obtain ⟨front, last, heq⟩ := (List.eq_nil_or_concat' _).resolve_left hne
  refine ⟨front, last, heq, ?_⟩
  rintro rfl
  have hfront : front ≠ [] := by
    rintro rfl
    exact hroot heq
  have hmem : "/" ∈ partsOf (components path) := by
    rw [heq, partsOf_append hfront]
    simp
  exact not_slash_of_mem_parts ((thins_components path).sublist.subset hmem) (by decide)

/-- The directories above what some names lead to: below the directory they start from, the ones on
the way. -/
theorem ancestors_parent_descend (hnames : ∀ name ∈ names, IsName name.toList)
    (hname : IsName name.toList) (directory : String) :
    ancestors (parent (descend directory (names ++ [name]))) =
      ancestorsFrom (components directory ++ names) := by
  have hslash : name ≠ "/" := by
    rintro rfl
    exact hname.2.2.2 (by decide)
  have hall : ancestors (descend directory (names ++ [name])) =
      ofSteps (components directory ++ (names ++ [name])) ::
        ancestorsFrom (components directory ++ names) := by
    have hboth := List.forall_mem_append.mpr ⟨hnames, List.forall_mem_singleton.mpr hname⟩
    rw [ancestors_eq, components_descend hboth, ← List.append_assoc, ancestorsFrom_concat hslash]
  rw [parent, hall, List.getElem?_cons_succ, ← List.head?_eq_getElem?]
  rw [← components_descend hnames]
  by_cases hnone : components (descend directory names) = []
  · rw [hnone]
    decide
  by_cases hroot : components (descend directory names) = ["/"]
  · rw [hroot]
    decide
  obtain ⟨front, last, heq, hlast⟩ := exists_concat_components hnone hroot
  have hback := components_ofSteps hnone hroot
  rw [heq] at hback ⊢
  rw [ancestorsFrom_concat hlast, List.head?_cons, Option.getD_some, ancestors_eq, hback,
    ancestorsFrom_concat hlast]

end Transclusion.FilePath
