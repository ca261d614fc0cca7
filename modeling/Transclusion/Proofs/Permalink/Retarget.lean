import Mathlib.Data.List.Forall2
import Transclusion.Proofs.Directive.Rewriting
import Transclusion.Proofs.Permalink

/-!
# A text with its permalinks written out

Writing out permalinks changes nothing in a text but the targets that are permalinks.

* `Permalink.isTarget_of_discover` — what is written for a permalink can stand as a target;
* `Permalink.ofText_retarget` — the outline of the text is the one before, with the directives that
  are read where permalinks were written out;
* `Permalink.retarget_keeps_outline` — so nothing else changes.

The text is scanned anew after it was rewritten. That no directive goes or comes by that is
`Outline.ofText_rewrite`, for directives that keep their labels.
-/

namespace Transclusion.Permalink

open Directive

variable {documents : DocumentSet} {source : String}

/-- What is written for a permalink can stand as a target. -/
theorem isTarget_of_discover {target written : String} (htarget : IsTarget target)
    (h : discover documents source target = some written) : IsTarget written := by
  obtain ⟨-, joined, found, -, -, hfound⟩ := discover_eq_some h
  cases hfound with
  | suffix _ _ =>
    have hsuffix : IsTarget Key.markdownSuffix := by decide +kernel
    exact hsuffix.append_left htarget.2
  | index _ =>
    obtain ⟨slashes, -, hsplit⟩ := exists_trailing_slashes target
    have hindex : IsTarget ("/" ++ Key.indexName) := by decide +kernel
    rw [String.append_assoc]
    refine hindex.append_left fun c hc => htarget.2 c ?_
    rw [hsplit]
    exact List.mem_append_left slashes hc

/-- The directive that is read where the permalink of another one was written out. -/
def retargeted (documents : DocumentSet) (source : String) (d : Directive) : Directive :=
  match discover documents source d.target with
  | some target => d.reread target
  | none => d

@[simp] theorem source_retargeted (documents : DocumentSet) (source : String) (d : Directive) :
    (retargeted documents source d).source = retargetDirective documents source d := by
  rw [retargeted, retargetDirective]
  cases discover documents source d.target with
  | some target => exact source_reread d target
  | none => rfl

@[simp] theorem label_retargeted (documents : DocumentSet) (source : String) (d : Directive) :
    (retargeted documents source d).label = d.label := by
  rw [retargeted]
  cases discover documents source d.target with
  | some target => exact label_reread d target
  | none => rfl

@[simp] theorem target_retargeted (documents : DocumentSet) (source : String) (d : Directive) :
    (retargeted documents source d).target =
      (discover documents source d.target).getD d.target := by
  rw [retargeted]
  cases discover documents source d.target with
  | some target => exact target_reread d target
  | none => rfl

theorem retargeted_of_discover_eq_none {d : Directive}
    (h : discover documents source d.target = none) : retargeted documents source d = d := by
  rw [retargeted, h]

/-- A directive with its permalink written out is one. -/
theorem begins_retargeted {content : String} {d : Directive} (hd : d ∈ directives content) :
    Begins (retargeted documents source d).source.toList (retargeted documents source d) [] := by
  obtain ⟨p, hp, rfl⟩ := exists_parts_of_mem_directives hd
  rw [retargeted]
  split
  · next target h =>
    refine begins_reread hp (isTarget_of_discover ⟨target_ne_empty_of_mem_directives hd, ?_⟩ h)
    rw [Parts.directive, assemble, String.toList_ofList]
    exact hp.target_chars
  · exact ⟨p, hp, rfl, by rw [Parts.toList_source_directive, List.append_nil]⟩

/-- The outline of a text with its permalinks written out. -/
theorem ofText_retarget (documents : DocumentSet) (source content : String) :
    Outline.ofText (retarget documents source content) =
      ⟨(Outline.ofText content).parts.map fun part => (part.1, retargeted documents source part.2),
        (Outline.ofText content).tail⟩ := by
  have hsame : ∀ d ∈ directives content,
      (retargeted documents source d).label = d.label ∧
        Begins (retargeted documents source d).source.toList (retargeted documents source d) [] :=
    fun d hd => ⟨label_retargeted documents source d, begins_retargeted hd⟩
  have hrewrite := Outline.ofText_rewrite hsame
  simp only [source_retargeted] at hrewrite
  exact hrewrite

/-- How a directive and the one that stands in its place afterwards go together. -/
structure Retargets (documents : DocumentSet) (source : String) (d d' : Directive) : Prop where
  label : d'.label = d.label
  /-- The target that was discovered, or else the one before. -/
  target : d'.target = (discover documents source d.target).getD d.target
  /-- In the text it stands written with that target. -/
  written : d'.source = retargetDirective documents source d
  /-- If none was discovered, the directive is untouched. -/
  untouched : discover documents source d.target = none → d' = d

/-- A text with its permalinks written out has as many directives as before, each with its label and
with the target that was discovered for it. The text in front of the directives, between them and
behind them is the same. -/
theorem retarget_keeps_outline (documents : DocumentSet) (source content : String) :
    let before := Outline.ofText content
    let after := Outline.ofText (retarget documents source content)
    List.Forall₂ (Retargets documents source) before.directives after.directives ∧
      after.parts.map Prod.fst = before.parts.map Prod.fst ∧ after.tail = before.tail := by
  intro before after
  have hafter : after =
      ⟨before.parts.map fun part => (part.1, retargeted documents source part.2), before.tail⟩ :=
    ofText_retarget documents source content
  have hdirectives : after.directives = before.directives.map (retargeted documents source) := by
    rw [hafter, Outline.directives, Outline.directives, List.map_map, List.map_map]
    rfl
  refine ⟨?_, ?_, by rw [hafter]⟩
  · rw [hdirectives, List.forall₂_map_right_iff, List.forall₂_same]
    intro d _
    exact ⟨label_retargeted documents source d, target_retargeted documents source d,
      source_retargeted documents source d, retargeted_of_discover_eq_none⟩
  · rw [hafter, List.map_map]
    rfl

/-- A gap with an opening that a newline in the label of the next directive ends, a secondary text
that is written without its quotes, and a directive that is no permalink. -/
example :
    retarget (.ofList [("a/b.md", ⟨"B", .empty⟩), ("c/index.md", ⟨"C", .empty⟩)]) "a/x.md"
        "[:[](y :[l\nm](b \t'q') :[](/c//):[](//b)" =
      "[:[](y :[l\nm](b.md q) :[](/c/index.md):[](//b)" := by
  decide +kernel

end Transclusion.Permalink
