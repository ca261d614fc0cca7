import Transclusion.Proofs.Directive.Spans
import Transclusion.Proofs.Directive.Walk
import Transclusion.Proofs.Results
import Transclusion.Proofs.Text.Position

/-!
# Where directives stand

Directives are cut out of a text at the marks of a walk, and their positions are read off the text
in front of them. No cut fails, and the positions lead to the directives.

* `Boundary.isValid` — a boundary is a valid position of the text, as core has it;
* `Scan.exists_cut_of_mem`, `Scan.pairwise` — it stands at its position, behind those before it;
* `parse_locates` — all of this about one text, with its lines.
-/

namespace Transclusion

open Directive Directive.Walk

/-! ## Boundaries -/

namespace Directive.Walk

theorem bytes_toList (s : String) : bytes s.toList = s.utf8ByteSize := by
  conv => rhs; rw [← String.ofList_toList (s := s)]
  induction s.toList with
  | nil => rfl
  | cons c cs ih =>
    rw [String.ofList_cons, String.utf8ByteSize_append, String.utf8ByteSize_singleton,
      bytes_cons, ih]

/-- A boundary is a valid position of the text. -/
theorem Boundary.isValid {text : String} {n : Nat} (h : Boundary text.toList n) :
    String.Pos.Raw.IsValid text ⟨n⟩ := by
  obtain ⟨before, behind, htext, rfl⟩ := h
  refine String.Pos.Raw.isValid_iff_exists_append.mpr
    ⟨String.ofList before, String.ofList behind, ?_, ?_⟩
  · rw [← String.ofList_append, ← htext, String.ofList_toList]
  · rw [String.rawEndPos, ← bytes_toList, String.toList_ofList]

end Directive.Walk

/-! ## Along the scan -/

theorem Directive.Begins.source_ne_nil {cs rest : List Char} {d : Directive}
    (h : Begins cs d rest) : d.source.toList ≠ [] := by
  obtain ⟨p, -, rfl, -⟩ := h
  simp [Parts.toChars]

/-- A directive that a scan finds begins at its position. -/
theorem Scan.exists_cut_of_mem {p q : Position} {cs : List Char} {d : Directive}
    {found : List (Directive × Position)} (h : Scan p cs found) (hmem : (d, q) ∈ found) :
    ∃ before rest, cs = before ++ (d.source.toList ++ rest) ∧ q = p.advance before := by
  induction h with
  | done p => exact nomatch hmem
  | @take p cs rest d' found begins behind ih =>
    have hcs := begins.source_append
    rcases List.mem_cons.mp hmem with heq | hmem
    · cases heq
      exact ⟨[], rest, hcs, rfl⟩
    · obtain ⟨before, rest', hrest, hq⟩ := ih hmem
      exact ⟨d'.source.toList ++ before, rest', by rw [hcs, hrest, List.append_assoc],
        by rw [hq, Position.advance_append]⟩
  | @pass p c cs found none behind ih =>
    obtain ⟨before, rest, hcs, hq⟩ := ih hmem
    exact ⟨c :: before, rest, by rw [hcs]; rfl, hq⟩

/-- The directives that a scan finds stand one behind another. -/
theorem Scan.pairwise {p : Position} {cs : List Char} {found : List (Directive × Position)}
    (h : Scan p cs found) : found.Pairwise fun a b => a.2.Precedes b.2 := by
  induction h with
  | done p => exact .nil
  | @take p cs rest d found begins behind ih =>
    refine List.pairwise_cons.mpr ⟨fun ⟨d', q⟩ hmem => ?_, ih⟩
    obtain ⟨before, -, -, rfl⟩ := behind.exists_cut_of_mem hmem
    rw [← Position.advance_append]
    have hne := List.append_ne_nil_of_left_ne_nil begins.source_ne_nil before
    exact Position.precedes_advance p hne
  | pass none behind ih => exact ih

/-! ## Main result -/

/-- The directives of a text are cut out where they are located, and no cut fails: every span starts
no later than it ends, between two characters of the text. A directive starts behind the text in
front of it. In the line that its position tells, behind as many characters as it tells, the text
goes on with the source of the directive, over further lines if that has any. Along the directives
the positions grow. -/
theorem parse_locates (content : String) :
    parse? content = some (locate content) ∧
    (marks content).map Marks.span = (locate content).map (fun (d, p) => Span.of d p) ∧
    (∀ m ∈ marks content, ∀ s ∈ m.spans,
      s.start ≤ s.stop ∧ String.Pos.Raw.IsValid content ⟨s.start⟩ ∧
        String.Pos.Raw.IsValid content ⟨s.stop⟩) ∧
    (∀ d p, (d, p) ∈ locate content →
      String.Pos.Raw.IsValid content ⟨p.offset⟩ ∧
      ∃ before rest front line back,
        content.toList = before ++ (d.source.toList ++ rest) ∧ p.offset = bytes before ∧
        Text.fields '\n' content.toList = front ++ line :: back ∧ p.line = front.length + 1 ∧
        1 ≤ p.column ∧ p.column ≤ line.length + 1 ∧
        Text.unite ['\n'] (line.drop (p.column - 1) :: back) = d.source.toList ++ rest ∧
        ('\n' ∉ d.source.toList → d.source.toList <+: line.drop (p.column - 1))) ∧
    (locate content).Pairwise fun a b => a.2.Precedes b.2 := by
  have hscan : Scan Position.start content.toList (locate content) := scan_iff.mpr rfl
  obtain ⟨hparse, hspans⟩ := parse?_eq content
  refine ⟨hparse, hspans, fun m hm s hs => ?_, fun d p hmem => ?_, hscan.pairwise⟩
  · have hfits := (marks_fit content m hm).of_mem_spans s hs
    exact ⟨hfits.start_le_stop, hfits.boundary_start.isValid, hfits.boundary_stop.isValid⟩
  · obtain ⟨before, rest, hcontent, rfl⟩ := hscan.exists_cut_of_mem hmem
    obtain ⟨front, line, back, hfields, hline, hpos, hcolumn, hrest⟩ :=
      Position.exists_line before (d.source.toList ++ rest)
    have hoffset : (Position.start.advance before).offset = bytes before := by
      rw [Position.offset_advance]
      exact Nat.zero_add _
    rw [← hcontent] at hfields
    refine ⟨?_, before, rest, front, line, back, hcontent, hoffset, hfields, hline, hpos, hcolumn,
      ?_, fun hsource => ?_⟩
    · rw [hoffset]
      exact Boundary.isValid ⟨before, _, hcontent, rfl⟩
    · rw [← hrest, Text.unite_fields]
    · obtain ⟨first, others, hothers⟩ := List.exists_cons_of_ne_nil (Text.fields_ne_nil '\n' rest)
      have hlast : Text.fields '\n' d.source.toList = [] ++ [d.source.toList] :=
        Text.fields_of_not_mem hsource
      rw [Text.fields_append_fields hlast hothers, List.nil_append] at hrest
      exact (List.cons.inj hrest).1 ▸ List.prefix_append _ first

/-- A directive over two lines, behind characters of two bytes. -/
example :
    parse? "é\né:[ö\nü](x 'é')" =
      some [(⟨"ö\nü", "x", some "é", ":[ö\nü](x 'é')"⟩, ⟨2, 2, 5⟩)] := by
  cbv

end Transclusion
