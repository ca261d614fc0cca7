import Transclusion.Proofs.Directive.Scan
import Transclusion.Proofs.Expansion.Depth

/-!
# Where pieces meet

The pieces of an expansion are put behind each other and the text is not scanned again. No piece has
a local directive in it that an expansion left; but one may come about where pieces meet.

* `Piece.Proper` — what each piece is like: a text with no directive complete in it, or a directive
  that is a URL; `Engine.proper_of_fullPieces` — the pieces of an expansion are;
* `Piece.Seam` — a directive of the joined text that stands where no piece has one: it begins in a
  text and goes on behind it, or it begins in a comment, or inside a directive that was left;
* `Piece.seam_or_left` — every directive of the joined text does so or is one that was left.

A directive begins inside one that was left only if another directive took the opening of that one,
so it needs a seam as well, further to the front.
-/

namespace Transclusion

open Directive

/-- A directive that begins a text and is no longer than a part of it is complete in that part. -/
theorem Directive.Begins.of_append {cs ds rest : List Char} {d : Directive}
    (h : Begins (cs ++ ds) d rest) (hlength : d.source.toList.length ≤ cs.length) :
    ∃ more, Begins cs d more := by
  obtain ⟨p, hp, rfl, heq⟩ := h
  rw [Parts.toList_source_directive] at hlength
  rcases List.append_eq_append_iff.mp heq with ⟨more, htoChars, hrest⟩ | ⟨more, hcs, -⟩
  · have hnil : more = [] := by
      have hboth := congrArg List.length htoChars
      rw [List.length_append] at hboth
      exact List.eq_nil_of_length_eq_zero (by omega)
    exact ⟨[], p, hp, rfl, by rw [htoChars, hnil]; simp⟩
  · exact ⟨more, p, hp, rfl, hcs⟩

/-- What follows a silent text cannot make a directive that is complete in it. -/
theorem Directive.Silent.nil {cs ds : List Char} (h : Silent cs ds) : Silent cs [] := by
  rw [silent_iff] at h ⊢
  intro us vs heq hvs d rest hbegins
  rw [List.append_nil] at hbegins
  exact h us vs heq hvs d (rest ++ ds) (hbegins.append ds)

namespace Piece

/-! ## Pieces of an expansion -/

/-- A text has no directive complete in it, and a directive that was left is a URL. -/
def Proper : Piece → Prop
  | text cs => Silent cs []
  | left d => d.isRemote ∧ Begins d.source.toList d []
  | fragment .. => True

/-- The place in some pieces where an end of their text begins. -/
theorem exists_place {ps : List Piece} {cs : List Char} (h : cs <:+ allChars ps) (hne : cs ≠ []) :
    ∃ front p back before behind, ps = front ++ p :: back ∧ p.chars = before ++ behind ∧
      behind ≠ [] ∧ cs = behind ++ allChars back := by
  induction ps with
  | nil => exact absurd (List.suffix_nil.mp h) hne
  | cons p ps ih =>
    -- an end that begins in a later piece has the first one in front of it
    have hlater : cs <:+ allChars ps → ∃ front p' back before behind,
        p :: ps = front ++ p' :: back ∧ p'.chars = before ++ behind ∧ behind ≠ [] ∧
          cs = behind ++ allChars back := by
      intro hsuffix
      obtain ⟨front, p', back, before, behind, rfl, hplace⟩ := ih hsuffix
      exact ⟨p :: front, p', back, before, behind, rfl, hplace⟩
    obtain ⟨before, heq⟩ := h
    rw [allChars, List.flatMap_cons] at heq
    rcases List.append_eq_append_iff.mp heq with ⟨behind, hp, hcs⟩ | ⟨more, -, hrest⟩
    · by_cases hbehind : behind = []
      · rw [hbehind, List.nil_append] at hcs
        exact hlater (hcs ▸ List.suffix_refl _)
      · exact ⟨[], p, ps, before, behind, rfl, hp, hbehind, hcs⟩
    · exact hlater ⟨more, hrest.symm⟩

/-! ## Seams -/

/-- A directive that stands where no piece has one: the text from its start on is `cs`. -/
inductive Seam (ps : List Piece) (d : Directive) (cs : List Char) : Prop
  /-- It begins in a text and goes on behind it. -/
  | crossing {front back : List Piece} {before behind : List Char}
      (hps : ps = front ++ text (before ++ behind) :: back) (hcs : cs = behind ++ allChars back)
      (hne : behind ≠ []) (hlong : behind.length < d.source.toList.length)
  /-- It begins in the comment in front of a fragment. -/
  | comment {front back : List Piece} {marker key : String} {metadata : Metadata}
      {before behind : List Char} (hps : ps = front ++ fragment marker key metadata :: back)
      (hmarker : marker.toList = before ++ behind) (hne : behind ≠ [])
      (hcs : cs = behind ++ allChars back)
  /-- It begins inside a directive that was left, behind the start. -/
  | inside {front back : List Piece} {left' : Directive} {before behind : List Char}
      (hps : ps = front ++ left left' :: back) (hleft : left'.source.toList = before ++ behind)
      (hbefore : before ≠ []) (hne : behind ≠ []) (hcs : cs = behind ++ allChars back)

/-- A directive that begins at some place of the joined text stands at a seam or was left. -/
theorem seam_or_left {ps : List Piece} (hproper : ∀ p ∈ ps, p.Proper) {d : Directive}
    {cs rest : List Char} (h : Begins cs d rest) (hsuffix : cs <:+ allChars ps) :
    Seam ps d cs ∨ left d ∈ ps := by
  obtain ⟨front, p, back, before, behind, rfl, hchars, hbehind, rfl⟩ :=
    exists_place hsuffix h.ne_nil
  have hp := hproper p (List.mem_append_right front List.mem_cons_self)
  cases p with
  | text ds =>
    left
    refine .crossing (by rw [← hchars]; rfl) rfl hbehind ?_
    -- otherwise it is complete in the text
    by_contra hshort
    obtain ⟨more, hcomplete⟩ := h.of_append (Nat.le_of_not_lt hshort)
    have hds : ds = before ++ behind := hchars
    refine silent_iff.mp hp before behind hds hbehind d more ?_
    rwa [List.append_nil]
  | left left' =>
    by_cases hbefore : before = []
    · -- it begins where the directive that was left does, and a text begins with one at most
      right
      have hsource : left'.source.toList = behind := by
        rw [hbefore, List.nil_append] at hchars
        exact hchars
      have hleft := hp.2.append (allChars back)
      rw [hsource] at hleft
      rw [(h.unique hleft).1]
      exact List.mem_append_right front List.mem_cons_self
    · exact .inl (.inside rfl hchars hbefore hbehind rfl)
  | fragment marker key metadata => exact .inl (.comment rfl hchars hbehind rfl)

/-- Among proper pieces, a local directive needs a seam. -/
theorem seam_of_local {ps : List Piece} (hproper : ∀ p ∈ ps, p.Proper) {d : Directive}
    {cs rest : List Char} (h : Begins cs d rest) (hsuffix : cs <:+ allChars ps)
    (hlocal : ¬ d.isRemote) : Seam ps d cs := by
  rcases seam_or_left hproper h hsuffix with hseam | hleft
  · exact hseam
  · exact absurd (hproper _ hleft).1 hlocal

end Piece

namespace Engine

variable {engine : Engine}

/-! ## The pieces of an expansion are proper -/

theorem proper_of_leftmostParts {tail : List Char} {parts : List (List Char × Directive)}
    (h : Outline.LeftmostParts tail parts) :
    (∀ part ∈ parts, Silent part.1 [] ∧ Begins part.2.source.toList part.2 []) ∧
      Silent tail [] := by
  induction parts with
  | nil => exact ⟨List.forall_mem_nil _, h⟩
  | cons part parts ih =>
    obtain ⟨hsilent, hbegins, hparts⟩ := h
    obtain ⟨hothers, htail⟩ := ih hparts
    refine ⟨List.forall_mem_cons.mpr ⟨⟨hsilent.nil, ?_⟩, hothers⟩, htail⟩
    obtain ⟨p, hp, heq, -⟩ := hbegins
    refine ⟨p, hp, heq, ?_⟩
    rw [heq, Parts.toList_source_directive, List.append_nil]

/-- The text of a target has no directive complete in it. -/
theorem silent_target {text : String} {d : Directive} (h : d ∈ directives text) :
    Silent d.target.toList [] := by
  obtain ⟨p, hp, rfl⟩ := exists_parts_of_mem_directives h
  -- a target has no parenthesis that could close a directive
  refine silent_of_not_mem (.inr fun hmem => ?_)
  rw [Parts.directive, assemble, String.toList_ofList] at hmem
  exact hp.target_chars ')' hmem (by decide)

/-- The pieces of an expansion are proper, however deep it goes. -/
theorem proper_of_pieces (hstays : engine.chain.all Resolver.staysInSet) {depth : Nat}
    {path : List String} {key content : String} {ps : List Piece}
    (h : engine.pieces depth path key content = .ok ps) : ∀ p ∈ ps, p.Proper := by
  induction depth generalizing path key content ps with
  | zero => exact nomatch h
  | succ depth ih =>
    obtain ⟨sub, hsub, rfl⟩ := contentPieces_eq_ok.mp h
    obtain ⟨hparts, htail⟩ :=
      proper_of_leftmostParts (Outline.leftmost_ofText (engine.scanned key content))
    intro p hp
    -- a piece of a part, which is its gap or takes the place of its directive, or the tail
    rcases List.mem_append.mp hp with hp | hp
    · obtain ⟨part, hpart, here, hhere, hp⟩ := mem_of_collect_eq_ok hsub hp
      have hd : part.2 ∈ directives (engine.scanned key content) := List.mem_map_of_mem hpart
      obtain ⟨hgap, hbegins⟩ := hparts part hpart
      obtain ⟨here, hdirective, rfl⟩ := partPieces_eq_ok.mp hhere
      rcases List.mem_cons.mp hp with rfl | hp
      · exact hgap
      · rcases directivePieces_eq_ok.mp hdirective with
          ⟨-, hremote, rfl⟩ | ⟨resolution, hanswer, hfragments⟩
        · obtain rfl := List.mem_singleton.mp hp
          exact ⟨hremote, hbegins⟩
        · obtain ⟨fragment, hfragment, here, hhere, hp⟩ := mem_of_collect_eq_ok hfragments hp
          rcases fragmentPieces_eq_ok.mp hhere with ⟨hnone, rfl⟩ | ⟨k, below, -, -, hbelow, rfl⟩
          · obtain rfl := List.mem_singleton.mp hp
            have hcontent := Resolver.content_of_resolveChain hstays hanswer hfragment hnone
            rw [hcontent]
            exact silent_target hd
          · rcases List.mem_cons.mp hp with rfl | hp
            · trivial
            · exact ih hbelow p hp
    · obtain rfl := List.mem_singleton.mp hp
      exact htail

theorem proper_of_fullPieces (hstays : engine.chain.all Resolver.staysInSet)
    {path : List String} {key content : String} {ps : List Piece}
    (h : engine.fullPieces path key content = .ok ps) : ∀ p ∈ ps, p.Proper :=
  (engine.exists_pieces_eq path key content).elim fun _ hdepth =>
    proper_of_pieces hstays (hdepth.trans h)

end Engine

end Transclusion
