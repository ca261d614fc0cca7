import Transclusion.Proofs.Expansion.Fully

/-!
# Unfolding

What an expansion puts in, as a walk with a list of what is still to be put in. Each step takes the
first thing from that list. A directive gives way to the fragments it resolves to, and a fragment to
the text that is scanned for it, in front of all that is left. So the walk is depth first and from
left to right. It knows of no path, has no depth, and gathers nothing.

* `Pending`, `Engine.pending` — what there is to be put in, and what a content consists of;
* `Engine.Unfolds` — the pieces that a walk meets, and `Engine.Unfolds.unique` — there is one walk
  only;
* `Engine.unfolds_of_pieces` — the pieces of a content are those of its walk, whatever is still to
  be put in behind it.
-/

namespace Transclusion

/-- Something that is still to be put in. -/
inductive Pending
  /-- Text as it stands. -/
  | text (cs : List Char)
  /-- A directive of the document at `context`. -/
  | directive (context : String) (d : Directive)
  /-- A fragment that a resolver gives for such a directive. -/
  | fragment (context : String) (d : Directive) (resolver : String) (fragment : Fragment)

namespace Engine

/-- The gap in front of a directive, and the directive. -/
def pendingPart (context : String) (part : List Char × Directive) : List Pending :=
  [.text part.1, .directive context part.2]

/-- The gaps and the directives of the text that is scanned for a content at a key. -/
def pending (engine : Engine) (key content : String) : List Pending :=
  (engine.outline key content).parts.flatMap (pendingPart key) ++
    [.text (engine.outline key content).tail]

/-- The pieces that a walk meets that puts everything in, first things first. -/
inductive Unfolds (engine : Engine) : List Pending → List Piece → Prop
  /-- Nothing is left. -/
  | done : Unfolds engine [] []
  | text {cs : List Char} {todo : List Pending} {ps : List Piece} (h : Unfolds engine todo ps) :
      Unfolds engine (.text cs :: todo) (.text cs :: ps)
  /-- A URL that no resolver claims stays as it is written. -/
  | left {context : String} {d : Directive} {todo : List Pending} {ps : List Piece}
      (hanswer : engine.resolve context d = .ok none) (hremote : d.isRemote)
      (h : Unfolds engine todo ps) : Unfolds engine (.directive context d :: todo) (.left d :: ps)
  /-- A directive gives way to its fragments. -/
  | resolved {context : String} {d : Directive} {resolution : Resolution} {todo : List Pending}
      {ps : List Piece} (hanswer : engine.resolve context d = .ok (some resolution))
      (h : Unfolds engine
        (resolution.fragments.map (.fragment context d resolution.resolver) ++ todo) ps) :
      Unfolds engine (.directive context d :: todo) ps
  /-- A fragment without a key is put in as it stands. -/
  | literal {context : String} {d : Directive} {resolver : String} {fragment : Fragment}
      {todo : List Pending} {ps : List Piece} (hkey : fragment.key = none)
      (h : Unfolds engine todo ps) :
      Unfolds engine (.fragment context d resolver fragment :: todo)
        (.text fragment.content.toList :: ps)
  /-- A document gives way to its own content, behind its comment. -/
  | document {context : String} {d : Directive} {resolver : String} {fragment : Fragment}
      {key : String} {todo : List Pending} {ps : List Piece} (hkey : fragment.key = some key)
      (h : Unfolds engine (engine.pending key fragment.content ++ todo) ps) :
      Unfolds engine (.fragment context d resolver fragment :: todo)
        (.fragment (engine.marker context d.target resolver key) key fragment.metadata :: ps)

variable {engine : Engine}

/-- There is one walk only. -/
theorem Unfolds.unique {todo : List Pending} {ps qs : List Piece} (h : engine.Unfolds todo ps)
    (h' : engine.Unfolds todo qs) : ps = qs := by
  induction h generalizing qs with
  | done =>
    cases h'
    rfl
  | text _ ih =>
    cases h' with
    | text h' => rw [ih h']
  | left hanswer _ _ ih =>
    cases h' with
    | left _ _ h' => rw [ih h']
    | resolved hanswer' _ => exact nomatch hanswer.symm.trans hanswer'
  | resolved hanswer _ ih =>
    cases h' with
    | left hanswer' _ _ => exact nomatch hanswer.symm.trans hanswer'
    | resolved hanswer' h' =>
      obtain rfl := Option.some.inj (Except.ok.inj (hanswer.symm.trans hanswer'))
      exact ih h'
  | literal hkey _ ih =>
    cases h' with
    | literal _ h' => rw [ih h']
    | document hkey' _ => exact nomatch hkey.symm.trans hkey'
  | document hkey _ ih =>
    cases h' with
    | literal hkey' _ => exact nomatch hkey.symm.trans hkey'
    | document hkey' h' =>
      obtain rfl := Option.some.inj (hkey.symm.trans hkey')
      rw [ih h']

/-! ## Pieces -/

/-- The walk meets the pieces while it puts the first things in, whatever is left behind them. -/
def Meets (engine : Engine) (first : List Pending) (ps : List Piece) : Prop :=
  ∀ todo qs, engine.Unfolds todo qs → engine.Unfolds (first ++ todo) (ps ++ qs)

theorem Meets.append {first more : List Pending} {ps qs : List Piece}
    (h : engine.Meets first ps) (h' : engine.Meets more qs) :
    engine.Meets (first ++ more) (ps ++ qs) := by
  intro todo rs hrs
  rw [List.append_assoc, List.append_assoc]
  exact h _ _ (h' _ _ hrs)

theorem meets_text (cs : List Char) : engine.Meets [.text cs] [.text cs] :=
  fun _ _ => .text

/-- What is collected from some values is met in the things they stand for. -/
theorem meets_of_collect {α : Type} {f : α → Except Obstacle (List Piece)}
    (things : α → List Pending)
    {as : List α} (hmeets : ∀ a ∈ as, ∀ ps, f a = .ok ps → engine.Meets (things a) ps)
    {ps : List Piece} (h : collect f as = .ok ps) : engine.Meets (as.flatMap things) ps := by
  induction as generalizing ps with
  | nil =>
    cases h
    exact fun _ _ => id
  | cons a as ih =>
    obtain ⟨hfirst, hothers⟩ := List.forall_mem_cons.mp hmeets
    obtain ⟨here, rest, hhere, hrest, rfl⟩ := collect_cons_eq_ok.mp h
    exact (hfirst here hhere).append (ih hothers hrest)

section Level

variable {build : Builder} {path : List String} {context : String} {d : Directive}
  {ps : List Piece}
  (hbuild : ∀ path key content ps, build path key content = .ok ps →
    engine.Meets (engine.pending key content) ps)

include hbuild

theorem meets_of_fragmentPieces {resolver : String} {fragment : Fragment}
    (h : fragmentPieces engine build path context d resolver fragment = .ok ps) :
    engine.Meets [.fragment context d resolver fragment] ps := by
  intro todo qs hqs
  rcases fragmentPieces_eq_ok.mp h with ⟨hnone, rfl⟩ | ⟨key, sub, hkey, -, hsub, rfl⟩
  · exact .literal hnone hqs
  · exact .document hkey (hbuild _ _ _ _ hsub _ _ hqs)

theorem meets_of_directivePieces (h : directivePieces engine build path context d = .ok ps) :
    engine.Meets [.directive context d] ps := by
  intro todo qs hqs
  rcases directivePieces_eq_ok.mp h with ⟨hanswer, hremote, rfl⟩ | ⟨resolution, hanswer, hps⟩
  · exact .left hanswer hremote hqs
  · have hmeets := meets_of_collect
      (fun fragment => [.fragment context d resolution.resolver fragment])
      (fun fragment _ ps => meets_of_fragmentPieces hbuild) hps
    rw [← List.map_eq_flatMap] at hmeets
    exact .resolved hanswer (hmeets todo qs hqs)

theorem meets_of_contentPieces {key content : String}
    (h : contentPieces engine build path key content = .ok ps) :
    engine.Meets (engine.pending key content) ps := by
  obtain ⟨sub, hsub, rfl⟩ := contentPieces_eq_ok.mp h
  refine (meets_of_collect (pendingPart key) (fun part _ here hhere => ?_) hsub).append
    (meets_text _)
  obtain ⟨ps, hps, rfl⟩ := partPieces_eq_ok.mp hhere
  exact (meets_text part.1).append (meets_of_directivePieces hbuild hps)

end Level

/-- The pieces of a content are what a walk through it meets, however deep it goes. -/
theorem unfolds_of_pieces {depth : Nat} {path : List String} {key content : String}
    {ps : List Piece} (h : engine.pieces depth path key content = .ok ps) :
    engine.Meets (engine.pending key content) ps := by
  induction depth generalizing path key content ps with
  | zero => exact nomatch h
  | succ depth ih => exact meets_of_contentPieces (fun _ _ _ _ => ih) h

/-- A walk through a content alone meets its pieces, and nothing else. -/
theorem unfolds_of_fullPieces {path : List String} {key content : String} {ps : List Piece}
    (h : engine.fullPieces path key content = .ok ps) :
    engine.Unfolds (engine.pending key content) ps := by
  obtain ⟨depth, hdepth⟩ := engine.exists_pieces_eq path key content
  have hunfolds := unfolds_of_pieces (hdepth.trans h) [] [] .done
  rwa [List.append_nil, List.append_nil] at hunfolds

end Engine

end Transclusion
