import Transclusion.Proofs.Expansion.Unfolding

/-!
# Comments decorate

The comments in front of fragments are written and never read: they are put in behind the text that
was scanned, and in front of text that was scanned before it got there.

* `Piece.unmarked` — a piece without its comment;
* `Engine.pieces_uncommented` — without comments the pieces of a content are the same ones unmarked,
  or there is the same error;
* `Engine.marker_of_mem`, `Engine.comment` — which comments there are, and what they say;
* `Engine.expand_withComments` — so comments change nothing but that they stand there.
-/

namespace Transclusion

/-- The piece without its comment. -/
def Piece.unmarked : Piece → Piece
  | .fragment _ key metadata => .fragment "" key metadata
  | p => p

/-- Comments are not gathered. -/
theorem Piece.foldl_gather_unmarked (ps : List Piece) (g : Gathered) :
    (ps.map unmarked).foldl gather g = ps.foldl gather g := by
  induction ps generalizing g with
  | nil => rfl
  | cons p ps ih => cases p <;> exact ih _

namespace Engine

/-- The same engine, with comments or without them. -/
def withComments (engine : Engine) (comments verbose : Bool) : Engine :=
  { engine with options := { engine.options with comments, verbose } }

variable {engine : Engine}

/-! ## Pieces without comments -/

section Level

variable {build plain : Builder} (verbose : Bool)
  (hplain : ∀ path key content,
    plain path key content = (build path key content).map (List.map Piece.unmarked))

include hplain

theorem fragmentPieces_uncommented (path : List String) (context : String) (d : Directive)
    (resolver : String) (fragment : Fragment) :
    fragmentPieces (engine.withComments false verbose) plain path context d resolver fragment =
      (fragmentPieces engine build path context d resolver fragment).map
        (List.map Piece.unmarked) := by
  simp only [fragmentPieces]
  cases fragment.key with
  | none => rfl
  | some key =>
    dsimp only
    split
    · rfl
    · rw [hplain]
      cases build (path ++ [key]) key fragment.content <;> rfl

theorem directivePieces_uncommented (path : List String) (context : String) (d : Directive) :
    directivePieces (engine.withComments false verbose) plain path context d =
      (directivePieces engine build path context d).map (List.map Piece.unmarked) := by
  have hresolve : (engine.withComments false verbose).resolve context d =
      engine.resolve context d := rfl
  rw [directivePieces, directivePieces, hresolve]
  cases (engine.resolve context d).mapError Obstacle.error with
  | error e => rfl
  | ok answer =>
    cases answer with
    | none =>
      simp only [bind, Except.bind]
      split <;> rfl
    | some resolution =>
      simp only [bind, Except.bind]
      rw [← collect_map]
      exact collect_congr fun fragment _ =>
        fragmentPieces_uncommented verbose hplain path context d resolution.resolver fragment

theorem contentPieces_uncommented (path : List String) (key content : String) :
    contentPieces (engine.withComments false verbose) plain path key content =
      (contentPieces engine build path key content).map (List.map Piece.unmarked) := by
  have hparts : collect (partPieces (engine.withComments false verbose) plain path key)
      (engine.outline key content).parts =
        (collect (partPieces engine build path key) (engine.outline key content).parts).map
          (List.map Piece.unmarked) := by
    rw [← collect_map]
    refine collect_congr fun part _ => ?_
    rw [partPieces, partPieces, directivePieces_uncommented verbose hplain]
    cases directivePieces engine build path key part.2 <;> rfl
  have houtline : (engine.withComments false verbose).outline key content =
      engine.outline key content := rfl
  rw [contentPieces, contentPieces, houtline]
  simp only [hparts]
  cases collect (partPieces engine build path key) (engine.outline key content).parts with
  | error e => rfl
  | ok ps => simp [Except.map, bind, Except.bind, pure, Except.pure, Piece.unmarked]

end Level

/-- Without comments the pieces are the same ones unmarked, or there is the same error. -/
theorem pieces_uncommented (engine : Engine) (verbose : Bool) (depth : Nat) (path : List String)
    (key content : String) :
    (engine.withComments false verbose).pieces depth path key content =
      (engine.pieces depth path key content).map (List.map Piece.unmarked) := by
  induction depth generalizing path key content with
  | zero => rfl
  | succ depth ih => exact contentPieces_uncommented verbose ih path key content

theorem fullPieces_uncommented (engine : Engine) (verbose : Bool) (path : List String)
    (key content : String) :
    (engine.withComments false verbose).fullPieces path key content =
      (engine.fullPieces path key content).map (List.map Piece.unmarked) := by
  obtain ⟨depth, hwithout, hwith⟩ :=
    (((engine.withComments false verbose).eventually_pieces_eq path key content).and
      (engine.eventually_pieces_eq path key content)).exists
  rw [← hwithout, ← hwith, pieces_uncommented]

/-! ## Comments -/

/-- The comments are those in front of the fragments of directives. -/
theorem marker_of_mem {todo : List Pending} {ps : List Piece} (h : engine.Unfolds todo ps)
    {marker key : String} {metadata : Metadata} (hmem : .fragment marker key metadata ∈ ps) :
    ∃ context target resolver, marker = engine.marker context target resolver key := by
  induction h with
  | done => exact nomatch hmem
  | text _ ih => exact ih (by simpa using hmem)
  | left _ _ _ ih => exact ih (by simpa using hmem)
  | resolved _ _ ih => exact ih hmem
  | literal _ _ ih => exact ih (by simpa using hmem)
  | document _ _ ih =>
    rcases List.mem_cons.mp hmem with heq | hmem
    · cases heq
      exact ⟨_, _, _, rfl⟩
    · exact ih hmem

/-- The comment in front of a fragment names its key, and where it comes from if it is to. -/
def comment (verbose : Bool) (context target resolver key : String) : String :=
  if verbose then
    s!"<!-- transclude: {key} (target: {target}, resolver: {resolver}, from: {context}) -->\n"
  else s!"<!-- transclude: {key} -->\n"

theorem marker_withComments (engine : Engine) (verbose : Bool)
    (context target resolver key : String) :
    (engine.withComments true verbose).marker context target resolver key =
      comment verbose context target resolver key := by
  cases verbose <;> rfl

/-! ## Expansions -/

section Expansions

variable {key content : String} {comments verbose : Bool}

theorem expand_uncommented (engine : Engine) (key content : String) (comments verbose : Bool) :
    (engine.withComments false false).expand key content =
      ((engine.withComments comments verbose).fullPieces [key] key content).map fun ps =>
        expansionOf (ps.map Piece.unmarked) := by
  have hpieces : (engine.withComments false false).fullPieces [key] key content =
      ((engine.withComments comments verbose).fullPieces [key] key content).map
        (List.map Piece.unmarked) :=
    fullPieces_uncommented (engine.withComments comments verbose) false [key] key content
  rw [expand_eq, hpieces]
  cases (engine.withComments comments verbose).fullPieces [key] key content <;> rfl

/-- With comments an expansion fails as it does without. -/
theorem expand_eq_error_iff_uncommented {obstacle : Obstacle} :
    (engine.withComments comments verbose).expand key content = .error obstacle ↔
      (engine.withComments false false).expand key content = .error obstacle := by
  rw [expand_uncommented engine key content comments verbose, expand_eq_error, map_eq_error]

/-- With comments an expansion gathers what it does without. -/
theorem exists_uncommented {e : Expansion}
    (h : (engine.withComments comments verbose).expand key content = .ok e) :
    ∃ plain, (engine.withComments false false).expand key content = .ok plain ∧
      e.tree = plain.tree ∧ e.resolved = plain.resolved := by
  obtain ⟨ps, hps, rfl⟩ := expand_eq_ok.mp h
  refine ⟨expansionOf (ps.map Piece.unmarked), ?_, ?_⟩
  · rw [expand_uncommented engine key content comments verbose, hps]
    rfl
  · simp only [expansionOf, Piece.foldl_gather_unmarked, and_self]

end Expansions

/-- Comments decorate. Whether there are any, and what they say, does not matter to whether an
expansion succeeds, to its error, to the tree, or to the list of keys. And a content with comments
is the content without them, put together from the same pieces, with one comment directly in front
of what each fragment of the walk gives way to, which names the key of that fragment. -/
theorem expand_withComments (engine : Engine) (key content : String) :
    (∀ comments verbose comments' verbose' obstacle,
      (engine.withComments comments verbose).expand key content = .error obstacle ↔
        (engine.withComments comments' verbose').expand key content = .error obstacle) ∧
    (∀ comments verbose comments' verbose' e e',
      (engine.withComments comments verbose).expand key content = .ok e →
      (engine.withComments comments' verbose').expand key content = .ok e' →
        e.tree = e'.tree ∧ e.resolved = e'.resolved) ∧
    ∀ verbose verbose' plain commented,
      (engine.withComments false verbose).expand key content = .ok plain →
      (engine.withComments true verbose').expand key content = .ok commented →
      ∃ ps, (engine.withComments true verbose').Unfolds (engine.pending key content) ps ∧
        (engine.withComments false verbose).Unfolds (engine.pending key content)
          (ps.map Piece.unmarked) ∧
        commented.content = Piece.render ps ∧
        plain.content = Piece.render (ps.map Piece.unmarked) ∧
        ∀ marker k metadata, .fragment marker k metadata ∈ ps →
          ∃ context target resolver, marker = comment verbose' context target resolver k := by
  refine ⟨?_, ?_, ?_⟩
  · intro comments verbose comments' verbose' obstacle
    exact expand_eq_error_iff_uncommented.trans expand_eq_error_iff_uncommented.symm
  · intro comments verbose comments' verbose' e e' he he'
    obtain ⟨plain, hplain, htree, hresolved⟩ := exists_uncommented he
    obtain ⟨plain', hplain', htree', hresolved'⟩ := exists_uncommented he'
    obtain rfl := Except.ok.inj (hplain.symm.trans hplain')
    exact ⟨htree.trans htree'.symm, hresolved.trans hresolved'.symm⟩
  · intro verbose verbose' plain commented hwithout hwith
    obtain ⟨ps, hps, rfl⟩ := expand_eq_ok.mp hwith
    have hunmarked : (engine.withComments false verbose).fullPieces [key] key content =
        .ok (ps.map Piece.unmarked) := by
      have h := fullPieces_uncommented (engine.withComments true verbose') verbose [key] key content
      rwa [hps] at h
    obtain rfl := Except.ok.inj ((expand_eq_ok.mpr ⟨_, hunmarked, rfl⟩).symm.trans hwithout)
    have hunfolds := unfolds_of_fullPieces hps
    refine ⟨ps, hunfolds, unfolds_of_fullPieces hunmarked, rfl, rfl, ?_⟩
    intro marker k metadata hmem
    obtain ⟨context, target, resolver, rfl⟩ := marker_of_mem hunfolds hmem
    exact ⟨context, target, resolver, marker_withComments engine verbose' context target resolver k⟩

/-- A document that is put in twice, the second time inside one whose key reads like a directive. -/
theorem expand_withComments_directive_in_key :
    let engine : Engine :=
      ⟨default, .ofList [("a.md", ⟨"A", .empty⟩), ("d/:[](a).md", ⟨"<:[](../a)>", .empty⟩)],
        [.exact true, .folder true fun _ => true], {}⟩
    let content := ":[](a) :[](d)"
    ∃ plain commented, (engine.withComments false true).expand "i.md" content = .ok plain ∧
      (engine.withComments true false).expand "i.md" content = .ok commented ∧
      plain.content = "A <A>" ∧
      commented.content = "<!-- transclude: a.md -->\nA <!-- transclude: d/:[](a).md -->\n" ++
        "<<!-- transclude: a.md -->\nA>" ∧
      plain.tree = commented.tree ∧ plain.resolved = commented.resolved ∧
      ∃ ps, (engine.withComments true false).Unfolds (engine.pending "i.md" content) ps ∧
        commented.content = Piece.render ps ∧
        plain.content = Piece.render (ps.map Piece.unmarked) := by
  intro engine content
  have hplain : ((engine.withComments false true).expand "i.md" content).map (·.content) =
      .ok "A <A>" := by decide +kernel
  have hcommented : ((engine.withComments true false).expand "i.md" content).map (·.content) =
      .ok ("<!-- transclude: a.md -->\nA <!-- transclude: d/:[](a).md -->\n" ++
        "<<!-- transclude: a.md -->\nA>") := by decide +kernel
  obtain ⟨plain, hwithout, hsays⟩ := map_eq_ok.mp hplain
  obtain ⟨commented, hwith, hsays'⟩ := map_eq_ok.mp hcommented
  obtain ⟨-, hgathered, hpieces⟩ := expand_withComments engine "i.md" content
  obtain ⟨htree, hresolved⟩ := hgathered _ _ _ _ _ _ hwithout hwith
  obtain ⟨ps, hunfolds, -, hrender, hrender', -⟩ := hpieces _ _ _ _ hwithout hwith
  exact ⟨plain, commented, hwithout, hwith, hsays, hsays', htree, hresolved, ps, hunfolds, hrender,
    hrender'⟩

end Engine

end Transclusion
