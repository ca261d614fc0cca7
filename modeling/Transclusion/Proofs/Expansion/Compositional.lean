import Mathlib.Data.List.Forall2
import Transclusion.Proofs.Expansion.Fully

/-!
# Expansion is compositional

What takes the place of a fragment is its expansion on its own, with a comment in front of it. The
documents on the way to it matter in one respect only: none of them may be needed for it again.

* `Engine.Replaceable` — when a directive can be replaced, by expansions on their own;
* `Engine.DirectiveText` — the text that takes its place then;
* `Engine.exists_texts_of_contentPieces` — a content is such texts and the gaps between them;
* `Engine.expand_compositional` — an expansion succeeds exactly if all directives of its scanned
  text can be replaced, and consists of their texts and the gaps.

All levels of an expansion are alike (`fullPieces_eq`). So the pieces found below a directive are
those found from the fragment alone, as long as the outer key does not start one of them
(`fullPieces_below_eq_ok`).
-/

namespace Transclusion

/-- The text of an outline with other texts in the place of its directives. -/
def Outline.filled (outline : Outline) (texts : List String) : String :=
  String.join (List.zipWith (fun part text => String.ofList part.1 ++ text) outline.parts texts)
    ++ String.ofList outline.tail

namespace Engine

variable {engine : Engine}

/-! ## Expansions on their own -/

/-- A directive of the document at `key` can be replaced: it is a URL that no resolver claims, or it
resolves to fragments that expand on their own without need of `key`. -/
def Replaceable (engine : Engine) (key : String) (d : Directive) : Prop :=
  (engine.resolve key d = .ok none ∧ d.isRemote) ∨
  ∃ resolution, engine.resolve key d = .ok (some resolution) ∧
    ∀ fragment ∈ resolution.fragments, ∀ k, fragment.key = some k →
      k ≠ key ∧ ∃ e, engine.expand k fragment.content = .ok e ∧ key ∉ e.resolved

/-- The text that takes the place of a fragment. -/
inductive FragmentText (engine : Engine) (key : String) (d : Directive) (resolver : String) :
    Fragment → String → Prop
  /-- A fragment without a key is put in as it stands. -/
  | literal {fragment : Fragment} (hkey : fragment.key = none) :
      FragmentText engine key d resolver fragment fragment.content
  /-- A document is put in as its expansion on its own, behind its comment. -/
  | document {fragment : Fragment} {k : String} {e : Expansion} (hkey : fragment.key = some k)
      (h : engine.expand k fragment.content = .ok e) :
      FragmentText engine key d resolver fragment
        (engine.marker key d.target resolver k ++ e.content)

/-- The text that takes the place of a directive of the document at `key`. -/
inductive DirectiveText (engine : Engine) (key : String) (d : Directive) : String → Prop
  /-- A directive that no resolver claims stays as it is written. -/
  | left (h : engine.resolve key d = .ok none) : DirectiveText engine key d d.source
  /-- The fragments stand one behind the other. -/
  | replaced {resolution : Resolution} {texts : List String}
      (h : engine.resolve key d = .ok (some resolution))
      (hfragments : List.Forall₂ (FragmentText engine key d resolution.resolver)
        resolution.fragments texts) :
      DirectiveText engine key d (String.join texts)

/-! ## Texts and gaps -/

/-- What holds of the text of every directive holds of the texts between the gaps of an outline. -/
theorem exists_texts {build : Builder} {path : List String} {key : String}
    {text : Directive → String → Prop}
    (htext : ∀ d ps, directivePieces engine build path key d = .ok ps → text d (Piece.render ps))
    {parts : List (List Char × Directive)} {ps : List Piece}
    (h : collect (partPieces engine build path key) parts = .ok ps) :
    ∃ texts, List.Forall₂ text (parts.map Prod.snd) texts ∧
      Piece.render ps =
        String.join (List.zipWith (fun part text => String.ofList part.1 ++ text) parts texts) := by
  induction parts generalizing ps with
  | nil =>
    cases h
    exact ⟨[], .nil, by simp⟩
  | cons part parts ih =>
    obtain ⟨here, rest, hhere, hrest, rfl⟩ := collect_cons_eq_ok.mp h
    obtain ⟨sub, hsub, rfl⟩ := partPieces_eq_ok.mp hhere
    obtain ⟨texts, htexts, hrender⟩ := ih hrest
    refine ⟨Piece.render sub :: texts, .cons (htext part.2 sub hsub) htexts, ?_⟩
    rw [Piece.render_append, hrender, Piece.render_cons, List.zipWith_cons_cons, String.join_cons]
    rfl

/-- A content is what is put in the places of its directives, between the gaps. -/
theorem exists_texts_of_contentPieces {build : Builder} {path : List String} {key content : String}
    {text : Directive → String → Prop}
    (htext : ∀ d ps, directivePieces engine build path key d = .ok ps → text d (Piece.render ps))
    {ps : List Piece} (h : contentPieces engine build path key content = .ok ps) :
    ∃ texts, List.Forall₂ text (directives (engine.scanned key content)) texts ∧
      Piece.render ps = (Outline.ofText (engine.scanned key content)).filled texts := by
  obtain ⟨sub, hsub, rfl⟩ := contentPieces_eq_ok.mp h
  obtain ⟨texts, htexts, hrender⟩ := exists_texts htext hsub
  refine ⟨texts, htexts, ?_⟩
  simp only [Piece.render_append, hrender, Piece.render_cons, Piece.render_nil, Piece.chars,
    String.append_empty, Outline.filled, outline]

/-! ## One level down -/

/-- The pieces below `key` are those of an expansion on its own that does without `key`. -/
theorem fullPieces_below_eq_ok {key k content : String} {ps : List Piece} :
    engine.fullPieces ([key] ++ [k]) k content = .ok ps ↔
      engine.fullPieces [k] k content = .ok ps ∧ key ∉ (expansionOf ps).resolved := by
  rw [fullPieces_append_eq_ok, mem_resolved_expansionOf]
  refine and_congr_right fun _ => ⟨fun h hkey => h key hkey (List.mem_singleton_self key), ?_⟩
  intro h k' hk' houter
  rw [List.mem_singleton.mp houter] at hk'
  exact h hk'

section Level

variable {key : String} {d : Directive}

theorem exists_fragmentPieces_iff {resolver : String} {fragment : Fragment} :
    (∃ ps, fragmentPieces engine engine.fullPieces [key] key d resolver fragment = .ok ps) ↔
      ∀ k, fragment.key = some k →
        k ≠ key ∧ ∃ e, engine.expand k fragment.content = .ok e ∧ key ∉ e.resolved := by
  simp only [fragmentPieces_eq_ok]
  -- the only document on the path is `key`, so nothing else can close a cycle here
  constructor
  · rintro ⟨ps, ⟨hnone, -⟩ | ⟨k, sub, hsome, hk, hsub, -⟩⟩ k' hk'
    · exact nomatch hnone.symm.trans hk'
    · obtain rfl := Option.some.inj (hsome.symm.trans hk')
      obtain ⟨hexpanded, havoids⟩ := fullPieces_below_eq_ok.mp hsub
      exact ⟨fun heq => hk (List.mem_singleton.mpr heq), expansionOf sub,
        expand_eq_ok.mpr ⟨sub, hexpanded, rfl⟩, havoids⟩
  · intro h
    cases hfragment : fragment.key with
    | none => exact ⟨_, .inl ⟨rfl, rfl⟩⟩
    | some k =>
      obtain ⟨hne, e, he, havoids⟩ := h k hfragment
      obtain ⟨sub, hsub, rfl⟩ := expand_eq_ok.mp he
      exact ⟨_, .inr ⟨k, sub, rfl, fun hmem => hne (List.mem_singleton.mp hmem),
        fullPieces_below_eq_ok.mpr ⟨hsub, havoids⟩, rfl⟩⟩

theorem fragmentText_of_eq_ok {resolver : String} {fragment : Fragment} {ps : List Piece}
    (h : fragmentPieces engine engine.fullPieces [key] key d resolver fragment = .ok ps) :
    FragmentText engine key d resolver fragment (Piece.render ps) := by
  rcases fragmentPieces_eq_ok.mp h with ⟨hnone, rfl⟩ | ⟨k, sub, hsome, -, hsub, rfl⟩
  · have htext : Piece.render [.text fragment.content.toList] = fragment.content := by
      simp [Piece.chars]
    rw [htext]
    exact .literal hnone
  · have hexpanded := (fullPieces_below_eq_ok.mp hsub).1
    have htext : Piece.render (.fragment (engine.marker key d.target resolver k) k fragment.metadata
        :: sub) = engine.marker key d.target resolver k ++ (expansionOf sub).content := by
      simp [Piece.chars, expansionOf]
    rw [htext]
    exact .document hsome (expand_eq_ok.mpr ⟨sub, hexpanded, rfl⟩)

/-- The texts of fragments in a row. -/
theorem exists_fragmentTexts {resolver : String} {fragments : List Fragment} {ps : List Piece}
    (h : collect (fragmentPieces engine engine.fullPieces [key] key d resolver) fragments
      = .ok ps) :
    ∃ texts, List.Forall₂ (FragmentText engine key d resolver) fragments texts ∧
      Piece.render ps = String.join texts := by
  induction fragments generalizing ps with
  | nil =>
    cases h
    exact ⟨[], .nil, by simp⟩
  | cons fragment fragments ih =>
    obtain ⟨here, rest, hhere, hrest, rfl⟩ := collect_cons_eq_ok.mp h
    obtain ⟨texts, htexts, hrender⟩ := ih hrest
    refine ⟨Piece.render here :: texts, .cons (fragmentText_of_eq_ok hhere) htexts, ?_⟩
    rw [Piece.render_append, hrender, String.join_cons]

theorem exists_directivePieces_iff :
    (∃ ps, directivePieces engine engine.fullPieces [key] key d = .ok ps) ↔
      engine.Replaceable key d := by
  have hfragments : ∀ resolution : Resolution,
      (∃ ps, collect (fragmentPieces engine engine.fullPieces [key] key d resolution.resolver)
          resolution.fragments = .ok ps) ↔
        ∀ fragment ∈ resolution.fragments, ∀ k, fragment.key = some k →
          k ≠ key ∧ ∃ e, engine.expand k fragment.content = .ok e ∧ key ∉ e.resolved := by
    intro resolution
    rw [exists_collect_eq_ok]
    exact forall₂_congr fun _ _ => exists_fragmentPieces_iff
  simp only [directivePieces_eq_ok, Replaceable, ← hfragments]
  constructor
  · rintro ⟨ps, ⟨hanswer, hremote, -⟩ | ⟨resolution, hanswer, hps⟩⟩
    · exact .inl ⟨hanswer, hremote⟩
    · exact .inr ⟨resolution, hanswer, ps, hps⟩
  · rintro (⟨hanswer, hremote⟩ | ⟨resolution, hanswer, ps, hps⟩)
    · exact ⟨_, .inl ⟨hanswer, hremote, rfl⟩⟩
    · exact ⟨ps, .inr ⟨resolution, hanswer, hps⟩⟩

theorem directiveText_of_eq_ok {ps : List Piece}
    (h : directivePieces engine engine.fullPieces [key] key d = .ok ps) :
    DirectiveText engine key d (Piece.render ps) := by
  rcases directivePieces_eq_ok.mp h with ⟨hanswer, -, rfl⟩ | ⟨resolution, hanswer, hps⟩
  · have htext : Piece.render [.left d] = d.source := by simp [Piece.chars]
    rw [htext]
    exact .left hanswer
  · obtain ⟨texts, htexts, hrender⟩ := exists_fragmentTexts hps
    rw [hrender]
    exact .replaced hanswer htexts

/-- The texts of the directives of an outline, between the gaps. -/
theorem exists_directiveTexts {parts : List (List Char × Directive)} {ps : List Piece}
    (h : collect (partPieces engine engine.fullPieces [key] key) parts = .ok ps) :
    ∃ texts, List.Forall₂ (DirectiveText engine key) (parts.map Prod.snd) texts ∧
      Piece.render ps =
        String.join (List.zipWith (fun part text => String.ofList part.1 ++ text) parts texts) :=
  exists_texts (fun _ _ => directiveText_of_eq_ok) h

end Level

/-! ## The expansion of a content -/

/-- An expansion succeeds exactly if every directive of the text that is scanned can be replaced by
expansions on their own, and it consists of these and of the gaps between the directives. -/
theorem expand_compositional (engine : Engine) (key content : String) :
    ((∃ e, engine.expand key content = .ok e) ↔
      ∀ d ∈ directives (engine.scanned key content), engine.Replaceable key d) ∧
    ∀ e, engine.expand key content = .ok e →
      ∃ texts, List.Forall₂ (DirectiveText engine key) (directives (engine.scanned key content))
          texts ∧
        e.content = (Outline.ofText (engine.scanned key content)).filled texts := by
  simp only [expand_eq_ok, fullPieces_eq, contentPieces_eq_ok]
  constructor
  · have hparts : (∃ sub, collect (partPieces engine engine.fullPieces [key] key)
        (engine.outline key content).parts = .ok sub) ↔
          ∀ d ∈ directives (engine.scanned key content), engine.Replaceable key d := by
      rw [exists_collect_eq_ok, directives, Outline.directives, List.forall_mem_map]
      -- the gap in front of a directive does not matter to whether there are pieces
      refine forall₂_congr fun part _ => ?_
      simp only [← exists_directivePieces_iff, partPieces_eq_ok]
      exact ⟨fun ⟨_, sub, hsub, _⟩ => ⟨sub, hsub⟩, fun ⟨sub, hsub⟩ => ⟨_, sub, hsub, rfl⟩⟩
    rw [← hparts]
    exact ⟨fun ⟨_, _, ⟨sub, hsub, _⟩, _⟩ => ⟨sub, hsub⟩,
      fun ⟨sub, hsub⟩ => ⟨_, _, ⟨sub, hsub, rfl⟩, rfl⟩⟩
  · rintro e ⟨ps, ⟨sub, hsub, rfl⟩, rfl⟩
    obtain ⟨texts, htexts, hrender⟩ := exists_directiveTexts hsub
    refine ⟨texts, htexts, ?_⟩
    simp only [expansionOf, Piece.render_append, hrender, Piece.render_cons, Piece.render_nil,
      Piece.chars, String.append_empty, Outline.filled, outline]

/-- A fragment with a fragment of its own, a URL, and a target that stands for its text. -/
theorem expand_compositional_nested :
    let engine : Engine :=
      ⟨default, .ofList [("a.md", ⟨"A:[](b.md)", .empty⟩), ("b.md", ⟨"B", .empty⟩)],
        [.exact false, .fallback], { comments := true }⟩
    let content := ":[](a.md) :[](//c) :[](d)"
    ∃ e, engine.expand "i.md" content = .ok e ∧
      e.content = "<!-- transclude: a.md -->\nA<!-- transclude: b.md -->\nB :[](//c) d" ∧
      (∀ d ∈ directives (engine.scanned "i.md" content), engine.Replaceable "i.md" d) ∧
      ∃ texts, List.Forall₂ (DirectiveText engine "i.md")
          (directives (engine.scanned "i.md" content)) texts ∧
        e.content = (Outline.ofText (engine.scanned "i.md" content)).filled texts := by
  intro engine content
  have he : engine.expand "i.md" content = .ok
      ⟨"<!-- transclude: a.md -->\nA<!-- transclude: b.md -->\nB :[](//c) d", .empty,
        ["a.md", "b.md"]⟩ := by decide +kernel
  obtain ⟨hiff, htexts⟩ := engine.expand_compositional "i.md" content
  exact ⟨_, he, rfl, hiff.mp ⟨_, he⟩, htexts _ he⟩

end Engine

end Transclusion
