import Transclusion.Expansion
import Transclusion.Proofs.Results

/-!
# The pieces of an expansion

An expansion threads what it gathers through all its levels. Here the same walk gives a list of
pieces instead, from which the content and everything gathered can be read off afterwards.

* `Piece` — a stretch of text, a directive left as it is written, or the start of a fragment;
* `Engine.pieces` — the pieces of a content, by the recursion of `Engine.expandContent`;
* `Engine.expandContent_eq` — the expansion is what its pieces say, and fails as they do;
* `Engine.pieces_append_eq_ok` — documents further out do nothing but forbid their keys.

The pieces of a fragment follow its start directly. So the pieces of a content are those of its
directives in a row, and each statement about them comes from one about `collect`.
-/

namespace Transclusion

/-! ## Pieces -/

/-- One piece of what an expansion puts together. -/
inductive Piece
  /-- Text between directives, or text that was put in as it stands. -/
  | text (cs : List Char)
  /-- A directive that stays as it is written. -/
  | left (d : Directive)
  /-- The start of a fragment: the comment in front of it, its key and its metadata. -/
  | fragment (marker key : String) (metadata : Metadata)

namespace Piece

/-- The text of a piece. -/
def chars : Piece → List Char
  | text cs => cs
  | left d => d.source.toList
  | fragment marker _ _ => marker.toList

/-- The key of a fragment that starts here. -/
def key? : Piece → Option String
  | fragment _ key _ => some key
  | _ => none

/-- What is gathered from a piece. -/
def gather (g : Gathered) : Piece → Gathered
  | fragment _ key metadata => g.record key metadata
  | _ => g

/-- The characters of some pieces. -/
def allChars (ps : List Piece) : List Char :=
  ps.flatMap chars

/-- The text that pieces make up. -/
def render (ps : List Piece) : String :=
  String.ofList (allChars ps)

/-- The keys of the fragments that start among the pieces, in order. -/
def keys (ps : List Piece) : List String :=
  ps.filterMap key?

@[simp] theorem render_nil : render [] = "" := rfl

@[simp] theorem render_cons (p : Piece) (ps : List Piece) :
    render (p :: ps) = String.ofList p.chars ++ render ps := by
  simp [render, allChars]

@[simp] theorem render_append (ps qs : List Piece) :
    render (ps ++ qs) = render ps ++ render qs := by
  simp [render, allChars]

theorem render_flatten (parts : List (List Piece)) :
    render parts.flatten = String.join (parts.map render) := by
  induction parts with
  | nil => rfl
  | cons part parts ih => simp [ih]

theorem toList_render (ps : List Piece) : (render ps).toList = allChars ps :=
  String.toList_ofList

@[simp] theorem keys_nil : keys [] = [] := rfl

@[simp] theorem keys_text (cs : List Char) (ps : List Piece) :
    keys (text cs :: ps) = keys ps := rfl

@[simp] theorem keys_left (d : Directive) (ps : List Piece) :
    keys (left d :: ps) = keys ps := rfl

@[simp] theorem keys_fragment (marker key : String) (metadata : Metadata) (ps : List Piece) :
    keys (fragment marker key metadata :: ps) = key :: keys ps := rfl

@[simp] theorem keys_append (ps qs : List Piece) : keys (ps ++ qs) = keys ps ++ keys qs :=
  List.filterMap_append

/-- Nothing is gathered where no fragment starts. -/
theorem foldl_gather_of_key?_eq_none {ps : List Piece} (h : ∀ p ∈ ps, p.key? = none)
    (g : Gathered) : ps.foldl gather g = g := by
  induction ps with
  | nil => rfl
  | cons p ps ih =>
    obtain ⟨hfirst, hothers⟩ := List.forall_mem_cons.mp h
    rw [List.foldl_cons]
    cases p with
    | text cs => exact ih hothers
    | left d => exact ih hothers
    | fragment marker key metadata => exact nomatch hfirst

/-- Gathering from pieces adds exactly their keys. -/
theorem mem_resolved_gather {k : String} {ps : List Piece} {g : Gathered} :
    k ∈ (ps.foldl gather g).resolved ↔ k ∈ g.resolved ∨ k ∈ keys ps := by
  induction ps generalizing g with
  | nil => simp
  | cons p ps ih =>
    rw [List.foldl_cons, ih]
    cases p with
    | text cs => rfl
    | left d => rfl
    | fragment marker key metadata =>
      simp only [gather, Gathered.record, keys_fragment, List.mem_cons]
      split
      · next hold =>
        -- a key that was gathered before is not gathered again, but it is there
        rw [List.contains_iff_mem] at hold
        constructor
        · rintro (h | h)
          · exact .inl h
          · exact .inr (.inr h)
        · rintro (h | rfl | h)
          · exact .inl h
          · exact .inl hold
          · exact .inr h
      · simp only [List.mem_append, List.mem_singleton, or_assoc]

end Piece

namespace Engine

/-- How the pieces of a fragment are found: given the path to it, its key and its content. -/
abbrev Builder := List String → String → String → Except Obstacle (List Piece)

/-- The pieces that take the place of a fragment. -/
def fragmentPieces (engine : Engine) (build : Builder) (path : List String) (context : String)
    (d : Directive) (resolver : String) (fragment : Fragment) : Except Obstacle (List Piece) :=
  match fragment.key with
  | none => .ok [.text fragment.content.toList]
  | some key =>
      if path.contains key then
        .error (.error (.cyclicTransclusion context d.target (path ++ [key])))
      else do
        let ps ← build (path ++ [key]) key fragment.content
        return .fragment (engine.marker context d.target resolver key) key fragment.metadata :: ps

/-- The pieces that take the place of a directive. -/
def directivePieces (engine : Engine) (build : Builder) (path : List String) (context : String)
    (d : Directive) : Except Obstacle (List Piece) := do
  match ← (engine.resolve context d).mapError .error with
  | some resolution =>
      collect (fragmentPieces engine build path context d resolution.resolver) resolution.fragments
  | none =>
      if d.isRemote then return [.left d]
      else throw (.error (.unresolvedTarget context d.target))

/-- The pieces of a part of an outline. -/
def partPieces (engine : Engine) (build : Builder) (path : List String) (context : String)
    (part : List Char × Directive) : Except Obstacle (List Piece) := do
  let ps ← directivePieces engine build path context part.2
  return .text part.1 :: ps

/-- The outline of the text that is scanned for a content at a key. -/
def outline (engine : Engine) (key content : String) : Outline :=
  Outline.ofText (engine.scanned key content)

/-- The pieces of a content. -/
def contentPieces (engine : Engine) (build : Builder) : Builder :=
  fun path key content => do
    let outline := engine.outline key content
    let ps ← collect (partPieces engine build path key) outline.parts
    return ps ++ [.text outline.tail]

/-- The pieces of a content, at most `depth` levels deep. -/
def pieces (engine : Engine) : (depth : Nat) → Builder
  | 0, _, _, _ => .error .endless
  | depth + 1, path, key, content =>
      contentPieces engine (pieces engine depth) path key content

/-! ### Expansion by pieces -/

/-- What an expansion is if it has the given pieces, on top of what was gathered before. -/
def ofPieces (g : Gathered) (ps : List Piece) : String × Gathered :=
  (Piece.render ps, ps.foldl Piece.gather g)

theorem ofPieces_append (g : Gathered) (ps qs : List Piece) :
    ofPieces g (ps ++ qs) =
      ((ofPieces g ps).1 ++ (ofPieces (ofPieces g ps).2 qs).1,
        (ofPieces (ofPieces g ps).2 qs).2) := by
  simp [ofPieces]

section ByPieces

variable {engine : Engine} {expand : Expander} {build : Builder}

theorem substitute_eq
    (h : ∀ path key content g,
      expand path key content g = (build path key content).map (ofPieces g))
    (path : List String) (context : String) (d : Directive) (resolver : String)
    (fragment : Fragment) (g : Gathered) :
    substitute engine expand path context d resolver fragment g =
      (fragmentPieces engine build path context d resolver fragment).map (ofPieces g) := by
  simp only [substitute, fragmentPieces]
  cases fragment.key with
  | none => simp [Except.map, ofPieces, Piece.chars, Piece.gather]
  | some key =>
    dsimp only
    split
    · rfl
    · rw [h]
      cases build (path ++ [key]) key fragment.content with
      | error e => rfl
      | ok ps =>
        simp [Except.map, bind, Except.bind, pure, Except.pure, ofPieces, Piece.chars,
          Piece.gather]

theorem substituteAll_eq
    (h : ∀ path key content g,
      expand path key content g = (build path key content).map (ofPieces g))
    (path : List String) (context : String) (d : Directive) (resolver : String)
    (fragments : List Fragment) (g : Gathered) :
    substituteAll engine expand path context d resolver fragments g =
      (collect (fragmentPieces engine build path context d resolver) fragments).map
        (ofPieces g) := by
  induction fragments generalizing g with
  | nil => rfl
  | cons fragment fragments ih =>
    rw [substituteAll, substitute_eq h, collect]
    cases fragmentPieces engine build path context d resolver fragment with
    | error e => rfl
    | ok here =>
      simp only [Except.map, bind, Except.bind, ih]
      cases collect (fragmentPieces engine build path context d resolver) fragments with
      | error e => rfl
      | ok rest => simp [pure, Except.pure, ofPieces_append]

theorem replace_eq
    (h : ∀ path key content g,
      expand path key content g = (build path key content).map (ofPieces g))
    (path : List String) (context : String) (d : Directive) (g : Gathered) :
    replace engine expand path context d g =
      (directivePieces engine build path context d).map (ofPieces g) := by
  simp only [replace, directivePieces]
  cases (engine.resolve context d).mapError Obstacle.error with
  | error e => rfl
  | ok answer =>
    cases answer with
    | some resolution => exact substituteAll_eq h path context d _ _ g
    | none =>
      simp only [bind, Except.bind]
      split
      · simp [Except.map, pure, Except.pure, ofPieces, Piece.chars, Piece.gather]
      · rfl

theorem replaceAll_eq
    (h : ∀ path key content g,
      expand path key content g = (build path key content).map (ofPieces g))
    (path : List String) (context : String) (tail : List Char)
    (parts : List (List Char × Directive)) (g : Gathered) :
    replaceAll engine expand path context tail parts g =
      (collect (partPieces engine build path context) parts).map
        fun ps => ofPieces g (ps ++ [.text tail]) := by
  induction parts generalizing g with
  | nil => simp [replaceAll, Except.map, ofPieces, Piece.chars, Piece.gather]
  | cons part parts ih =>
    obtain ⟨gap, d⟩ := part
    rw [replaceAll, replace_eq h, collect, partPieces]
    cases directivePieces engine build path context d with
    | error e => rfl
    | ok here =>
      simp only [Except.map, bind, Except.bind, pure, Except.pure, ih]
      cases collect (partPieces engine build path context) parts with
      | error e => rfl
      | ok rest =>
        simp [ofPieces, Piece.chars, Piece.gather, String.append_assoc]

theorem replaceAll_outline_eq
    (h : ∀ path key content g,
      expand path key content g = (build path key content).map (ofPieces g))
    (path : List String) (key content : String) (g : Gathered) :
    replaceAll engine expand path key (engine.outline key content).tail
        (engine.outline key content).parts g =
      (contentPieces engine build path key content).map (ofPieces g) := by
  rw [replaceAll_eq h, contentPieces]
  cases collect (partPieces engine build path key) (engine.outline key content).parts with
  | error e => rfl
  | ok ps => rfl

end ByPieces

/-- An expansion is what its pieces say, and fails as they do. -/
theorem expandContent_eq (engine : Engine) (depth : Nat) (path : List String)
    (key content : String) (g : Gathered) :
    expandContent engine depth path key content g =
      (engine.pieces depth path key content).map (ofPieces g) := by
  induction depth generalizing path key content g with
  | zero => rfl
  | succ depth ih => exact replaceAll_outline_eq ih path key content g

/-! ### What a level consists of -/

section Levels

variable {engine : Engine} {build : Builder} {path : List String} {context : String}
  {d : Directive} {ps : List Piece} {o : Obstacle}

theorem fragmentPieces_eq_ok {resolver : String} {fragment : Fragment} :
    fragmentPieces engine build path context d resolver fragment = .ok ps ↔
      (fragment.key = none ∧ ps = [.text fragment.content.toList]) ∨
      ∃ key sub, fragment.key = some key ∧ key ∉ path ∧
        build (path ++ [key]) key fragment.content = .ok sub ∧
        ps = .fragment (engine.marker context d.target resolver key) key fragment.metadata
          :: sub := by
  simp only [fragmentPieces]
  cases fragment.key with
  | none => simp [eq_comm]
  | some key =>
    by_cases hpath : key ∈ path
    · simp [hpath]
    · simp [hpath, bind_eq_ok, pure, Except.pure, @eq_comm _ ps]

theorem fragmentPieces_eq_error {resolver : String} {fragment : Fragment} :
    fragmentPieces engine build path context d resolver fragment = .error o ↔
      ∃ key, fragment.key = some key ∧
        (key ∈ path ∧ o = .error (.cyclicTransclusion context d.target (path ++ [key])) ∨
          key ∉ path ∧ build (path ++ [key]) key fragment.content = .error o) := by
  simp only [fragmentPieces]
  cases fragment.key with
  | none => simp
  | some key =>
    by_cases hpath : key ∈ path
    · simp [hpath, eq_comm]
    · simp [hpath, bind_eq_error, pure, Except.pure]

theorem directivePieces_eq_ok :
    directivePieces engine build path context d = .ok ps ↔
      (engine.resolve context d = .ok none ∧ d.isRemote ∧ ps = [.left d]) ∨
      ∃ resolution, engine.resolve context d = .ok (some resolution) ∧
        collect (fragmentPieces engine build path context d resolution.resolver)
          resolution.fragments = .ok ps := by
  simp only [directivePieces, bind_eq_ok, mapError_eq_ok]
  constructor
  · rintro ⟨answer, hanswer, h⟩
    cases answer with
    | some resolution => exact .inr ⟨resolution, hanswer, h⟩
    | none =>
      dsimp only at h
      split at h
      · next hremote =>
        cases h
        exact .inl ⟨hanswer, hremote, rfl⟩
      · exact nomatch h
  · rintro (⟨hanswer, hremote, rfl⟩ | ⟨resolution, hanswer, h⟩)
    · exact ⟨none, hanswer, by simp only [hremote, if_true]; rfl⟩
    · exact ⟨some resolution, hanswer, h⟩

theorem directivePieces_eq_error :
    directivePieces engine build path context d = .error o ↔
      (∃ e, engine.resolve context d = .error e ∧ o = .error e) ∨
      (engine.resolve context d = .ok none ∧ ¬ d.isRemote ∧
        o = .error (.unresolvedTarget context d.target)) ∨
      ∃ resolution, engine.resolve context d = .ok (some resolution) ∧
        collect (fragmentPieces engine build path context d resolution.resolver)
          resolution.fragments = .error o := by
  simp only [directivePieces, bind_eq_error, mapError_eq_ok, mapError_eq_error]
  refine or_congr_right ⟨?_, ?_⟩
  · rintro ⟨answer, hanswer, h⟩
    cases answer with
    | some resolution => exact .inr ⟨resolution, hanswer, h⟩
    | none =>
      dsimp only at h
      split at h
      · exact nomatch h
      · next hlocal =>
        cases h
        exact .inl ⟨hanswer, hlocal, rfl⟩
  · rintro (⟨hanswer, hlocal, rfl⟩ | ⟨resolution, hanswer, h⟩)
    · exact ⟨none, hanswer, by simp only [hlocal, if_false, Bool.false_eq_true]; rfl⟩
    · exact ⟨some resolution, hanswer, h⟩

theorem partPieces_eq_ok {part : List Char × Directive} :
    partPieces engine build path context part = .ok ps ↔
      ∃ sub, directivePieces engine build path context part.2 = .ok sub ∧
        ps = .text part.1 :: sub := by
  simp [partPieces, bind_eq_ok, pure, Except.pure, @eq_comm _ ps]

theorem partPieces_eq_error {part : List Char × Directive} :
    partPieces engine build path context part = .error o ↔
      directivePieces engine build path context part.2 = .error o := by
  simp [partPieces, bind_eq_error, pure, Except.pure]

theorem contentPieces_eq_ok {key content : String} :
    contentPieces engine build path key content = .ok ps ↔
      ∃ sub, collect (partPieces engine build path key) (engine.outline key content).parts
          = .ok sub ∧
        ps = sub ++ [.text (engine.outline key content).tail] := by
  simp [contentPieces, bind_eq_ok, pure, Except.pure, @eq_comm _ ps]

theorem contentPieces_eq_error {key content : String} :
    contentPieces engine build path key content = .error o ↔
      collect (partPieces engine build path key) (engine.outline key content).parts
        = .error o := by
  simp [contentPieces, bind_eq_error, pure, Except.pure]

end Levels

/-! ### Documents further out -/

/-- None of some keys starts a fragment among the pieces. -/
def Avoids (outer : List String) (ps : List Piece) : Prop :=
  ∀ key ∈ Piece.keys ps, key ∉ outer

theorem avoids_append {outer : List String} (ps qs : List Piece) :
    Avoids outer (ps ++ qs) ↔ Avoids outer ps ∧ Avoids outer qs := by
  simp only [Avoids, Piece.keys_append, List.forall_mem_append]

theorem avoids_nil (outer : List String) : Avoids outer [] := by
  simp [Avoids]

section Outer

variable {engine : Engine} {build : Builder} {outer : List String}

theorem collect_avoids {α : Type} {f g : α → Except Obstacle (List Piece)} {as : List α}
    (h : ∀ a ∈ as, ∀ ps, f a = .ok ps ↔ g a = .ok ps ∧ Avoids outer ps) (ps : List Piece) :
    collect f as = .ok ps ↔ collect g as = .ok ps ∧ Avoids outer ps :=
  collect_eq_ok_and (avoids_nil outer) avoids_append h

/-- What documents further out do to the pieces of a content: they forbid their keys. -/
def Forbidding (build : Builder) (outer : List String) : Prop :=
  ∀ path key content ps, build (outer ++ path) key content = .ok ps ↔
    build path key content = .ok ps ∧ Avoids outer ps

theorem fragmentPieces_append_eq_ok (h : Forbidding build outer) {path : List String}
    {context : String} {d : Directive} {resolver : String} {fragment : Fragment}
    {ps : List Piece} :
    fragmentPieces engine build (outer ++ path) context d resolver fragment = .ok ps ↔
      fragmentPieces engine build path context d resolver fragment = .ok ps ∧
        Avoids outer ps := by
  simp only [fragmentPieces_eq_ok, List.append_assoc]
  constructor
  · rintro (⟨hkey, rfl⟩ | ⟨k, sub, hkey, hk, hsub, rfl⟩)
    · exact ⟨.inl ⟨hkey, rfl⟩, avoids_nil outer⟩
    · obtain ⟨hsub, havoids⟩ := (h _ _ _ _).mp hsub
      rw [List.mem_append, not_or] at hk
      refine ⟨.inr ⟨k, sub, hkey, hk.2, hsub, rfl⟩, ?_⟩
      exact List.forall_mem_cons.mpr ⟨hk.1, havoids⟩
  · rintro ⟨⟨hkey, rfl⟩ | ⟨k, sub, hkey, hk, hsub, rfl⟩, havoids⟩
    · exact .inl ⟨hkey, rfl⟩
    · obtain ⟨hkouter, hsubouter⟩ := List.forall_mem_cons.mp havoids
      refine .inr ⟨k, sub, hkey, ?_, (h _ _ _ _).mpr ⟨hsub, hsubouter⟩, rfl⟩
      rw [List.mem_append, not_or]
      exact ⟨hkouter, hk⟩

theorem partPieces_append_eq_ok (h : Forbidding build outer) {path : List String}
    {context : String} {part : List Char × Directive} {ps : List Piece} :
    partPieces engine build (outer ++ path) context part = .ok ps ↔
      partPieces engine build path context part = .ok ps ∧ Avoids outer ps := by
  have hfragments : ∀ (resolution : Resolution) (ps : List Piece),
      collect (fragmentPieces engine build (outer ++ path) context part.2 resolution.resolver)
          resolution.fragments = .ok ps ↔
        collect (fragmentPieces engine build path context part.2 resolution.resolver)
          resolution.fragments = .ok ps ∧ Avoids outer ps :=
    fun resolution => collect_avoids fun fragment _ ps => fragmentPieces_append_eq_ok h
  simp only [partPieces_eq_ok, directivePieces_eq_ok, hfragments]
  constructor
  · rintro ⟨sub, ⟨hanswer, hremote, rfl⟩ | ⟨resolution, hanswer, hsub, havoids⟩, rfl⟩
    · exact ⟨⟨_, .inl ⟨hanswer, hremote, rfl⟩, rfl⟩, avoids_nil outer⟩
    · exact ⟨⟨sub, .inr ⟨resolution, hanswer, hsub⟩, rfl⟩, havoids⟩
  · rintro ⟨⟨sub, ⟨hanswer, hremote, rfl⟩ | ⟨resolution, hanswer, hsub⟩, rfl⟩, havoids⟩
    · exact ⟨_, .inl ⟨hanswer, hremote, rfl⟩, rfl⟩
    · exact ⟨sub, .inr ⟨resolution, hanswer, hsub, havoids⟩, rfl⟩

theorem contentPieces_append_eq_ok (h : Forbidding build outer) {path : List String}
    {key content : String} {ps : List Piece} :
    contentPieces engine build (outer ++ path) key content = .ok ps ↔
      contentPieces engine build path key content = .ok ps ∧ Avoids outer ps := by
  have hparts : ∀ (parts : List (List Char × Directive)) (ps : List Piece),
      collect (partPieces engine build (outer ++ path) key) parts = .ok ps ↔
        collect (partPieces engine build path key) parts = .ok ps ∧ Avoids outer ps :=
    fun parts => collect_avoids fun part _ ps => partPieces_append_eq_ok h
  simp only [contentPieces_eq_ok, hparts]
  constructor
  · rintro ⟨sub, ⟨hsub, havoids⟩, rfl⟩
    exact ⟨⟨sub, hsub, rfl⟩, (avoids_append _ _).mpr ⟨havoids, avoids_nil outer⟩⟩
  · rintro ⟨⟨sub, hsub, rfl⟩, havoids⟩
    exact ⟨sub, ⟨hsub, ((avoids_append _ _).mp havoids).1⟩, rfl⟩

end Outer

/-- Documents further out do nothing but forbid their keys. -/
theorem pieces_append_eq_ok {engine : Engine} {depth : Nat} {outer path : List String}
    {key content : String} {ps : List Piece} :
    engine.pieces depth (outer ++ path) key content = .ok ps ↔
      engine.pieces depth path key content = .ok ps ∧ Avoids outer ps := by
  induction depth generalizing path key content ps with
  | zero => simp [pieces]
  | succ depth ih =>
    -- the levels below forbid the same keys, whatever the path that leads to them
    exact contentPieces_append_eq_ok fun path key content ps => ih

end Engine

end Transclusion
