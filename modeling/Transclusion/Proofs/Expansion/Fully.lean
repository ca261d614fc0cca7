import Mathlib.Order.Filter.Finite
import Transclusion.Proofs.Expansion.Pieces
import Transclusion.Proofs.Obstacle

/-!
# Expansions without a limit

An expansion that ends within some depth comes to the same within any greater one. So an expansion
that may go as deep as it needs to is what the deep ones have in common, and all its levels are
alike.

* `Engine.Leads`, `Engine.contentPieces_congr` — pieces depend on the levels below only through the
  fragments that resolution gives;
* `Engine.settles_pieces` — depth does not change pieces that are found;
* `Engine.fullPieces` — the pieces of a content without a limit, and
  `Engine.eventually_pieces_eq` — those that are found within a great depth are the same;
* `Engine.fullPieces_eq`, `Engine.expandFully_eq_replaceAll` — the levels without a limit;
* `Engine.expand_eq` — the expansion is what these pieces say, and fails as they do.
-/

namespace Transclusion.Engine

variable {engine : Engine}

/-! ## Levels -/

/-- A directive of the text that is scanned for `content` at `key` resolves to the fragment. -/
def Leads (engine : Engine) (key content : String) (d : Directive) (fragment : Fragment) : Prop :=
  d ∈ directives (engine.scanned key content) ∧
    ∃ resolution, engine.resolve key d = .ok (some resolution) ∧ fragment ∈ resolution.fragments

/-- Pieces depend on the levels below only through the fragments that resolution gives. -/
theorem contentPieces_congr {build build' : Builder} {path : List String} {key content : String}
    (h : ∀ d fragment, engine.Leads key content d fragment → ∀ k, fragment.key = some k →
      k ∉ path → build (path ++ [k]) k fragment.content = build' (path ++ [k]) k fragment.content) :
    contentPieces engine build path key content =
      contentPieces engine build' path key content := by
  rw [contentPieces, contentPieces, collect_congr fun part hpart => ?_]
  have hd : part.2 ∈ directives (engine.scanned key content) := List.mem_map_of_mem hpart
  rw [partPieces, partPieces, directivePieces, directivePieces]
  cases hanswer : engine.resolve key part.2 with
  | error e => rfl
  | ok answer =>
    cases answer with
    | none => rfl
    | some resolution =>
      have hfragments : collect (fragmentPieces engine build path key part.2 resolution.resolver)
          resolution.fragments =
          collect (fragmentPieces engine build' path key part.2 resolution.resolver)
            resolution.fragments := by
        refine collect_congr fun fragment hfragment => ?_
        simp only [fragmentPieces]
        cases hkey : fragment.key with
        | none => rfl
        | some k =>
          by_cases hk : k ∈ path
          · simp only [List.contains_iff_mem, hk, if_true]
          · simp only [h part.2 fragment ⟨hd, resolution, hanswer, hfragment⟩ k hkey hk]
      simp only [Except.mapError, bind, Except.bind, hfragments]

/-- A content leads to finitely many fragments. -/
theorem finite_leads (engine : Engine) (key content : String) :
    {fragment | ∃ d, engine.Leads key content d fragment}.Finite := by
  let fragmentsOf (d : Directive) : List Fragment :=
    (engine.resolve key d).toOption.join.elim [] Resolution.fragments
  refine (List.finite_toSet
    ((directives (engine.scanned key content)).flatMap fragmentsOf)).subset ?_
  rintro fragment ⟨d, hd, resolution, hanswer, hfragment⟩
  have hfragments : fragmentsOf d = resolution.fragments := by
    simp only [fragmentsOf, hanswer]
    rfl
  exact List.mem_flatMap.mpr ⟨d, hd, hfragments ▸ hfragment⟩

/-- Why the pieces of a content are not found: for a directive that has no answer, for a fragment
that is a document on the path, or for one whose own pieces are not found. -/
theorem exists_of_contentPieces_eq_error {build : Builder} {path : List String}
    {key content : String} {o : Obstacle}
    (h : contentPieces engine build path key content = .error o) :
    ∃ d ∈ directives (engine.scanned key content),
      (∃ e, engine.resolve key d = .error e ∧ o = .error e) ∨
      (engine.resolve key d = .ok none ∧ ¬ d.isRemote ∧
        o = .error (.unresolvedTarget key d.target)) ∨
      ∃ fragment k, engine.Leads key content d fragment ∧ fragment.key = some k ∧
        (k ∈ path ∧ o = .error (.cyclicTransclusion key d.target (path ++ [k])) ∨
          k ∉ path ∧ build (path ++ [k]) k fragment.content = .error o) := by
  obtain ⟨front, part, back, hparts, -, hpart⟩ := collect_eq_error.mp (contentPieces_eq_error.mp h)
  have hmem : part ∈ (engine.outline key content).parts := by
    rw [hparts]
    exact List.mem_append_right front List.mem_cons_self
  have hd : part.2 ∈ directives (engine.scanned key content) := List.mem_map_of_mem hmem
  refine ⟨part.2, hd, ?_⟩
  rw [partPieces_eq_error, directivePieces_eq_error] at hpart
  refine hpart.imp_right (Or.imp_right ?_)
  rintro ⟨resolution, hanswer, hfragments⟩
  obtain ⟨before, fragment, after, heq, -, hfragment⟩ := collect_eq_error.mp hfragments
  obtain ⟨k, hkey, hcase⟩ := fragmentPieces_eq_error.mp hfragment
  refine ⟨fragment, k, ⟨hd, resolution, hanswer, ?_⟩, hkey, hcase⟩
  rw [heq]
  exact List.mem_append_right before List.mem_cons_self

/-- Where an expansion does not end, a fragment leads to another one that does not. -/
theorem exists_leads_of_endless {build : Builder} {path : List String} {key content : String}
    (h : contentPieces engine build path key content = .error .endless) :
    ∃ d fragment k, engine.Leads key content d fragment ∧ fragment.key = some k ∧ k ∉ path ∧
      build (path ++ [k]) k fragment.content = .error .endless := by
  obtain ⟨d, -, ⟨e, -, heq⟩ | ⟨-, -, heq⟩ | ⟨fragment, k, hleads, hkey, hcase⟩⟩ :=
    exists_of_contentPieces_eq_error h
  · exact nomatch heq
  · exact nomatch heq
  · rcases hcase with ⟨-, heq⟩ | ⟨hpath, hbelow⟩
    · exact nomatch heq
    · exact ⟨d, fragment, k, hleads, hkey, hpath, hbelow⟩

/-! ## More depth -/

section Extends

/-- Where pieces are found one way, the other way finds the same, and where one fails, so does the
other. The other way may do so where the first one does not end. -/
def Extends (build build' : Builder) : Prop :=
  ∀ path key content, build path key content ≠ .error .endless →
    build' path key content = build path key content

variable {build build' : Builder} {path : List String} {context : String} {d : Directive}

theorem Extends.fragmentPieces_eq (h : Extends build build') {resolver : String}
    {fragment : Fragment}
    (hends : fragmentPieces engine build path context d resolver fragment ≠ .error .endless) :
    fragmentPieces engine build' path context d resolver fragment =
      fragmentPieces engine build path context d resolver fragment := by
  rw [ne_eq, fragmentPieces_eq_error] at hends
  simp only [fragmentPieces]
  cases hkey : fragment.key with
  | none => rfl
  | some key =>
    by_cases hpath : key ∈ path
    · simp only [List.contains_iff_mem, hpath, if_true]
    · have hbuild : build (path ++ [key]) key fragment.content ≠ .error .endless :=
        fun hendless => hends ⟨key, hkey, .inr ⟨hpath, hendless⟩⟩
      simp only [h _ _ _ hbuild]

theorem Extends.directivePieces_eq (h : Extends build build')
    (hends : directivePieces engine build path context d ≠ .error .endless) :
    directivePieces engine build' path context d = directivePieces engine build path context d := by
  rw [ne_eq, directivePieces_eq_error] at hends
  rw [directivePieces, directivePieces]
  cases hanswer : engine.resolve context d with
  | error e => rfl
  | ok answer =>
    cases answer with
    | none => rfl
    | some resolution =>
      have hfragments :
          collect (fragmentPieces engine build' path context d resolution.resolver)
            resolution.fragments =
          collect (fragmentPieces engine build path context d resolution.resolver)
            resolution.fragments :=
        collect_eq_of_ne_error (fun _ _ hfragment => h.fragmentPieces_eq hfragment)
          fun hendless => hends (.inr (.inr ⟨resolution, hanswer, hendless⟩))
      simp only [Except.mapError, bind, Except.bind, hfragments]

theorem Extends.partPieces_eq (h : Extends build build') {part : List Char × Directive}
    (hends : partPieces engine build path context part ≠ .error .endless) :
    partPieces engine build' path context part = partPieces engine build path context part := by
  rw [ne_eq, partPieces_eq_error] at hends
  rw [partPieces, partPieces, h.directivePieces_eq hends]

theorem Extends.contentPieces (h : Extends build build') :
    Extends (contentPieces engine build) (contentPieces engine build') := by
  intro path key content hends
  rw [ne_eq, contentPieces_eq_error] at hends
  rw [Engine.contentPieces, Engine.contentPieces]
  simp only [collect_eq_of_ne_error (fun part _ => h.partPieces_eq) hends]

end Extends

/-- Depth does not change pieces that are found. -/
theorem settles_pieces (engine : Engine) (path : List String) (key content : String) :
    Settles fun depth => engine.pieces depth path key content := by
  intro depth
  induction depth generalizing path key content with
  | zero => exact fun _ _ hends => absurd rfl hends
  | succ depth ih =>
    intro depth' hle hends
    cases depth' with
    | zero => exact absurd hle (Nat.not_succ_le_zero depth)
    | succ depth' =>
      have hextends : Extends (engine.pieces depth) (engine.pieces depth') :=
        fun path key content => ih path key content (Nat.le_of_succ_le_succ hle)
      exact hextends.contentPieces path key content hends

/-! ## Without a limit -/

/-- The pieces of a content, as deep as it leads. -/
def fullPieces (engine : Engine) : Builder :=
  fun path key content =>
    unlimited (fun depth => engine.pieces depth path key content) (engine.documents.size + 1)

/-- Within a great depth, the pieces are found that are found without a limit. -/
theorem eventually_pieces_eq (engine : Engine) (path : List String) (key content : String) :
    ∀ᶠ depth in Filter.atTop,
      engine.pieces depth path key content = engine.fullPieces path key content :=
  (engine.settles_pieces path key content).eventually_eq_unlimited _

theorem exists_pieces_eq (engine : Engine) (path : List String) (key content : String) :
    ∃ depth, engine.pieces depth path key content = engine.fullPieces path key content :=
  (engine.eventually_pieces_eq path key content).exists

theorem extends_fullPieces (engine : Engine) (depth : Nat) :
    Extends (engine.pieces depth) engine.fullPieces :=
  fun path key content hends => (engine.settles_pieces path key content).unlimited_of_ends hends _

/-- The pieces of a content are not found within any depth if they are not found without a limit. -/
theorem fullPieces_eq_endless_iff {path : List String} {key content : String} :
    engine.fullPieces path key content = .error .endless ↔
      ∀ depth, engine.pieces depth path key content = .error .endless :=
  (engine.settles_pieces path key content).unlimited_eq_endless_iff _

/-- Without a limit all levels are alike. -/
theorem fullPieces_eq (path : List String) (key content : String) :
    engine.fullPieces path key content =
      contentPieces engine engine.fullPieces path key content := by
  have hbelow : ∀ᶠ depth in Filter.atTop,
      ∀ fragment ∈ {fragment | ∃ d, engine.Leads key content d fragment},
        ∀ k, fragment.key = some k → engine.pieces depth (path ++ [k]) k fragment.content =
          engine.fullPieces (path ++ [k]) k fragment.content := by
    refine (Filter.eventually_all_finite (engine.finite_leads key content)).mpr ?_
    intro fragment _
    cases hkey : fragment.key with
    | none => exact .of_forall fun _ _ hsome => nomatch hsome
    | some k =>
      refine (engine.eventually_pieces_eq (path ++ [k]) k fragment.content).mono ?_
      rintro depth hdepth k' hk'
      cases hk'
      exact hdepth
  have hhere := (Filter.tendsto_add_atTop_nat 1).eventually
    (engine.eventually_pieces_eq path key content)
  obtain ⟨depth, hbelow, hhere⟩ := (hbelow.and hhere).exists
  rw [← hhere]
  exact contentPieces_congr fun d fragment hleads k hkey _ => hbelow fragment ⟨d, hleads⟩ k hkey

/-- An expansion without a limit is what its pieces say, and fails as they do. -/
theorem expandFully_eq (engine : Engine) (path : List String) (key content : String)
    (g : Gathered) :
    engine.expandFully path key content g =
      (engine.fullPieces path key content).map (ofPieces g) := by
  have hexpand : (fun depth => expandContent engine depth path key content g) =
      fun depth => (engine.pieces depth path key content).map (ofPieces g) :=
    funext fun depth => expandContent_eq engine depth path key content g
  have hsettles := (engine.settles_pieces path key content).map (ofPieces g)
  obtain ⟨depth, hdepth, hdepth'⟩ := ((hsettles.eventually_eq_unlimited
    (engine.documents.size + 1)).and (engine.eventually_pieces_eq path key content)).exists
  rw [expandFully, hexpand, ← hdepth, hdepth']

/-- An expansion goes on below as it began. -/
theorem expandFully_eq_replaceAll (engine : Engine) (path : List String) (key content : String)
    (g : Gathered) :
    engine.expandFully path key content g =
      replaceAll engine engine.expandFully path key (engine.outline key content).tail
        (engine.outline key content).parts g := by
  rw [replaceAll_outline_eq engine.expandFully_eq, expandFully_eq, fullPieces_eq]

/-- The expansion that pieces make up. -/
def expansionOf (ps : List Piece) : Expansion :=
  ⟨Piece.render ps, (ps.foldl Piece.gather .empty).tree, (ps.foldl Piece.gather .empty).resolved⟩

theorem mem_resolved_expansionOf {key : String} {ps : List Piece} :
    key ∈ (expansionOf ps).resolved ↔ key ∈ Piece.keys ps := by
  rw [expansionOf, Piece.mem_resolved_gather]
  simp [Gathered.empty]

theorem expand_eq (engine : Engine) (key content : String) :
    engine.expand key content = (engine.fullPieces [key] key content).map expansionOf := by
  rw [expand, expandFully_eq]
  cases engine.fullPieces [key] key content with
  | error o => rfl
  | ok ps => rfl

theorem expand_eq_ok {key content : String} {e : Expansion} :
    engine.expand key content = .ok e ↔
      ∃ ps, engine.fullPieces [key] key content = .ok ps ∧ e = expansionOf ps := by
  rw [expand_eq, map_eq_ok]
  simp only [@eq_comm _ e]

theorem expand_eq_error {key content : String} {o : Obstacle} :
    engine.expand key content = .error o ↔ engine.fullPieces [key] key content = .error o := by
  rw [expand_eq, map_eq_error]

/-! ### Documents further out -/

/-- Documents further out do nothing but forbid their keys. -/
theorem fullPieces_append_eq_ok {outer path : List String} {key content : String}
    {ps : List Piece} :
    engine.fullPieces (outer ++ path) key content = .ok ps ↔
      engine.fullPieces path key content = .ok ps ∧ Avoids outer ps := by
  obtain ⟨depth, hdepth, hdepth'⟩ := ((engine.eventually_pieces_eq (outer ++ path) key content).and
    (engine.eventually_pieces_eq path key content)).exists
  rw [← hdepth, ← hdepth', pieces_append_eq_ok]

end Transclusion.Engine
