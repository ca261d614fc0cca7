import Transclusion.Proofs.Expansion.Cycles

/-!
# Which directive an error is about

An expansion goes from left to right, and stops at the first directive that it cannot replace. The
error names the document that this directive stands in, however deep that is nested in others.

* `Engine.Trail` — the way to a directive, on which everything in front of it can be replaced;
* `Engine.Explains` — the errors that the directive at the end of it gives rise to;
* `Engine.expand_blames_first` — an expansion fails with an error exactly if there is such a way to
  such a directive.

Both are about expansions as they run. `Engine.fails_iff` takes them to the pieces of an expansion,
where `Engine.exists_fails` has found the way already.
-/

namespace Transclusion.Engine

variable {engine : Engine}

/-! ## Trails -/

/-- The directive can be replaced at a visit, whatever was gathered before. -/
def Expands (engine : Engine) (v : Visit) (d : Directive) : Prop :=
  ∀ g, ∃ replaced,
    replace engine engine.expandFully v.path v.key d g = .ok replaced

/-- The fragment can be put in at a visit, whatever was gathered before. -/
def PutsIn (engine : Engine) (v : Visit) (d : Directive) (resolver : String)
    (fragment : Fragment) : Prop :=
  ∀ g, ∃ replaced,
    substitute engine engine.expandFully v.path v.key d resolver fragment g = .ok replaced

/-- The directive stands in the text that is scanned at a visit, and all those in front of it can be
replaced. -/
def ComesTo (engine : Engine) (v : Visit) (d : Directive) : Prop :=
  ∃ front back, directives (engine.scanned v.key v.content) = front ++ d :: back ∧
    ∀ other ∈ front, engine.Expands v other

/-- The directive resolves to the fragment, and all those in front of it can be put in. -/
def Yields (engine : Engine) (v : Visit) (d : Directive) (fragment : Fragment) : Prop :=
  ∃ resolution before after, engine.resolve v.key d = .ok (some resolution) ∧
    resolution.fragments = before ++ fragment :: after ∧
    ∀ other ∈ before, engine.PutsIn v d resolution.resolver other

/-- A way along resolved directives, from one visit to a directive at another. All that stands in
front of it, at each visit, can be replaced. -/
inductive Trail (engine : Engine) : Visit → Visit → Directive → Prop
  | here {v : Visit} {d : Directive} (comes : engine.ComesTo v d) : Trail engine v v d
  | deeper {v w : Visit} {d d' : Directive} {fragment : Fragment} {key : String}
      (comes : engine.ComesTo v d) (yields : engine.Yields v d fragment)
      (hkey : fragment.key = some key) (hpath : key ∉ v.path)
      (trail : Trail engine ⟨v.path ++ [key], key, fragment.content⟩ w d') : Trail engine v w d'

/-- The errors that a directive itself gives rise to at a visit. -/
inductive Explains (engine : Engine) (v : Visit) (d : Directive) : Error → Prop
  /-- Nothing answers to a local target. -/
  | unresolved (hanswer : engine.resolve v.key d = .ok none) (hlocal : ¬ d.isRemote) :
      Explains engine v d (.unresolvedTarget v.key d.target)
  /-- A fragment is a document that the path came through. -/
  | cycle {fragment : Fragment} {key : String} (yields : engine.Yields v d fragment)
      (hkey : fragment.key = some key) (hpath : key ∈ v.path) :
      Explains engine v d (.cyclicTransclusion v.key d.target (v.path ++ [key]))
  /-- A document that the directive refers to has front matter that cannot be read. -/
  | unreadable {key : String} {error : FrontMatter.Error}
      (stumbles : Resolver.Stumbles engine.files engine.documents
        ⟨d.target, d.label, d.secondary, v.key⟩ engine.chain key error) :
      Explains engine v d (.invalidFrontMatter v.key key error.message)

/-! ## Trails by pieces -/

theorem forall_exists_map_ofPieces {x : Except Obstacle (List Piece)} :
    (∀ g, ∃ replaced, x.map (ofPieces g) = .ok replaced) ↔ ∃ ps, x = .ok ps := by
  cases x with
  | error e => exact iff_of_false (fun h => nomatch h .empty) nofun
  | ok ps => exact iff_of_true (fun g => ⟨_, rfl⟩) ⟨ps, rfl⟩

theorem expands_iff {v : Visit} {d : Directive} :
    engine.Expands v d ↔
      ∃ ps, directivePieces engine engine.fullPieces v.path v.key d = .ok ps := by
  simp only [Expands, replace_eq engine.expandFully_eq]
  exact forall_exists_map_ofPieces

theorem putsIn_iff {v : Visit} {d : Directive} {resolver : String} {fragment : Fragment} :
    engine.PutsIn v d resolver fragment ↔
      ∃ ps, fragmentPieces engine engine.fullPieces v.path v.key d resolver fragment = .ok ps := by
  simp only [PutsIn, substitute_eq engine.expandFully_eq]
  exact forall_exists_map_ofPieces

theorem passes_iff {v : Visit} {parts : List (List Char × Directive)} :
    engine.Passes v parts ↔ ∀ d ∈ parts.map Prod.snd, engine.Expands v d := by
  simp only [Passes, exists_collect_eq_ok, partPieces_eq_ok, expands_iff, List.forall_mem_map]
  refine forall₂_congr fun part _ => ?_
  rw [exists_comm]
  simp

theorem comesTo_iff {v : Visit} {d : Directive} : engine.ComesTo v d ↔ engine.First v d := by
  simp only [ComesTo, First, passes_iff]
  constructor
  · rintro ⟨front, back, hdirectives, hfront⟩
    obtain ⟨parts, others, hparts, rfl, hothers⟩ := List.map_eq_append_iff.mp hdirectives
    obtain ⟨⟨gap, d⟩, rest, rfl, rfl, -⟩ := List.map_eq_cons_iff.mp hothers
    exact ⟨parts, gap, rest, hparts, hfront⟩
  · rintro ⟨front, gap, back, hparts, hfront⟩
    refine ⟨front.map Prod.snd, back.map Prod.snd, ?_, hfront⟩
    show (engine.outline v.key v.content).parts.map Prod.snd = _
    rw [hparts, List.map_append, List.map_cons]

theorem yields_iff {v : Visit} {d : Directive} {fragment : Fragment} :
    engine.Yields v d fragment ↔ engine.Arrives v d fragment := by
  simp only [Yields, Arrives, exists_collect_eq_ok, putsIn_iff]

/-- The causes of a failure are what explains it. -/
theorem cause_iff (hstays : engine.chain.all Resolver.staysInSet) {v : Visit} {d : Directive}
    {e : Error} : engine.Cause v d e ↔ engine.Explains v d e := by
  constructor
  · rintro (hresolve | ⟨hanswer, hlocal⟩ | ⟨arrives, hkey, hpath⟩)
    · obtain ⟨key, error, stumbles, rfl⟩ :=
        (Resolver.resolveChain_eq_error_iff_stumbles hstays).mp hresolve
      exact .unreadable stumbles
    · exact .unresolved hanswer hlocal
    · exact .cycle (yields_iff.mpr arrives) hkey hpath
  · rintro (⟨hanswer, hlocal⟩ | ⟨yields, hkey, hpath⟩ | stumbles)
    · exact .unresolved hanswer hlocal
    · exact .cycle (yields_iff.mp yields) hkey hpath
    · exact .resolution
        ((Resolver.resolveChain_eq_error_iff_stumbles hstays).mpr ⟨_, _, stumbles, rfl⟩)

/-- An expansion fails at the end of a trail. -/
theorem fails_iff {v w : Visit} {d : Directive} {e : Error} :
    engine.Fails v w d e ↔ engine.Trail v w d ∧ engine.Cause w d e := by
  constructor
  · intro h
    induction h with
    | here first cause => exact ⟨.here (comesTo_iff.mpr first), cause⟩
    | deeper first arrives hkey hpath _ ih =>
      exact ⟨.deeper (comesTo_iff.mpr first) (yields_iff.mpr arrives) hkey hpath ih.1, ih.2⟩
  · rintro ⟨trail, cause⟩
    induction trail with
    | here comes => exact .here (comesTo_iff.mp comes) cause
    | deeper comes yields hkey hpath _ ih =>
      exact .deeper (comesTo_iff.mp comes) (yields_iff.mp yields) hkey hpath (ih cause)

/-! ## Failures -/

/-- What the first fragment that cannot be put in fails with, the directive fails with. -/
theorem Arrives.directivePieces_eq_error {v : Visit} {d : Directive} {fragment : Fragment}
    (arrives : engine.Arrives v d fragment) {o : Obstacle}
    (h : ∀ resolver, fragmentPieces engine engine.fullPieces v.path v.key d resolver fragment =
      .error o) :
    directivePieces engine engine.fullPieces v.path v.key d = .error o := by
  obtain ⟨resolution, before, after, hanswer, hfragments, hbefore⟩ := arrives
  refine Engine.directivePieces_eq_error.mpr (.inr (.inr ⟨resolution, hanswer, ?_⟩))
  exact collect_eq_error.mpr ⟨before, fragment, after, hfragments, hbefore, h _⟩

/-- What the first directive that cannot be replaced fails with, the content fails with. -/
theorem First.fullPieces_eq_error {v : Visit} {d : Directive} (first : engine.First v d)
    {o : Obstacle} (h : directivePieces engine engine.fullPieces v.path v.key d = .error o) :
    engine.fullPieces v.path v.key v.content = .error o := by
  obtain ⟨front, gap, back, hparts, hfront⟩ := first
  rw [fullPieces_eq, contentPieces_eq_error]
  exact collect_eq_error.mpr ⟨front, (gap, d), back, hparts, hfront, partPieces_eq_error.mpr h⟩

/-- A way to a directive that cannot be replaced is a failure. -/
theorem Fails.fullPieces_eq_error {v w : Visit} {d : Directive} {e : Error}
    (h : engine.Fails v w d e) : engine.fullPieces v.path v.key v.content = .error (.error e) := by
  induction h with
  | here first cause =>
    refine first.fullPieces_eq_error ?_
    cases cause with
    | resolution hresolve => exact directivePieces_eq_error.mpr (.inl ⟨_, hresolve, rfl⟩)
    | unresolved hanswer hlocal =>
      exact directivePieces_eq_error.mpr (.inr (.inl ⟨hanswer, hlocal, rfl⟩))
    | cycle arrives hkey hpath =>
      refine arrives.directivePieces_eq_error fun resolver => ?_
      exact fragmentPieces_eq_error.mpr ⟨_, hkey, .inl ⟨hpath, rfl⟩⟩
  | deeper first arrives hkey hpath _ ih =>
    refine first.fullPieces_eq_error (arrives.directivePieces_eq_error fun resolver => ?_)
    exact fragmentPieces_eq_error.mpr ⟨_, hkey, .inr ⟨hpath, ih⟩⟩

/-- A directive that gives rise to an error is local, and the error names the document it stands in.
-/
theorem Explains.blames (hstays : engine.chain.all Resolver.staysInSet) {v : Visit} {d : Directive}
    {e : Error} (h : engine.Explains v d e) :
    ¬ d.isRemote ∧ e.document? = some v.key := by
  have hremote : d.isRemote → engine.resolve v.key d = .ok none := fun hremote =>
    Resolver.resolveChain_remote (Resolver.all_isBuiltIn hstays) hremote
  cases h with
  | unresolved hanswer hlocal => exact ⟨hlocal, rfl⟩
  | cycle yields hkey hpath =>
    obtain ⟨resolution, before, after, hanswer, -⟩ := yields
    refine ⟨fun h => ?_, rfl⟩
    exact nomatch (hremote h).symm.trans hanswer
  | unreadable stumbles =>
    have hresolve := (Resolver.resolveChain_eq_error_iff_stumbles hstays).mpr ⟨_, _, stumbles, rfl⟩
    refine ⟨fun h => ?_, rfl⟩
    exact nomatch (hremote h).symm.trans hresolve

/-- Errors name the directive that failed, and the first one. An expansion fails with an error
exactly if a trail leads from the document at `key` to a directive that explains it, and everything
in front of that directive, at each level, can be replaced. That directive is a local one, and the
trail has come through the documents from `key` to the one that the error names. -/
theorem expand_blames_first (hstays : engine.chain.all Resolver.staysInSet) (key content : String) :
    (∀ e, engine.expand key content = .error (.error e) ↔
      ∃ v d, engine.Trail (start key content) v d ∧ engine.Explains v d e) ∧
    ∀ v d e, engine.Trail (start key content) v d → engine.Explains v d e →
      ¬ d.isRemote ∧ e.document? = some v.key ∧
        v.path.head? = some key ∧ v.path.getLast? = some v.key := by
  refine ⟨fun e => ?_, fun v d e trail explains => ?_⟩
  · rw [expand_eq_error]
    constructor
    · intro h
      obtain ⟨v, d, fails⟩ := exists_fails (v := start key content) h
      obtain ⟨trail, cause⟩ := fails_iff.mp fails
      exact ⟨v, d, trail, (cause_iff hstays).mp cause⟩
    · rintro ⟨v, d, trail, explains⟩
      have fails := fails_iff.mpr ⟨trail, (cause_iff hstays).mpr explains⟩
      exact fails.fullPieces_eq_error
  · have fails := fails_iff.mpr ⟨trail, (cause_iff hstays).mpr explains⟩
    obtain ⟨hlocal, hdocument⟩ := explains.blames hstays
    exact ⟨hlocal, hdocument, path_of_reaches fails.reaches.1⟩

/-- The second document of a directory leads back to the document that names the directory, which
has a target without an answer further on. The error has the target as it is written out. -/
theorem expand_blames_first_in_folder :
    let engine : Engine :=
      ⟨default, .ofList [("a.md", ⟨":[](b) :[](d) :[](gone)", .empty⟩), ("b.md", ⟨"B", .empty⟩),
        ("d/x.md", ⟨"X", .empty⟩), ("d/y.md", ⟨":[](../b) :[](../a)", .empty⟩)],
        [.exact true, .folder true fun _ => true], { permalink := true }⟩
    let content := ":[](b) :[](a)"
    let e := Error.cyclicTransclusion "d/y.md" "../a.md" ["i.md", "a.md", "d/y.md", "a.md"]
    engine.chain.all Resolver.staysInSet = true ∧ engine.expand "i.md" content = .error (.error e) ∧
    ∃ v d, engine.Trail (start "i.md" content) v d ∧ engine.Explains v d e ∧ ¬ d.isRemote ∧
      v.key = "d/y.md" ∧ v.path.head? = some "i.md" := by
  intro engine content e
  have hstays : engine.chain.all Resolver.staysInSet = true := rfl
  have hfails : engine.expand "i.md" content = .error (.error e) := by decide +kernel
  obtain ⟨hiff, hnames⟩ := expand_blames_first hstays "i.md" content
  obtain ⟨v, d, trail, explains⟩ := (hiff e).mp hfails
  obtain ⟨hlocal, hdocument, hhead, -⟩ := hnames v d e trail explains
  exact ⟨hstays, hfails, v, d, trail, explains, hlocal, (Option.some.inj hdocument).symm, hhead⟩

end Transclusion.Engine
