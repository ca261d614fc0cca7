import Mathlib.Logic.Relation
import Transclusion.Proofs.Expansion.Depth
import Transclusion.Proofs.Resolver.Lookup

/-!
# Cycles

An expansion walks from document to document along its directives. It fails with a cycle exactly
where that walk comes back to a document it came through.

* `Visit`, `Engine.Next`, `Engine.Reaches` — where an expansion may get to from a content;
* `Engine.Fails` — at which visit and directive an expansion fails, and `Engine.exists_fails` —
  every failure is one of these;
* `Engine.nodup_of_reaches` — where an expansion succeeds, no walk comes back;
* `Engine.expand_detects_cycles` — the paths of an expansion, its cycles, and when there are any.

The walk is not an execution: it follows every directive, also those that an expansion does not come
to because another one failed before. So success rules out all cycles, and failure names one.
-/

namespace Transclusion

/-- A place that an expansion may get to: the documents from the outermost one to this one, its key,
and its content. -/
structure Visit where
  path : List String
  key : String
  content : String

namespace Engine

variable {engine : Engine}

/-! ## Walks -/

/-- One step of a walk: a directive of the text that is scanned resolves to a document. -/
inductive Next (engine : Engine) (v : Visit) : Visit → Prop
  | follow {d : Directive} {fragment : Fragment} {key : String}
      (leads : engine.Leads v.key v.content d fragment) (hkey : fragment.key = some key) :
      Next engine v ⟨v.path ++ [key], key, fragment.content⟩

/-- A walk of any length. -/
def Reaches (engine : Engine) : Visit → Visit → Prop :=
  Relation.ReflTransGen engine.Next

/-- The visit that an expansion starts with. -/
def start (key content : String) : Visit :=
  ⟨[key], key, content⟩

/-- A walk from the outermost document keeps track of the documents it came through. -/
theorem path_of_reaches {key content : String} {v : Visit}
    (h : engine.Reaches (start key content) v) :
    v.path.head? = some key ∧ v.path.getLast? = some v.key := by
  induction h with
  | refl => exact ⟨rfl, rfl⟩
  | tail _ hnext ih =>
    cases hnext with
    | follow leads hkey =>
      refine ⟨?_, by simp⟩
      rw [List.head?_append, ih.1]
      rfl

/-! ## Failures -/

/-- The directives of some parts can all be replaced. -/
def Passes (engine : Engine) (v : Visit) (parts : List (List Char × Directive)) : Prop :=
  ∃ ps, collect (partPieces engine engine.fullPieces v.path v.key) parts = .ok ps

/-- The directive is the first one of the scanned text that cannot be replaced. -/
def First (engine : Engine) (v : Visit) (d : Directive) : Prop :=
  ∃ front gap back, (engine.outline v.key v.content).parts = front ++ (gap, d) :: back ∧
    engine.Passes v front

/-- The directive resolves to the fragment, and those before it can be put in. -/
def Arrives (engine : Engine) (v : Visit) (d : Directive) (fragment : Fragment) : Prop :=
  ∃ resolution before after, engine.resolve v.key d = .ok (some resolution) ∧
    resolution.fragments = before ++ fragment :: after ∧
    ∃ ps, collect (fragmentPieces engine engine.fullPieces v.path v.key d resolution.resolver)
      before = .ok ps

/-- Why a directive cannot be replaced, if nothing below it is to blame. -/
inductive Cause (engine : Engine) (v : Visit) (d : Directive) : Error → Prop
  /-- The chain fails. -/
  | resolution {e : Error} (h : engine.resolve v.key d = .error e) : Cause engine v d e
  /-- Nothing answers to a local target. -/
  | unresolved (h : engine.resolve v.key d = .ok none) (hlocal : ¬ d.isRemote) :
      Cause engine v d (.unresolvedTarget v.key d.target)
  /-- A fragment is a document that the path came through. -/
  | cycle {fragment : Fragment} {key : String} (arrives : engine.Arrives v d fragment)
      (hkey : fragment.key = some key) (hpath : key ∈ v.path) :
      Cause engine v d (.cyclicTransclusion v.key d.target (v.path ++ [key]))

/-- The expansion at a visit fails at a directive of another one, which a walk leads to. All that
comes before on the way can be replaced. -/
inductive Fails (engine : Engine) : Visit → Visit → Directive → Error → Prop
  | here {v : Visit} {d : Directive} {e : Error} (first : engine.First v d)
      (cause : engine.Cause v d e) : Fails engine v v d e
  | deeper {v w : Visit} {d d' : Directive} {fragment : Fragment} {key : String} {e : Error}
      (first : engine.First v d) (arrives : engine.Arrives v d fragment)
      (hkey : fragment.key = some key) (hpath : key ∉ v.path)
      (fails : Fails engine ⟨v.path ++ [key], key, fragment.content⟩ w d' e) :
      Fails engine v w d' e

theorem First.mem {v : Visit} {d : Directive} (h : engine.First v d) :
    d ∈ directives (engine.scanned v.key v.content) := by
  obtain ⟨front, gap, back, hparts, -⟩ := h
  refine List.mem_map.mpr ⟨(gap, d), ?_, rfl⟩
  rw [outline] at hparts
  rw [hparts]
  exact List.mem_append_right front List.mem_cons_self

theorem Arrives.leads {v : Visit} {d : Directive} {fragment : Fragment} (first : engine.First v d)
    (h : engine.Arrives v d fragment) : engine.Leads v.key v.content d fragment := by
  obtain ⟨resolution, before, after, hanswer, hfragments, -⟩ := h
  refine ⟨first.mem, resolution, hanswer, ?_⟩
  rw [hfragments]
  exact List.mem_append_right before List.mem_cons_self

/-- A walk leads to where an expansion fails. -/
theorem Fails.reaches {v w : Visit} {d : Directive} {e : Error} (h : engine.Fails v w d e) :
    engine.Reaches v w ∧ engine.First w d ∧ engine.Cause w d e := by
  induction h with
  | here first cause => exact ⟨.refl, first, cause⟩
  | deeper first arrives hkey _ _ ih =>
    exact ⟨.head (.follow (arrives.leads first) hkey) ih.1, ih.2⟩

/-- Every failure within a depth has its place and its cause. -/
theorem exists_fails_of_pieces {depth : Nat} {v : Visit} {e : Error}
    (h : engine.pieces depth v.path v.key v.content = .error (.error e)) :
    ∃ w d, engine.Fails v w d e := by
  induction depth generalizing v with
  | zero => exact nomatch h
  | succ depth ih =>
    have hextends := engine.extends_fullPieces depth
    obtain ⟨front, ⟨gap, d⟩, back, hparts, ⟨_, hfront⟩, hpart⟩ :=
      collect_eq_error.mp (contentPieces_eq_error.mp h)
    -- what is replaced within the depth is replaced without a limit as well
    have first : engine.First v d :=
      ⟨front, gap, back, hparts, _, collect_eq_ok_of_ne_error (fun _ _ => hextends.partPieces_eq)
        hfront⟩
    rw [partPieces_eq_error, directivePieces_eq_error] at hpart
    rcases hpart with
      ⟨_, hresolve, heq⟩ | ⟨hanswer, hlocal, heq⟩ | ⟨resolution, hanswer, hfragments⟩
    · cases heq
      exact ⟨v, d, .here first (.resolution hresolve)⟩
    · cases heq
      exact ⟨v, d, .here first (.unresolved hanswer hlocal)⟩
    · obtain ⟨before, fragment, after, heq, ⟨_, hbefore⟩, hfragment⟩ :=
        collect_eq_error.mp hfragments
      have arrives : engine.Arrives v d fragment :=
        ⟨resolution, before, after, hanswer, heq, _,
          collect_eq_ok_of_ne_error (fun _ _ => hextends.fragmentPieces_eq) hbefore⟩
      obtain ⟨key, hkey, ⟨hpath, hcycle⟩ | ⟨hpath, hbelow⟩⟩ := fragmentPieces_eq_error.mp hfragment
      · cases hcycle
        exact ⟨v, d, .here first (.cycle arrives hkey hpath)⟩
      · obtain ⟨w, d', fails⟩ := ih (v := ⟨v.path ++ [key], key, fragment.content⟩) hbelow
        exact ⟨w, d', .deeper first arrives hkey hpath fails⟩

/-- Every failure has its place and its cause. -/
theorem exists_fails {v : Visit} {e : Error}
    (h : engine.fullPieces v.path v.key v.content = .error (.error e)) :
    ∃ w d, engine.Fails v w d e := by
  obtain ⟨depth, hdepth⟩ := engine.exists_pieces_eq v.path v.key v.content
  exact exists_fails_of_pieces (hdepth.trans h)

/-! ## Successes -/

/-- Where an expansion succeeds, it has put in every fragment that a directive leads to, and that is
no document it came through. -/
theorem exists_pieces_of_leads {v : Visit} {ps : List Piece}
    (hps : engine.fullPieces v.path v.key v.content = .ok ps) {d : Directive}
    {fragment : Fragment} (leads : engine.Leads v.key v.content d fragment) {key : String}
    (hkey : fragment.key = some key) :
    key ∉ v.path ∧ ∃ marker sub,
      engine.fullPieces (v.path ++ [key]) key fragment.content = .ok sub ∧
      .fragment marker key fragment.metadata :: sub ⊆ ps := by
  obtain ⟨hd, resolution, hanswer, hfragment⟩ := leads
  rw [fullPieces_eq] at hps
  obtain ⟨all, hall, rfl⟩ := contentPieces_eq_ok.mp hps
  obtain ⟨part, hpart, rfl⟩ := List.mem_map.mp hd
  obtain ⟨here, hhere, hsubAll⟩ := exists_of_collect_eq_ok hall hpart
  obtain ⟨sub, hsub, rfl⟩ := partPieces_eq_ok.mp hhere
  rcases directivePieces_eq_ok.mp hsub with ⟨hnone, -⟩ | ⟨resolution', hanswer', hfragments⟩
  · rw [hanswer] at hnone
    exact nomatch hnone
  · rw [hanswer] at hanswer'
    cases hanswer'
    obtain ⟨qs, hqs, hsubHere⟩ := exists_of_collect_eq_ok hfragments hfragment
    rcases fragmentPieces_eq_ok.mp hqs with ⟨hnone, -⟩ | ⟨k, below, hsome, hpath, hbelow, rfl⟩
    · exact nomatch hnone.symm.trans hkey
    · obtain rfl := Option.some.inj (hsome.symm.trans hkey)
      refine ⟨hpath, _, below, hbelow, List.Subset.trans hsubHere ?_⟩
      exact List.subset_append_of_subset_left _
        (List.Subset.trans (List.subset_cons_self _ _) hsubAll)

/-- Where an expansion succeeds, no walk comes back to a document it came through. -/
theorem nodup_of_reaches {v w : Visit}
    (h : ∃ ps, engine.fullPieces v.path v.key v.content = .ok ps) (hpath : v.path.Nodup)
    (hreaches : engine.Reaches v w) :
    w.path.Nodup ∧ ∃ ps, engine.fullPieces w.path w.key w.content = .ok ps := by
  induction hreaches with
  | refl => exact ⟨hpath, h⟩
  | tail _ hnext ih =>
    obtain ⟨hnodup, ps, hps⟩ := ih
    cases hnext with
    | follow leads hkey =>
      obtain ⟨hnew, -, sub, hsub, -⟩ := exists_pieces_of_leads hps leads hkey
      exact ⟨nodup_append_singleton.mpr ⟨hnodup, hnew⟩, sub, hsub⟩

/-! ## Cycles -/

/-- A failure has a walk to it, and a directive there that is to blame. -/
theorem exists_walk_of_error {key content : String} {e : Error}
    (h : engine.expand key content = .error (.error e)) :
    ∃ v d, engine.Reaches (start key content) v ∧ engine.First v d ∧ engine.Cause v d e := by
  obtain ⟨v, d, fails⟩ := exists_fails (v := start key content) (expand_eq_error.mp h)
  exact ⟨v, d, fails.reaches⟩

/-- A cycle that is reported is one that a walk can go. -/
theorem exists_walk_of_cyclicTransclusion (hstays : engine.chain.all Resolver.staysInSet)
    {key content document target : String} {path : List String}
    (h : engine.expand key content = .error (.error (.cyclicTransclusion document target path))) :
    ∃ v d fragment k, engine.Reaches (start key content) v ∧
      engine.Leads v.key v.content d fragment ∧ fragment.key = some k ∧ k ∈ v.path ∧
      path = v.path ++ [k] ∧ v.key = document ∧ d.target = target := by
  obtain ⟨v, d, hreaches, first, cause⟩ := exists_walk_of_error h
  cases cause with
  | resolution hresolve =>
    obtain ⟨k, reason, herror⟩ := Resolver.resolveChain_error hstays hresolve
    exact nomatch herror
  | @cycle fragment k arrives hkey hpath =>
    exact ⟨v, d, fragment, k, hreaches, arrives.leads first, hkey, hpath, rfl, rfl, rfl⟩

/-- Every local directive that an expansion may come to has an answer. -/
def Answered (engine : Engine) (key content : String) : Prop :=
  ∀ v, engine.Reaches (start key content) v →
    ∀ d ∈ directives (engine.scanned v.key v.content), ¬ d.isRemote →
      ∃ resolution, engine.resolve v.key d = .ok (some resolution)

/-- If every local directive has an answer, nothing but a cycle can go wrong. -/
theorem exists_return_of_error (hstays : engine.chain.all Resolver.staysInSet)
    {key content : String} (hanswered : engine.Answered key content) {e : Error}
    (h : engine.expand key content = .error (.error e)) :
    (∃ document target path, e = .cyclicTransclusion document target path) ∧
      ∃ v w, engine.Reaches (start key content) v ∧ engine.Next v w ∧ w.key ∈ v.path := by
  obtain ⟨v, d, hreaches, first, cause⟩ := exists_walk_of_error h
  cases cause with
  | resolution hresolve =>
    by_cases hremote : d.isRemote
    · have hnone : engine.resolve v.key d = .ok none :=
        Resolver.resolveChain_remote (Resolver.all_isBuiltIn hstays) hremote
      exact nomatch hnone.symm.trans hresolve
    · obtain ⟨resolution, hanswer⟩ := hanswered v hreaches d first.mem hremote
      exact nomatch hanswer.symm.trans hresolve
  | unresolved hnone hlocal =>
    obtain ⟨resolution, hanswer⟩ := hanswered v hreaches d first.mem hlocal
    exact nomatch hanswer.symm.trans hnone
  | cycle arrives hkey hpath =>
    exact ⟨⟨_, _, _, rfl⟩, v, _, hreaches, .follow (arrives.leads first) hkey, hpath⟩

/-- Cycle detection. The paths of an expansion have no key twice and are at most one longer than the
set has keys, so it comes to its end, and one level more is enough for it. A cycle that is reported
is one that a walk can go, from the outermost document to the one that is named. And if every local
directive has an answer, an expansion fails exactly if there is a walk that comes back to a document
it came through. -/
theorem expand_detects_cycles (hstays : engine.chain.all Resolver.staysInSet)
    (key content : String) :
    (∀ alarm depth, engine.documents.size < depth →
      engine.expandWatched alarm depth key content = engine.expand key content) ∧
    engine.expand key content ≠ .error .endless ∧
    (∀ document target path,
      engine.expand key content = .error (.error (.cyclicTransclusion document target path)) →
      ∃ v d fragment k, engine.Reaches (start key content) v ∧
        engine.Leads v.key v.content d fragment ∧ fragment.key = some k ∧ k ∈ v.path ∧
        path = v.path ++ [k] ∧ v.path.head? = some key ∧ v.path.getLast? = some document ∧
        v.key = document ∧ d.target = target) ∧
    (engine.Answered key content →
      ((∃ e, engine.expand key content = .error (.error e)) ↔
        ∃ v, engine.Reaches (start key content) v ∧ ¬ v.path.Nodup) ∧
      ∀ e, engine.expand key content = .error (.error e) →
        ∃ document target path, e = .cyclicTransclusion document target path) := by
  have hends := expand_ne_endless (confined_of_staysInSet hstays) key content
  refine ⟨fun alarm depth hdepth => expandWatched_eq hstays alarm hdepth key content, hends, ?_, ?_⟩
  · intro document target path h
    obtain ⟨v, d, fragment, k, hreaches, leads, hkey, hpath, rfl, rfl, rfl⟩ :=
      exists_walk_of_cyclicTransclusion hstays h
    obtain ⟨hhead, hlast⟩ := path_of_reaches hreaches
    exact ⟨v, d, fragment, k, hreaches, leads, hkey, hpath, rfl, hhead, hlast, rfl, rfl⟩
  · intro hanswered
    refine ⟨⟨?_, ?_⟩, fun e h => (exists_return_of_error hstays hanswered h).1⟩
    · -- one step behind the failure, the walk is back
      rintro ⟨e, h⟩
      obtain ⟨-, v, w, hreaches, hnext, hmem⟩ := exists_return_of_error hstays hanswered h
      refine ⟨w, hreaches.tail hnext, fun hnodup => ?_⟩
      cases hnext with
      | follow leads hkey => exact (nodup_append_singleton.mp hnodup).2 hmem
    · rintro ⟨v, hreaches, hrepeats⟩
      match h : engine.expand key content with
      | .error (.error e) => exact ⟨e, rfl⟩
      | .error .endless => exact absurd h hends
      | .ok e =>
        obtain ⟨ps, hps, -⟩ := expand_eq_ok.mp h
        have hnodup := nodup_of_reaches (v := start key content) ⟨ps, hps⟩
          (List.nodup_singleton key) hreaches
        exact absurd hnodup.1 hrepeats

/-- Two documents that refer to each other. -/
theorem expand_detects_cycles_mutual :
    let engine : Engine :=
      ⟨default, .ofList [("a.md", ⟨":[](b.md)", .empty⟩), ("b.md", ⟨":[](a.md)", .empty⟩)],
        [.exact false, .folder false fun _ => true], {}⟩
    engine.chain.all Resolver.staysInSet = true ∧ engine.Answered "a.md" ":[](b.md)" ∧
    engine.expand "a.md" ":[](b.md)" =
      .error (.error (.cyclicTransclusion "b.md" "a.md" ["a.md", "b.md", "a.md"])) ∧
    ∃ v, engine.Reaches (start "a.md" ":[](b.md)") v ∧ ¬ v.path.Nodup := by
  intro engine
  have hstays : engine.chain.all Resolver.staysInSet = true := rfl
  have hexpand : engine.expand "a.md" ":[](b.md)" =
      .error (.error (.cyclicTransclusion "b.md" "a.md" ["a.md", "b.md", "a.md"])) := by
    decide +kernel
  let there : Directive := ⟨"", "b.md", none, ":[](b.md)"⟩
  let back : Directive := ⟨"", "a.md", none, ":[](a.md)"⟩
  have hthere : directives (engine.scanned "a.md" ":[](b.md)") = [there] := by decide +kernel
  have hback : directives (engine.scanned "b.md" ":[](a.md)") = [back] := by decide +kernel
  have hb : engine.resolve "a.md" there =
      .ok (some ⟨"exact", [⟨some "b.md", ":[](a.md)", .empty⟩]⟩) := by decide +kernel
  have ha : engine.resolve "b.md" back =
      .ok (some ⟨"exact", [⟨some "a.md", ":[](b.md)", .empty⟩]⟩) := by decide +kernel
  -- Walks go to and fro between the two documents.
  have hwalk : ∀ v, engine.Reaches (start "a.md" ":[](b.md)") v →
      (v.key = "a.md" ∧ v.content = ":[](b.md)") ∨ (v.key = "b.md" ∧ v.content = ":[](a.md)") := by
    intro v hreaches
    induction hreaches with
    | refl => exact .inl ⟨rfl, rfl⟩
    | tail _ hnext ih =>
      cases hnext with
      | follow leads hkey =>
        obtain ⟨hd, resolution, hanswer, hfragment⟩ := leads
        rcases ih with ⟨hv, hc⟩ | ⟨hv, hc⟩
        · rw [hv, hc, hthere, List.mem_singleton] at hd
          rw [hv, hd, hb] at hanswer
          cases hanswer
          cases List.mem_singleton.mp hfragment
          exact .inr ⟨(Option.some.inj hkey).symm, rfl⟩
        · rw [hv, hc, hback, List.mem_singleton] at hd
          rw [hv, hd, ha] at hanswer
          cases hanswer
          cases List.mem_singleton.mp hfragment
          exact .inl ⟨(Option.some.inj hkey).symm, rfl⟩
  have hanswered : engine.Answered "a.md" ":[](b.md)" := by
    intro v hreaches d hd _
    rcases hwalk v hreaches with ⟨hv, hc⟩ | ⟨hv, hc⟩
    · rw [hv, hc, hthere, List.mem_singleton] at hd
      exact ⟨_, by rw [hv, hd, hb]⟩
    · rw [hv, hc, hback, List.mem_singleton] at hd
      exact ⟨_, by rw [hv, hd, ha]⟩
  obtain ⟨-, -, -, hcomplete⟩ := expand_detects_cycles hstays "a.md" ":[](b.md)"
  exact ⟨hstays, hanswered, hexpand, (hcomplete hanswered).1.mp ⟨_, hexpand⟩⟩

end Engine

end Transclusion
