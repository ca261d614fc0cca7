import Mathlib.Data.List.Nodup
import Transclusion.Proofs.Expansion.Fully
import Transclusion.Proofs.Resolver

/-!
# How deep an expansion goes

The keys on a path are different. Where a chain gives no keys but some given ones, all but the first
are among these, as for a chain that stays in the set. So the keys that are not on the path (`room`)
become fewer with every level, and an expansion never needs more levels than there is room.

* `Engine.Confined` — the chain gives no keys but these;
* `Engine.pieces_ne_endless` — within a depth that leaves the room an expansion ends, and
  `Engine.pieces_eq_fullPieces` — so that depth is enough;
* `Engine.watched` — the expansion that gives an alarm where a path fails a test, and
  `Engine.watched_eq_of_invariant` — when it never does;
* `Engine.watched_eq` — no path has a key twice or is longer than the set allows, so watching for
  that changes nothing.
-/

namespace Transclusion.Engine

variable {engine : Engine}

/-! ## Room -/

theorem nodup_append_singleton {path : List String} {key : String} :
    (path ++ [key]).Nodup ↔ path.Nodup ∧ key ∉ path := by
  rw [← List.concat_eq_append, List.nodup_concat, and_comm]

/-- How many of some keys are not on a path. -/
def room (keys path : List String) : Nat :=
  (keys.filter fun key => key ∉ path).length

theorem room_le (keys path : List String) : room keys path ≤ keys.length :=
  List.length_filter_le _ _

/-- A level down there is less room. -/
theorem room_append_lt {keys path : List String} {key : String} (hkey : key ∈ keys)
    (hpath : key ∉ path) : room keys (path ++ [key]) < room keys path := by
  have hfilter : keys.filter (fun k => k ∉ path ++ [key]) =
      (keys.filter fun k => k ∉ path).filter fun k => k ≠ key := by
    rw [List.filter_filter]
    congr 1
    funext k
    simp [and_comm]
  rw [room, room, hfilter]
  -- the key itself is what the second filter takes out
  exact List.length_filter_lt_length_iff_exists.mpr
    ⟨key, List.mem_filter.mpr ⟨hkey, by simpa using hpath⟩, by simp⟩

/-- Wherever a directive leads, there is one of the keys. -/
def Confined (engine : Engine) (keys : List String) : Prop :=
  ∀ key content d fragment k, engine.Leads key content d fragment → fragment.key = some k → k ∈ keys

/-- A chain that stays in the set leads to documents of the set. -/
theorem confined_of_staysInSet (hstays : engine.chain.all Resolver.staysInSet) :
    engine.Confined engine.documents.keys := by
  rintro key content d fragment k ⟨-, resolution, hanswer, hfragment⟩ hkey
  exact Resolver.contains_of_resolveChain hstays hanswer hfragment hkey

section Confined

variable {keys : List String} (hconfined : engine.Confined keys)

include hconfined

/-- Within a depth that leaves the room an expansion ends. -/
theorem pieces_ne_endless {depth : Nat} {path : List String} (hdepth : room keys path < depth)
    (key content : String) : engine.pieces depth path key content ≠ .error .endless := by
  induction depth generalizing path key content with
  | zero => exact absurd hdepth (Nat.not_lt_zero _)
  | succ depth ih =>
    intro hendless
    obtain ⟨d, fragment, k, hleads, hkey, hpath, hbelow⟩ := exists_leads_of_endless hendless
    have hless := room_append_lt (hconfined _ _ _ _ _ hleads hkey) hpath
    exact ih (by omega) k fragment.content hbelow

/-- A depth that leaves the room is as good as any depth. -/
theorem pieces_eq_fullPieces {depth : Nat} {path : List String} (hdepth : room keys path < depth)
    (key content : String) :
    engine.pieces depth path key content = engine.fullPieces path key content := by
  have hends := pieces_ne_endless hconfined hdepth key content
  exact (engine.extends_fullPieces depth path key content hends).symm

/-- The expansion ends. -/
theorem fullPieces_ne_endless (path : List String) (key content : String) :
    engine.fullPieces path key content ≠ .error .endless := by
  rw [← pieces_eq_fullPieces hconfined (Nat.lt_succ_self _)]
  exact pieces_ne_endless hconfined (Nat.lt_succ_self _) key content

theorem expand_ne_endless (key content : String) : engine.expand key content ≠ .error .endless :=
  fun h => fullPieces_ne_endless hconfined [key] key content (expand_eq_error.mp h)

end Confined

/-! ## Watched paths -/

/-- The expansion that gives an alarm where a path fails a test. -/
def watched (engine : Engine) (test : List String → Bool) (alarm : Error) :
    (depth : Nat) → Expander
  | 0, _, _, _, _ => .error .endless
  | depth + 1, path, key, content, g =>
      if test path then
        let outline := Outline.ofText (engine.scanned key content)
        replaceAll engine (watched engine test alarm depth) path key outline.tail outline.parts g
      else .error (.error alarm)

/-- The pieces of a watched expansion. -/
def watchedPieces (engine : Engine) (test : List String → Bool) (alarm : Error) :
    (depth : Nat) → Builder
  | 0, _, _, _ => .error .endless
  | depth + 1, path, key, content =>
      if test path then
        contentPieces engine (watchedPieces engine test alarm depth) path key content
      else .error (.error alarm)

theorem watched_eq_map (test : List String → Bool) (alarm : Error) (depth : Nat)
    (path : List String) (key content : String) (g : Gathered) :
    watched engine test alarm depth path key content g =
      (watchedPieces engine test alarm depth path key content).map (ofPieces g) := by
  induction depth generalizing path key content g with
  | zero => rfl
  | succ depth ih =>
    rw [watched, watchedPieces]
    split
    · exact replaceAll_outline_eq ih path key content g
    · rfl

/-- Watching changes nothing, whatever the alarm, if the test passes where an invariant of the
visits holds, and every step keeps that. -/
theorem watched_eq_of_invariant {test : List String → Bool}
    (invariant : List String → String → Prop)
    (htest : ∀ path key, invariant path key → test path)
    (hstep : ∀ path key content d fragment k, invariant path key →
      engine.Leads key content d fragment → fragment.key = some k → k ∉ path →
      invariant (path ++ [k]) k)
    (alarm : Error) (depth : Nat) {path : List String} {key : String} (h : invariant path key)
    (content : String) (g : Gathered) :
    watched engine test alarm depth path key content g =
      expandContent engine depth path key content g := by
  have hpieces : ∀ path key content, invariant path key →
      watchedPieces engine test alarm depth path key content =
        engine.pieces depth path key content := by
    induction depth with
    | zero => exact fun _ _ _ _ => rfl
    | succ depth ih =>
      intro path key content h
      rw [watchedPieces, if_pos (htest path key h)]
      refine contentPieces_congr fun d fragment hleads k hkey hk => ?_
      exact ih _ k fragment.content (hstep path key content d fragment k h hleads hkey hk)
  rw [watched_eq_map, expandContent_eq, hpieces path key content h]

/-- The path of an expansion: no key stands on it twice, and with every key it leaves less room. -/
structure Path (engine : Engine) (path : List String) : Prop where
  nodup : path.Nodup
  length_le : path.length + room engine.documents.keys path ≤ engine.documents.size + 1

namespace Path

theorem singleton (engine : Engine) (key : String) : engine.Path [key] where
  nodup := List.nodup_singleton key
  length_le := by
    have := room_le engine.documents.keys [key]
    rw [KeyMap.length_keys] at this
    rw [List.length_singleton]
    omega

theorem append {path : List String} (h : engine.Path path) {key : String}
    (hkey : key ∈ engine.documents.keys) (hpath : key ∉ path) : engine.Path (path ++ [key]) where
  nodup := nodup_append_singleton.mpr ⟨h.nodup, hpath⟩
  length_le := by
    have hless := room_append_lt hkey hpath
    have hlength := h.length_le
    rw [List.length_append, List.length_singleton]
    omega

end Path

/-- No key stands on a path twice, and it is not longer than the set has keys, and one more. -/
def sound (engine : Engine) (path : List String) : Bool :=
  decide path.Nodup && decide (path.length ≤ engine.documents.size + 1)

theorem Path.sound {path : List String} (h : engine.Path path) : engine.sound path := by
  have hlength := h.length_le
  rw [Engine.sound, Bool.and_eq_true, decide_eq_true_eq, decide_eq_true_eq]
  exact ⟨h.nodup, by omega⟩

/-- Watching the paths of an expansion changes nothing, whatever the alarm. -/
theorem watched_eq (hstays : engine.chain.all Resolver.staysInSet) (alarm : Error)
    (depth : Nat) {path : List String} (hpath : engine.Path path) (key content : String)
    (g : Gathered) :
    watched engine engine.sound alarm depth path key content g =
      expandContent engine depth path key content g :=
  watched_eq_of_invariant (fun path _ => engine.Path path) (fun _ _ h => h.sound)
    (fun _ _ _ _ _ _ h hleads hkey hk =>
      h.append (confined_of_staysInSet hstays _ _ _ _ _ hleads hkey) hk)
    alarm depth hpath content g

/-- The expansion of a content with watched paths, at most `depth` levels deep. -/
def expandWatched (engine : Engine) (alarm : Error) (depth : Nat) (key content : String) :
    Except Obstacle Expansion := do
  let (content, g) ← watched engine engine.sound alarm depth [key] key content .empty
  return ⟨content, g.tree, g.resolved⟩

/-- Neither watching the paths nor allowing for more levels changes an expansion. -/
theorem expandWatched_eq (hstays : engine.chain.all Resolver.staysInSet) (alarm : Error)
    {depth : Nat} (hdepth : engine.documents.size < depth) (key content : String) :
    engine.expandWatched alarm depth key content = engine.expand key content := by
  have hroom : room engine.documents.keys [key] < depth := by
    have := room_le engine.documents.keys [key]
    rw [KeyMap.length_keys] at this
    omega
  rw [expandWatched, expand, watched_eq hstays alarm depth (.singleton engine key),
    expandContent_eq, expandFully_eq, pieces_eq_fullPieces (confined_of_staysInSet hstays) hroom]

end Transclusion.Engine
