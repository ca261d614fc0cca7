import Transclusion.Proofs.FileTree.Relists

/-!
# Putting something at a place

What stands where in a tree after something new was put at one place of it.

* `FileNode.linkFree` — a tree without links, and that it stays one;
* `FileNode.at?_put` — what stands at a place afterwards: what was put there, a directory on the way
  to it, or what stood there before;
* `FileNode.Kept` — all that stood there is still there, but for the content of some files.
-/

namespace Transclusion.FileNode

variable {node root root' : FileNode} {name : String} {entries : List (String × FileNode)}
  {place : Place}

/-! ## Entries -/

theorem lookup_assign_self (name : String) (node : FileNode) (entries : List (String × FileNode)) :
    lookup name (assign name (some node) entries) = some node := by
  induction entries with
  | nil => simp [assign, lookup]
  | cons entry rest ih =>
    rw [assign]
    split
    · simp [lookup]
    · next hne => rw [lookup, if_neg hne, ih]

theorem lookup_assign_of_ne {other : String} (h : other ≠ name) (node : FileNode)
    (entries : List (String × FileNode)) :
    lookup other (assign name (some node) entries) = lookup other entries := by
  induction entries with
  | nil => simp [assign, lookup, Ne.symm h]
  | cons entry rest ih =>
    obtain ⟨k, old⟩ := entry
    rw [assign]
    split
    · next hk => simp [lookup, hk, Ne.symm h]
    · simp only [lookup, ih]

theorem mem_of_lookup (h : lookup name entries = some node) : (name, node) ∈ entries := by
  induction entries with
  | nil => cases h
  | cons entry rest ih =>
    rw [lookup] at h
    split at h
    · next hk =>
      cases h
      exact hk ▸ List.mem_cons_self
    · exact List.mem_cons_of_mem _ (ih h)

theorem mem_assign {new : Option FileNode} {entry : String × FileNode}
    (h : entry ∈ assign name new entries) : entry ∈ entries ∨ new = some entry.2 := by
  have hnew : ∀ entry, entry ∈ (new.map fun node => (name, node)).toList → new = some entry.2 := by
    intro entry hentry
    obtain ⟨node, hnode, rfl⟩ := Option.map_eq_some_iff.mp (Option.mem_toList.mp hentry)
    exact hnode
  induction entries with
  | nil => exact .inr (hnew entry h)
  | cons first rest ih =>
    rw [assign] at h
    split at h
    · rcases List.mem_append.mp h with h | h
      · exact .inr (hnew entry h)
      · exact .inl (List.mem_cons_of_mem _ h)
    · rcases List.mem_cons.mp h with rfl | h
      · exact .inl List.mem_cons_self
      · exact (ih h).imp_left (List.mem_cons_of_mem _)

/-! ## Trees without links -/

mutual

/-- No link is in the tree. -/
def linkFree : FileNode → Bool
  | .file _ => true
  | .directory entries => linkFreeIn entries
  | .link _ => false

/-- No link is among some entries or below them. -/
def linkFreeIn : List (String × FileNode) → Bool
  | [] => true
  | (_, node) :: rest => node.linkFree && linkFreeIn rest

end

theorem linkFreeIn_iff : linkFreeIn entries ↔ ∀ entry ∈ entries, entry.2.linkFree := by
  induction entries with
  | nil => simp [linkFreeIn]
  | cons entry rest ih => simp [linkFreeIn, ih]

theorem linkFree_of_lookup (h : linkFreeIn entries) (hlookup : lookup name entries = some node) :
    node.linkFree :=
  linkFreeIn_iff.mp h _ (mem_of_lookup hlookup)

/-- What stands in a tree without links is no link, and no link is below it. -/
theorem linkFree_at? (h : root.linkFree) (hat : root.at? place = some node) : node.linkFree := by
  induction place generalizing root with
  | nil => exact Option.some.inj hat ▸ h
  | cons name place ih =>
    cases root with
    | directory entries =>
      rw [at?] at hat
      split at hat
      · next child hchild => exact ih (linkFree_of_lookup h hchild) hat
      · cases hat
    | _ => cases hat

theorem linkFree_put {new : Option FileNode} (h : root.linkFree)
    (hnew : ∀ node, new = some node → node.linkFree) (place : Place) :
    (root.put new place).linkFree := by
  have hassign : ∀ {name entries} {new : Option FileNode}, linkFreeIn entries →
      (∀ node, new = some node → node.linkFree) → linkFreeIn (assign name new entries) := by
    intro name entries new hentries hnew
    refine linkFreeIn_iff.mpr fun entry hentry => ?_
    rcases mem_assign hentry with hentry | heq
    · exact linkFreeIn_iff.mp hentries entry hentry
    · exact hnew entry.2 heq
  fun_induction put root new place with
  | case1 node =>
    cases new with
    | none => exact h
    | some node => exact hnew node rfl
  | case2 name entries => exact hassign h hnew
  | case3 => exact h
  | case4 name place hne entries child hchild ih =>
    refine hassign h fun node hnode => ?_
    cases hnode
    exact ih (linkFree_of_lookup h hchild)
  | case5 => exact h
  | case6 => exact h

/-! ## Places -/

theorem at?_directory (entries : List (String × FileNode)) (name : String) (place : Place) :
    (directory entries).at? (name :: place) = (lookup name entries).bind (·.at? place) := by
  rw [at?]
  cases lookup name entries <;> rfl

theorem put_directory {new : Option FileNode} (hne : place ≠ [])
    (hlookup : lookup name entries = some node) :
    (directory entries).put new (name :: place) =
      .directory (assign name (some (node.put new place)) entries) := by
  obtain ⟨first, place, rfl⟩ := List.exists_cons_of_ne_nil hne
  rw [put, hlookup]
  exact nofun

/-- Only in a directory anything stands. -/
theorem exists_directory (h : root.at? (place ++ [name]) = some node) :
    ∃ entries, root.at? place = some (.directory entries) := by
  rw [at?_append] at h
  obtain ⟨parent, hparent, hname⟩ := Option.bind_eq_some_iff.mp h
  cases parent with
  | directory entries => exact ⟨entries, hparent⟩
  | _ => cases hname

/-- What stands at a place when something new was put into a directory. -/
theorem at?_put (new : FileNode) (h : root.at? place = some (.directory entries)) (name : String)
    (other : Place) :
    (∃ below, other = place ++ [name] ++ below ∧
      (root.put (some new) (place ++ [name])).at? other = new.at? below) ∨
    (¬ place ++ [name] <+: other ∧
      ((root.put (some new) (place ++ [name])).at? other = root.at? other ∨
        ∃ before after, root.at? other = some (.directory before) ∧
          (root.put (some new) (place ++ [name])).at? other = some (.directory after))) := by
  induction place generalizing root other with
  | nil =>
    obtain rfl : root = .directory entries := Option.some.inj h
    rw [List.nil_append, put]
    cases other with
    | nil => exact .inr ⟨by simp, .inr ⟨_, _, rfl, rfl⟩⟩
    | cons first other =>
      by_cases hname : first = name
      · subst hname
        refine .inl ⟨other, rfl, ?_⟩
        rw [at?_directory, lookup_assign_self, Option.bind_some]
      · refine .inr ⟨by simp [Ne.symm hname], .inl ?_⟩
        rw [at?_directory, at?_directory, lookup_assign_of_ne hname]
  | cons step place ih =>
    cases root with
    | directory all =>
      rw [at?_directory] at h
      obtain ⟨child, hchild, hplace⟩ := Option.bind_eq_some_iff.mp h
      rw [List.cons_append, put_directory (by simp) hchild]
      cases other with
      | nil => exact .inr ⟨by simp, .inr ⟨_, _, rfl, rfl⟩⟩
      | cons first other =>
        by_cases hstep : first = step
        · subst hstep
          rw [at?_directory, at?_directory, lookup_assign_self, hchild, Option.bind_some,
            Option.bind_some]
          refine (ih hplace other).imp (fun ⟨below, hbelow, hat⟩ => ?_) fun ⟨hnot, hat⟩ => ?_
          · exact ⟨below, by rw [hbelow]; rfl, hat⟩
          · exact ⟨by simpa using hnot, hat⟩
        · refine .inr ⟨by simp [Ne.symm hstep], .inl ?_⟩
          rw [at?_directory, at?_directory, lookup_assign_of_ne hstep]
    | _ => cases h

/-! ## What stays -/

/-- Directories are still directories, and files still files. Only files at some places may hold
something else than before. -/
structure Kept (changed : Place → Prop) (root root' : FileNode) : Prop where
  directory : ∀ place entries, root.at? place = some (.directory entries) →
    ∃ entries', root'.at? place = some (.directory entries')
  file : ∀ place bytes, root.at? place = some (.file bytes) →
    ∃ bytes', root'.at? place = some (.file bytes') ∧ (¬ changed place → bytes' = bytes)

variable {changed : Place → Prop}

theorem Kept.refl (changed : Place → Prop) (root : FileNode) : Kept changed root root :=
  ⟨fun _ entries h => ⟨entries, h⟩, fun _ bytes h => ⟨bytes, h, fun _ => rfl⟩⟩

theorem Kept.trans {root'' : FileNode} (h : Kept changed root root')
    (h' : Kept changed root' root'') : Kept changed root root'' := by
  refine ⟨fun place entries hat => ?_, fun place bytes hat => ?_⟩
  · obtain ⟨entries', hat'⟩ := h.directory place entries hat
    exact h'.directory place entries' hat'
  · obtain ⟨bytes', hat', hsame⟩ := h.file place bytes hat
    obtain ⟨bytes'', hat'', hsame'⟩ := h'.file place bytes' hat'
    exact ⟨bytes'', hat'', fun hnot => (hsame' hnot).trans (hsame hnot)⟩

theorem Kept.mono {others : Place → Prop} (h : Kept changed root root')
    (hsub : ∀ place, changed place → others place) : Kept others root root' := by
  refine ⟨h.directory, fun place bytes hat => ?_⟩
  obtain ⟨bytes', hat', hsame⟩ := h.file place bytes hat
  exact ⟨bytes', hat', fun hnot => hsame fun hchanged => hnot (hsub place hchanged)⟩

/-- What is put at a free place, or a file in place of another one, leaves all there is elsewhere.
-/
theorem kept_put {new : FileNode} (h : root.at? place = some (.directory entries))
    (hover : ∀ old, root.at? (place ++ [name]) = some old →
      (∃ bytes, old = .file bytes) ∧ (∃ bytes, new = .file bytes) ∧ changed (place ++ [name])) :
    Kept changed root (root.put (some new) (place ++ [name])) := by
  -- nothing stands below what is replaced
  have hbelow : ∀ below old, root.at? (place ++ [name] ++ below) = some old →
      below = [] ∧ (∃ bytes, old = .file bytes) ∧ (∃ bytes, new = .file bytes) ∧
        changed (place ++ [name]) := by
    intro below old hat
    rw [at?_append] at hat
    obtain ⟨top, htop, hat⟩ := Option.bind_eq_some_iff.mp hat
    obtain ⟨⟨bytes, rfl⟩, hnew⟩ := hover top htop
    cases below with
    | nil => exact ⟨rfl, ⟨bytes, (Option.some.inj hat).symm⟩, hnew⟩
    | cons first below => cases hat
  refine ⟨fun other before hat => ?_, fun other bytes hat => ?_⟩
  · rcases at?_put new h name other with ⟨below, rfl, -⟩ | ⟨-, hsame | ⟨-, after, -, hafter⟩⟩
    · obtain ⟨-, ⟨bytes, heq⟩, -⟩ := hbelow below _ hat
      cases heq
    · exact ⟨before, hsame.trans hat⟩
    · exact ⟨after, hafter⟩
  · rcases at?_put new h name other with ⟨below, rfl, hput⟩ | ⟨-, hsame | ⟨before, -, hbefore, -⟩⟩
    · obtain ⟨rfl, -, ⟨bytes', rfl⟩, hchanged⟩ := hbelow below _ hat
      rw [List.append_nil] at hput ⊢
      exact ⟨bytes', hput, fun hnot => absurd hchanged hnot⟩
    · exact ⟨bytes, hsame.trans hat, fun _ => rfl⟩
    · rw [hbefore] at hat
      cases hat

theorem at?_put_self (new : FileNode) (h : root.at? place = some (.directory entries))
    (name : String) : (root.put (some new) (place ++ [name])).at? (place ++ [name]) = some new := by
  rcases at?_put new h name (place ++ [name]) with ⟨below, hbelow, hput⟩ | ⟨hnot, -⟩
  · obtain rfl : below = [] := by simpa using hbelow
    exact hput
  · exact absurd (List.prefix_refl _) hnot

end Transclusion.FileNode
