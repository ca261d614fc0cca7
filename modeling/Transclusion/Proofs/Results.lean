import Mathlib.Data.List.Basic
import Mathlib.Data.List.Forall2
import Transclusion.Steps

/-!
# Results that may be errors

How a computation that stops at its first error comes to its result, or to its error.

* `map_eq_ok`, `bind_bind_pure_eq_ok`, `bind_eq_error` — one step after the other;
* `mem_of_mapM_eq_ok`, `exists_of_mapM_eq_ok` — one step for each value of a list;
* `collect` — the same, where each step gives a list and these are put behind each other, and
  `collect_flatMap_eq_ok` — group by group;
* `run_run_bind` — one step after the other, where the steps also change a state.
-/

namespace Transclusion

theorem map_eq_ok {ε α β : Type} {x : Except ε α} {f : α → β} {b : β} :
    x.map f = .ok b ↔ ∃ a, x = .ok a ∧ f a = b := by
  cases x <;> simp [Except.map]

theorem map_eq_error {ε α β : Type} {x : Except ε α} {f : α → β} {e : ε} :
    x.map f = .error e ↔ x = .error e := by
  cases x <;> simp [Except.map]

theorem mapError_eq_ok {ε ε' α : Type} {x : Except ε α} {f : ε → ε'} {a : α} :
    x.mapError f = .ok a ↔ x = .ok a := by
  cases x <;> simp [Except.mapError]

theorem mapError_eq_error {ε ε' α : Type} {x : Except ε α} {f : ε → ε'} {e' : ε'} :
    x.mapError f = .error e' ↔ ∃ e, x = .error e ∧ e' = f e := by
  cases x <;> simp [Except.mapError, eq_comm]

/-- Two steps and what is made of their results. -/
theorem bind_bind_pure_eq_ok {ε α β γ : Type} {x : Except ε α} {y : α → Except ε β}
    {f : α → β → γ} {c : γ} :
    (do
      let a ← x
      let b ← y a
      pure (f a b)) = .ok c ↔ ∃ a b, x = .ok a ∧ y a = .ok b ∧ c = f a b := by
  rw [bind_eq_ok]
  constructor
  · rintro ⟨a, ha, h⟩
    obtain ⟨b, hb, h⟩ := bind_eq_ok.mp h
    cases h
    exact ⟨a, b, ha, hb, rfl⟩
  · rintro ⟨a, b, ha, hb, rfl⟩
    exact ⟨a, ha, bind_eq_ok.mpr ⟨b, hb, rfl⟩⟩

theorem bind_eq_error {ε α β : Type} {x : Except ε α} {f : α → Except ε β} {e : ε} :
    x >>= f = .error e ↔ x = .error e ∨ ∃ a, x = .ok a ∧ f a = .error e := by
  cases x <;> simp [bind, Except.bind]

instance decidableEqExcept {ε α : Type} [DecidableEq ε] [DecidableEq α] :
    DecidableEq (Except ε α)
  | .ok a, .ok b => decidable_of_iff (a = b) ⟨congrArg _, Except.ok.inj⟩
  | .error e, .error e' => decidable_of_iff (e = e') ⟨congrArg _, Except.error.inj⟩
  | .ok _, .error _ => isFalse nofun
  | .error _, .ok _ => isFalse nofun

/-! ## One result for each value -/

theorem mapM_cons_eq_ok {ε α β : Type} {f : α → Except ε β} {a : α} {as : List α} {bs : List β} :
    (a :: as).mapM f = .ok bs ↔
      ∃ here rest, f a = .ok here ∧ as.mapM f = .ok rest ∧ bs = here :: rest := by
  rw [List.mapM_cons]
  exact bind_bind_pure_eq_ok

/-- What such a computation gives comes from one of the values. -/
theorem mem_of_mapM_eq_ok {ε α β : Type} {f : α → Except ε β} {as : List α} {bs : List β}
    (h : as.mapM f = .ok bs) {b : β} (hb : b ∈ bs) : ∃ a ∈ as, f a = .ok b := by
  induction as generalizing bs with
  | nil =>
    cases h
    exact nomatch hb
  | cons a as ih =>
    obtain ⟨here, rest, hhere, hrest, rfl⟩ := mapM_cons_eq_ok.mp h
    rcases List.mem_cons.mp hb with rfl | hb
    · exact ⟨a, List.mem_cons_self, hhere⟩
    · obtain ⟨a', ha', hfa'⟩ := ih hrest hb
      exact ⟨a', List.mem_cons_of_mem _ ha', hfa'⟩

/-- Such a computation gives something for each of the values. -/
theorem exists_of_mapM_eq_ok {ε α β : Type} {f : α → Except ε β} {as : List α} {bs : List β}
    (h : as.mapM f = .ok bs) {a : α} (ha : a ∈ as) : ∃ b ∈ bs, f a = .ok b := by
  induction as generalizing bs with
  | nil => exact nomatch ha
  | cons first as ih =>
    obtain ⟨here, rest, hhere, hrest, rfl⟩ := mapM_cons_eq_ok.mp h
    rcases List.mem_cons.mp ha with rfl | ha
    · exact ⟨here, List.mem_cons_self, hhere⟩
    · obtain ⟨b, hb, hfb⟩ := ih hrest ha
      exact ⟨b, List.mem_cons_of_mem _ hb, hfb⟩

/-! ## Lists behind each other -/

/-- What a function makes of some values, one list behind the other; the first error ends it. -/
def collect {ε α β : Type} (f : α → Except ε (List β)) : List α → Except ε (List β)
  | [] => .ok []
  | a :: as => do
      let here ← f a
      let rest ← collect f as
      return here ++ rest

section Collect

variable {ε α β : Type} {f g : α → Except ε (List β)} {a : α} {as : List α} {bs : List β}

@[simp] theorem collect_nil : collect f [] = .ok [] := rfl

theorem collect_cons_eq_ok :
    collect f (a :: as) = .ok bs ↔
      ∃ here rest, f a = .ok here ∧ collect f as = .ok rest ∧ bs = here ++ rest := by
  rw [collect]
  exact bind_bind_pure_eq_ok

theorem collect_append_eq_ok {as' : List α} :
    collect f (as ++ as') = .ok bs ↔
      ∃ front back, collect f as = .ok front ∧ collect f as' = .ok back ∧ bs = front ++ back := by
  induction as generalizing bs with
  | nil => simp
  | cons a as ih =>
    simp only [List.cons_append, collect_cons_eq_ok, ih]
    constructor
    · rintro ⟨here, rest, hhere, ⟨front, back, hfront, hback, rfl⟩, rfl⟩
      exact ⟨here ++ front, back, ⟨here, front, hhere, hfront, rfl⟩, hback, by simp⟩
    · rintro ⟨front, back, ⟨here, rest, hhere, hrest, rfl⟩, hback, rfl⟩
      exact ⟨here, rest ++ back, hhere, ⟨rest, back, hrest, hback, rfl⟩, by simp⟩

/-- What is collected from groups of values is collected group by group. -/
theorem collect_flatMap_eq_ok {γ : Type} {group : γ → List α} {cs : List γ} :
    collect f (cs.flatMap group) = .ok bs ↔
      ∃ parts, List.Forall₂ (fun c part => collect f (group c) = .ok part) cs parts ∧
        bs = parts.flatten := by
  induction cs generalizing bs with
  | nil => simp [eq_comm]
  | cons c cs ih =>
    simp only [List.flatMap_cons, collect_append_eq_ok, ih, List.forall₂_cons_left_iff]
    constructor
    · rintro ⟨front, back, hfront, ⟨parts, hparts, rfl⟩, rfl⟩
      exact ⟨front :: parts, ⟨front, parts, hfront, hparts, rfl⟩, rfl⟩
    · rintro ⟨parts, ⟨front, others, hfront, hothers, rfl⟩, rfl⟩
      exact ⟨front, others.flatten, hfront, ⟨others, hothers, rfl⟩, rfl⟩

/-- Where collecting succeeds, the function succeeds everywhere, and all it gives is collected. -/
theorem exists_of_collect_eq_ok (h : collect f as = .ok bs) (ha : a ∈ as) :
    ∃ part, f a = .ok part ∧ part ⊆ bs := by
  induction as generalizing bs with
  | nil => exact nomatch ha
  | cons first as ih =>
    obtain ⟨here, rest, hhere, hrest, rfl⟩ := collect_cons_eq_ok.mp h
    rcases List.mem_cons.mp ha with rfl | ha
    · exact ⟨here, hhere, List.subset_append_left here rest⟩
    · obtain ⟨part, hpart, hsub⟩ := ih hrest ha
      exact ⟨part, hpart, fun b hb => List.mem_append_right here (hsub hb)⟩

/-- All that is collected comes from one of the values. -/
theorem mem_of_collect_eq_ok (h : collect f as = .ok bs) {b : β} (hb : b ∈ bs) :
    ∃ a ∈ as, ∃ part, f a = .ok part ∧ b ∈ part := by
  induction as generalizing bs with
  | nil =>
    cases h
    exact nomatch hb
  | cons a as ih =>
    obtain ⟨here, rest, hhere, hrest, rfl⟩ := collect_cons_eq_ok.mp h
    rcases List.mem_append.mp hb with hb | hb
    · exact ⟨a, List.mem_cons_self, here, hhere, hb⟩
    · obtain ⟨a', ha', part, hpart, hb⟩ := ih hrest hb
      exact ⟨a', List.mem_cons_of_mem _ ha', part, hpart, hb⟩

/-- What is collected if the function has a result for every value. -/
theorem collect_eq_ok_flatMap {h : α → List β} (hf : ∀ a ∈ as, f a = .ok (h a)) :
    collect f as = .ok (as.flatMap h) := by
  induction as with
  | nil => rfl
  | cons a as ih =>
    obtain ⟨hfirst, hothers⟩ := List.forall_mem_cons.mp hf
    exact collect_cons_eq_ok.mpr ⟨h a, as.flatMap h, hfirst, ih hothers, List.flatMap_cons⟩

/-- Collecting succeeds if the function does everywhere. -/
theorem exists_collect_eq_ok :
    (∃ bs, collect f as = .ok bs) ↔ ∀ a ∈ as, ∃ part, f a = .ok part := by
  induction as with
  | nil => simp
  | cons a as ih =>
    rw [List.forall_mem_cons, ← ih]
    constructor
    · rintro ⟨bs, h⟩
      obtain ⟨here, rest, hhere, hrest, -⟩ := collect_cons_eq_ok.mp h
      exact ⟨⟨here, hhere⟩, rest, hrest⟩
    · rintro ⟨⟨here, hhere⟩, rest, hrest⟩
      exact ⟨here ++ rest, collect_cons_eq_ok.mpr ⟨here, rest, hhere, hrest, rfl⟩⟩

/-- An error is that of the first value the function fails on. -/
theorem collect_eq_error {e : ε} :
    collect f as = .error e ↔
      ∃ front a back, as = front ++ a :: back ∧ (∃ bs, collect f front = .ok bs) ∧
        f a = .error e := by
  induction as with
  | nil => simp
  | cons a as ih =>
    rw [collect, bind_eq_error]
    constructor
    · rintro (h | ⟨here, hhere, h⟩)
      · exact ⟨[], a, as, rfl, ⟨[], rfl⟩, h⟩
      · rcases bind_eq_error.mp h with h | ⟨rest, -, h⟩
        · obtain ⟨front, a', back, rfl, ⟨bs, hbs⟩, hfail⟩ := ih.mp h
          exact ⟨a :: front, a', back, rfl,
            ⟨here ++ bs, collect_cons_eq_ok.mpr ⟨here, bs, hhere, hbs, rfl⟩⟩, hfail⟩
        · exact nomatch h
    · rintro ⟨front, a', back, heq, ⟨bs, hbs⟩, hfail⟩
      cases front with
      | nil =>
        obtain ⟨rfl, rfl⟩ := List.cons.inj heq
        exact .inl hfail
      | cons first front =>
        obtain ⟨rfl, rfl⟩ := List.cons.inj heq
        obtain ⟨here, rest, hhere, hrest, -⟩ := collect_cons_eq_ok.mp hbs
        exact .inr ⟨here, hhere, bind_eq_error.mpr (.inl
          (ih.mpr ⟨front, a', back, rfl, ⟨rest, hrest⟩, hfail⟩))⟩

/-- A function that does the same wherever there is not a certain error collects the same, unless
that error comes up. -/
theorem collect_eq_of_ne_error {e : ε} (h : ∀ a ∈ as, f a ≠ .error e → g a = f a)
    (hne : collect f as ≠ .error e) : collect g as = collect f as := by
  induction as with
  | nil => rfl
  | cons a as ih =>
    obtain ⟨hfirst, hothers⟩ := List.forall_mem_cons.mp h
    rw [collect, ne_eq, bind_eq_error, not_or] at hne
    obtain ⟨hhere, hrest⟩ := hne
    rw [collect, collect, hfirst hhere]
    cases hresult : f a with
    | error e' => rfl
    | ok here =>
      rw [ih hothers fun herror => hrest ⟨here, hresult, bind_eq_error.mpr (.inl herror)⟩]

theorem collect_eq_ok_of_ne_error {e : ε} (h : ∀ a ∈ as, f a ≠ .error e → g a = f a)
    (hbs : collect f as = .ok bs) : collect g as = .ok bs := by
  rw [collect_eq_of_ne_error h, hbs]
  rw [hbs]
  exact nofun

theorem collect_congr (h : ∀ a ∈ as, f a = g a) : collect f as = collect g as := by
  induction as with
  | nil => rfl
  | cons a as ih =>
    rw [collect, collect, h a List.mem_cons_self,
      ih fun a ha => h a (List.mem_cons_of_mem _ ha)]

/-- What is done to all values that are collected may be done as they are found. -/
theorem collect_map {γ : Type} (f : α → Except ε (List β)) (h : β → γ) (as : List α) :
    collect (fun a => (f a).map (List.map h)) as = (collect f as).map (List.map h) := by
  induction as with
  | nil => rfl
  | cons a as ih =>
    rw [collect, collect, ih]
    cases f a with
    | error e => rfl
    | ok here =>
      cases collect f as with
      | error e => rfl
      | ok rest => exact congrArg Except.ok List.map_append.symm

/-- A function that gives the same wherever a condition on the outcome holds collects the same, if
the condition passes from a row to its parts. -/
theorem collect_eq_ok_of_imp {p : List β → Prop}
    (happend : ∀ bs cs, p (bs ++ cs) → p bs ∧ p cs)
    (hfg : ∀ a ∈ as, ∀ bs, f a = .ok bs → p bs → g a = .ok bs)
    (h : collect f as = .ok bs) (hp : p bs) : collect g as = .ok bs := by
  induction as generalizing bs with
  | nil => exact h
  | cons a as ih =>
    obtain ⟨here, rest, hhere, hrest, rfl⟩ := collect_cons_eq_ok.mp h
    obtain ⟨hphere, hprest⟩ := happend here rest hp
    obtain ⟨hfirst, hothers⟩ := List.forall_mem_cons.mp hfg
    exact collect_cons_eq_ok.mpr
      ⟨here, rest, hfirst here hhere hphere, ih hothers hrest hprest, rfl⟩

/-- A condition on the outcome that holds of a row exactly if it holds of all its parts can be
checked part by part. -/
theorem collect_eq_ok_and {p : List β → Prop} (hnil : p [])
    (happend : ∀ bs cs, p (bs ++ cs) ↔ p bs ∧ p cs)
    (h : ∀ a ∈ as, ∀ bs, f a = .ok bs ↔ g a = .ok bs ∧ p bs) :
    collect f as = .ok bs ↔ collect g as = .ok bs ∧ p bs := by
  induction as generalizing bs with
  | nil =>
    simp only [collect_nil, Except.ok.injEq]
    constructor
    · rintro rfl
      exact ⟨rfl, hnil⟩
    · exact And.left
  | cons a as ih =>
    have htail := fun bs => @ih bs fun a ha => h a (List.mem_cons_of_mem _ ha)
    simp only [collect_cons_eq_ok, h a List.mem_cons_self, htail]
    constructor
    · rintro ⟨here, rest, ⟨hhere, hp⟩, ⟨hrest, hq⟩, rfl⟩
      exact ⟨⟨here, rest, hhere, hrest, rfl⟩, (happend _ _).mpr ⟨hp, hq⟩⟩
    · rintro ⟨⟨here, rest, hhere, hrest, rfl⟩, hpq⟩
      obtain ⟨hp, hq⟩ := (happend _ _).mp hpq
      exact ⟨here, rest, ⟨hhere, hp⟩, ⟨hrest, hq⟩, rfl⟩

end Collect

/-! ## Results and a state -/

section Session

variable {ε σ α β : Type}

/-- A step that fails leaves the state as it is then, and the next step is not taken. -/
theorem run_run_bind (x : ExceptT ε (StateM σ) α) (f : α → ExceptT ε (StateM σ) β) (s : σ) :
    (x >>= f).run.run s =
      match x.run.run s with
      | (.ok a, s) => (f a).run.run s
      | (.error e, s) => (.error e, s) := by
  rw [ExceptT.run_bind, StateT.run_bind]
  show StateT.run _ (x.run.run s).2 = _
  match x.run.run s with
  | (.ok a, s) => rfl
  | (.error e, s) => rfl

theorem run_run_get (s : σ) : (get : ExceptT ε (StateM σ) σ).run.run s = (.ok s, s) := rfl

/-- A result does not touch the state. -/
theorem run_run_mk_pure (result : Except ε α) (s : σ) :
    (ExceptT.mk (pure result) : ExceptT ε (StateM σ) α).run.run s = (result, s) := rfl

/-- The result of one step may be changed before the next one. -/
theorem mk_pure_map_bind {γ : Type} (result : Except ε α) (g : α → γ)
    (f : γ → ExceptT ε (StateM σ) β) :
    (ExceptT.mk (pure (result.map g)) >>= f) = (ExceptT.mk (pure result) >>= fun a => f (g a)) := by
  cases result <;> rfl

theorem mk_pure_ok_bind (a : α) (f : α → ExceptT ε (StateM σ) β) :
    (ExceptT.mk (pure (.ok a)) >>= f) = f a := rfl

/-- An error is handled in the state that it left. -/
theorem run_run_tryCatch (x : ExceptT ε (StateM σ) α) (handle : ε → ExceptT ε (StateM σ) α)
    (s : σ) :
    (tryCatch x handle).run.run s =
      match x.run.run s with
      | (.ok a, s) => (.ok a, s)
      | (.error e, s) => (handle e).run.run s := by
  rw [ExceptT.run_tryCatch, StateT.run_bind]
  show StateT.run _ (x.run.run s).2 = _
  match x.run.run s with
  | (.ok a, s) => rfl
  | (.error e, s) => rfl

/-- Whatever comes out, the state afterwards is related to the one before. -/
def Moves (r : σ → σ → Prop) (x : ExceptT ε (StateM σ) α) : Prop :=
  ∀ s, r s (x.run.run s).2

namespace Moves

variable {r : σ → σ → Prop} {x : ExceptT ε (StateM σ) α}

theorem pure (hrefl : ∀ s, r s s) (a : α) :
    Moves r (Pure.pure a : ExceptT ε (StateM σ) α) :=
  hrefl

theorem throw (hrefl : ∀ s, r s s) (e : ε) :
    Moves r (MonadExcept.throw e : ExceptT ε (StateM σ) α) :=
  hrefl

theorem bind (htrans : ∀ s t u, r s t → r t u → r s u) {f : α → ExceptT ε (StateM σ) β}
    (hx : Moves r x) (hf : ∀ a, Moves r (f a)) : Moves r (x >>= f) := by
  intro s
  rw [run_run_bind]
  match hrun : x.run.run s with
  | (.ok a, t) => exact htrans s t _ (by simpa [hrun] using hx s) (hf a t)
  | (.error e, t) => simpa [hrun] using hx s

theorem tryCatch (htrans : ∀ s t u, r s t → r t u → r s u)
    {handle : ε → ExceptT ε (StateM σ) α} (hx : Moves r x) (hhandle : ∀ e, Moves r (handle e)) :
    Moves r (MonadExcept.tryCatch x handle) := by
  intro s
  rw [run_run_tryCatch]
  match hrun : x.run.run s with
  | (.ok a, t) => simpa [hrun] using hx s
  | (.error e, t) => exact htrans s t _ (by simpa [hrun] using hx s) (hhandle e t)

end Moves

end Session

end Transclusion
