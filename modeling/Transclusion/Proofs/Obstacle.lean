import Mathlib.Order.Filter.AtTopBot.Basic
import Transclusion.Obstacle

/-!
# Attempts with ever more depth

An attempt that ends within some depth comes to the same within any greater one. So the attempts
settle, and what they settle on is what the computation comes to without a limit.

* `Settles` — attempts that depth does not change once they end;
* `unlimited_of_ends` — an attempt that ends has the result of the computation,
* `unlimited_eq_endless_iff` — and without one the computation does not end;
* `eventually_eq_unlimited` — from some depth on all attempts come to the same.
-/

namespace Transclusion

variable {α β : Type} {attempt : Nat → Except Obstacle α}

/-- An attempt that ends comes to the same with more depth. -/
def Settles (attempt : Nat → Except Obstacle α) : Prop :=
  ∀ ⦃depth depth'⦄, depth ≤ depth' → attempt depth ≠ .error .endless →
    attempt depth' = attempt depth

theorem Settles.map (h : Settles attempt) (f : α → β) :
    Settles fun depth => (attempt depth).map f := by
  intro depth depth' hle hends
  have hsame : attempt depth' = attempt depth := by
    refine h hle fun hendless => hends ?_
    simp only [hendless]
    rfl
  simp only [hsame]

/-- Attempts that end come to the same, whichever depth they have. -/
theorem Settles.eq (h : Settles attempt) {depth depth' : Nat}
    (hends : attempt depth ≠ .error .endless) (hends' : attempt depth' ≠ .error .endless) :
    attempt depth = attempt depth' := by
  rcases Nat.le_total depth depth' with hle | hle
  · exact (h hle hends).symm
  · exact h hle hends'

/-! ## Looking for a depth -/

theorem deepen_eq (attempt : Nat → Except Obstacle α) (depth : Nat) :
    deepen attempt depth = (Found.next attempt depth).elim (deepen attempt) id := by
  rw [deepen, repeatM_eq_of_monadTail]
  cases h : Found.next attempt depth with
  | inl next => simp only [repeatM.body, h]; rfl
  | inr found => simp only [repeatM.body, h]; rfl

theorem deepen_of_endless {depth : Nat} (h : attempt depth = .error .endless) :
    deepen attempt depth = deepen attempt (2 * depth + 1) := by
  rw [deepen_eq, Found.next]
  split
  · rfl
  · next e he => rw [h] at he; cases he
  · next a ha => rw [h] at ha; cases ha

theorem deepen_of_ends {depth : Nat} (h : attempt depth ≠ .error .endless) :
    (deepen attempt depth).map Found.result = some (attempt depth) := by
  rw [deepen_eq, Found.next]
  split
  · next hendless => exact absurd hendless h
  · next e he => exact congrArg some he.symm
  · next a ha => exact congrArg some ha.symm

/-- If an attempt ends, one of those that are made does. -/
theorem Settles.deepen_eq (h : Settles attempt) {enough : Nat}
    (hends : attempt enough ≠ .error .endless) (depth : Nat) :
    (deepen attempt depth).map Found.result = some (attempt enough) := by
  -- by induction on how much depth is missing
  induction hmissing : enough - depth using Nat.strongRecOn generalizing depth with
  | ind missing ih =>
    by_cases hdepth : attempt depth = .error .endless
    · have hless : depth < enough := by
        by_contra hge
        exact hends ((h (Nat.le_of_not_lt hge) hends).symm.trans hdepth)
      rw [deepen_of_endless hdepth]
      exact ih _ (by omega) (2 * depth + 1) rfl
    · rw [deepen_of_ends hdepth, h.eq hdepth hends]

/-! ## Without a limit -/

theorem Settles.unlimited_of_ends (h : Settles attempt) {enough : Nat}
    (hends : attempt enough ≠ .error .endless) (depth : Nat) :
    unlimited attempt depth = attempt enough := by
  rw [unlimited]
  split
  · obtain ⟨found, hfound, heq⟩ := Option.map_eq_some_iff.mp (h.deepen_eq hends (2 * depth + 1))
    rw [hfound, ← heq]
    rfl
  · next hfirst => exact h.eq hfirst hends

theorem Settles.unlimited_eq_endless_iff (h : Settles attempt) (depth : Nat) :
    unlimited attempt depth = .error .endless ↔ ∀ depth', attempt depth' = .error .endless := by
  constructor
  · intro hendless depth'
    by_contra hends
    exact hends ((h.unlimited_of_ends hends depth).symm.trans hendless)
  · intro hendless
    rw [unlimited, hendless depth]
    cases deepen attempt (2 * depth + 1) with
    | none => rfl
    | some found =>
      obtain ⟨enough, hends, -⟩ := found.attained
      exact absurd (hendless enough) hends

/-- From some depth on, all attempts come to what the computation comes to without a limit. -/
theorem Settles.eventually_eq_unlimited (h : Settles attempt) (depth : Nat) :
    ∀ᶠ depth' in Filter.atTop, attempt depth' = unlimited attempt depth := by
  by_cases hendless : ∀ depth', attempt depth' = .error .endless
  · rw [(h.unlimited_eq_endless_iff depth).mpr hendless]
    exact .of_forall hendless
  · obtain ⟨enough, hends⟩ := not_forall.mp hendless
    rw [h.unlimited_of_ends hends]
    exact Filter.eventually_atTop.mpr ⟨enough, fun depth' hle => h hle hends⟩

end Transclusion
