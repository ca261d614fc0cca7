/-!
# Steps that may fail

How a computation that stops at its first error comes to a result.

* `bind_eq_ok` — one step after the other;
* `foldlM_eq_ok_invariant` — a row of steps, each from what the one before left.
-/

namespace Transclusion

theorem bind_eq_ok {ε α β : Type} {x : Except ε α} {f : α → Except ε β} {b : β} :
    x >>= f = .ok b ↔ ∃ a, x = .ok a ∧ f a = .ok b := by
  cases x <;> simp [bind, Except.bind]

/-- What each step of a fold keeps, a fold that succeeds keeps. -/
theorem foldlM_eq_ok_invariant {ε α β : Type} {f : β → α → Except ε β} {p : β → Prop}
    (hstep : ∀ b a b', f b a = .ok b' → p b → p b') {as : List α} {b b' : β}
    (h : as.foldlM f b = .ok b') (hb : p b) : p b' := by
  induction as generalizing b with
  | nil =>
    cases h
    exact hb
  | cons a as ih =>
    rw [List.foldlM_cons] at h
    obtain ⟨next, hnext, h⟩ := bind_eq_ok.mp h
    exact ih h (hstep b a next hnext hb)

end Transclusion
