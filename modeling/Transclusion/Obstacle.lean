import Transclusion.Error

/-!
# Computations without an end

A fragment may lead to another one, and that to another one again. Nothing bounds how far a chain of
resolvers leads on, so an expansion can fail to have a result in two ways: with an error, or by
never coming to its end.

* `Obstacle` — why there is no result;
* `unlimited` — what a computation comes to when it may go as deep as it needs to, given what it
  comes to within each depth.
-/

namespace Transclusion

/-- Why a computation has no result. -/
inductive Obstacle
  /-- It ends with an error. -/
  | error (error : Error)
  /-- It does not end, or not within the depth it may have. -/
  | endless
  deriving DecidableEq, Repr

/-- A result that one of some attempts ends with. -/
structure Found {α : Type} (attempt : Nat → Except Obstacle α) where
  result : Except Obstacle α
  attained : ∃ depth, attempt depth ≠ .error .endless ∧ attempt depth = result

/-- What an attempt ends with, or else the depth for the next one. -/
def Found.next {α : Type} (attempt : Nat → Except Obstacle α) (depth : Nat) :
    Nat ⊕ Option (Found attempt) :=
  match h : attempt depth with
  | .error .endless => .inl (2 * depth + 1)
  | .error (.error e) => .inr (some ⟨.error (.error e), depth, by rw [h]; exact nofun, h⟩)
  | .ok a => .inr (some ⟨.ok a, depth, by rw [h]; exact nofun, h⟩)

/-- What the first attempt that ends comes to, each with twice the depth of the one before. A loop
that never ends has some value too, so what is found brings the attempt it is from. -/
def deepen {α : Type} (attempt : Nat → Except Obstacle α) (depth : Nat) : Option (Found attempt) :=
  repeatM (m := Id) (Found.next attempt) depth

/-- What a computation comes to without a limit to its depth. The first attempt is made at `depth`;
only if that is not enough, a greater depth is looked for. -/
def unlimited {α : Type} (attempt : Nat → Except Obstacle α) (depth : Nat) : Except Obstacle α :=
  match attempt depth with
  | .error .endless => (deepen attempt (2 * depth + 1)).elim (.error .endless) Found.result
  | result => result

end Transclusion
