import TintempPlusPlus.Library.EventRuns
import Mathlib.Algebra.GroupWithZero.Nat

/-!
# Potentials of a machine

A potential is a number read off the state. If no step raises it by more
than a fee that depends on the event alone, and steps of a certain kind pay
one unit each, then the fees of a run bound how often steps of that kind
occur in it.
-/

namespace TintempPlusPlus.Potential

open EventRuns

variable {σ ε : Type*} (step : σ → ε → σ)

/-- Number of steps of a run that meet a condition, each one read at the
state before its step. -/
def occurrences (c : σ → ε → Bool) : σ → List ε → ℕ
  | _, [] => 0
  | s, e :: es => (if c s e then 1 else 0) + occurrences c (step s e) es

variable {step} {c : σ → ε → Bool} {s : σ} {e : ε} {es : List ε}

/-- Nothing occurs in the empty run. -/
@[simp] theorem occurrences_nil : occurrences step c s [] = 0 := rfl

/-- What occurs at the first event adds to what occurs behind it. -/
@[simp] theorem occurrences_cons : occurrences step c s (e :: es) =
    (if c s e then 1 else 0) + occurrences step c (step s e) es := rfl

/-- The fees of a run pay for its counted steps and for the potential that
is left. -/
theorem occurrences_le {I : σ → Prop} {φ : σ → ℕ} {fee : ε → ℕ} (h0 : I s)
    (hI : ∀ t e, I t → I (step t e))
    (hφ : ∀ t e, I t → (if c t e then 1 else 0) + φ (step t e) ≤ φ t + fee e) :
    occurrences step c s es + φ (after step s es) ≤ φ s + (es.map fee).sum := by
  induction es generalizing s with
  | nil => simp
  | cons e es ih =>
    have hstep := hφ s e h0
    have hrest := ih (hI s e h0)
    rw [occurrences_cons, after_cons, List.map_cons, List.sum_cons]
    omega

end TintempPlusPlus.Potential
