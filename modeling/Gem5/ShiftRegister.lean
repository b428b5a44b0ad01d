/-
# Shift registers with feedback

A register of `N` cells seen through a function `bit` that reads its cells.  A
step moves every cell one place down and puts the sum of the first and the
last cell on top (`IsFeedback`).  Over the field with two elements the step
then satisfies its characteristic equation `stepᴺ = stepᴺ⁻¹ + 1`
(`iterate_eq_xor`), which is what inverts a sum of the step and the identity.
-/
import Mathlib

namespace ShiftRegister

variable {R : Type*} {bit : R → ℕ → Bool} {N : ℕ} {step : R → R}

/-- One step of the register: shift down, feed first plus last in on top. -/
structure IsFeedback (bit : R → ℕ → Bool) (N : ℕ) (step : R → R) : Prop where
  shift : ∀ x i, i + 1 < N → bit (step x) i = bit x (i + 1)
  top : ∀ x, bit (step x) (N - 1) = (bit x (N - 1) ^^ bit x 0)

/-- After `k` steps a cell holds what was `k` places above. -/
theorem IsFeedback.bit_iterate (h : IsFeedback bit N step) {i k : ℕ} (hi : i + k < N) (x : R) :
    bit (step^[k] x) i = bit x (i + k) := by
  induction k generalizing i with
  | zero => rfl
  | succ k ih =>
    rw [Function.iterate_succ_apply', h.shift _ _ (by omega), ih (by omega)]
    congr 1
    omega

/-- **Characteristic equation**, cell by cell. -/
theorem IsFeedback.iterate_eq_xor (h : IsFeedback bit N step) {i : ℕ} (hi : i < N) (x : R) :
    bit (step^[N] x) i = (bit (step^[N - 1] x) i ^^ bit x i) := by
  -- both powers are shifts of the top cell of an earlier state
  have hN : step^[N] x = step^[N - 1 - i] (step^[i + 1] x) := by
    rw [← Function.iterate_add_apply]
    congr 2
    omega
  have hN' : step^[N - 1] x = step^[N - 1 - i] (step^[i] x) := by
    rw [← Function.iterate_add_apply]
    congr 2
    omega
  have hcell : i + (N - 1 - i) = N - 1 := by omega
  have hlow : bit (step^[i] x) 0 = bit x i := by
    rw [h.bit_iterate (by omega), Nat.zero_add]
  have hup : bit (step^[N - 1] x) i = bit (step^[i] x) (N - 1) := by
    rw [hN', h.bit_iterate (by omega), hcell]
  calc bit (step^[N] x) i = bit (step^[i + 1] x) (N - 1) := by
        rw [hN, h.bit_iterate (by omega), hcell]
    _ = (bit (step^[i] x) (N - 1) ^^ bit (step^[i] x) 0) := by
        rw [Function.iterate_succ_apply', h.top]
    _ = (bit (step^[N - 1] x) i ^^ bit x i) := by
        rw [hup, hlow]

end ShiftRegister
