/-
# Folded windows

The first `n` bits of a sequence, folded into `C` bits: bit `i` of the sequence is added,
without carry, at place `i % C` (`fold`).  When a new bit is put in front of the sequence the
fold turns by one place.
-/
import Mathlib

namespace CyclicFold

variable {w C : ℕ} {o : ℕ → Bool} {b : Bool} {n j : ℕ}

/-- The sequence with a bit in front. -/
def push (b : Bool) (o : ℕ → Bool) : ℕ → Bool
  | 0 => b
  | i + 1 => o i

/-- The exclusive or of the first bits, bit `i` shifted by `i % C`. -/
def fold (w C : ℕ) (o : ℕ → Bool) : ℕ → BitVec w
  | 0 => 0
  | n + 1 => fold w C o n ^^^ ((BitVec.ofBool (o n)).setWidth w <<< (n % C))

theorem getLsbD_fold_succ (hj : j < w) :
    (fold w C o (n + 1)).getLsbD j = ((fold w C o n).getLsbD j ^^ (o n && decide (n % C = j))) := by
  rw [fold, BitVec.getLsbD_xor, BitVec.getLsbD_shiftLeft, BitVec.getLsbD_setWidth]
  by_cases hle : j < n % C
  · have hne : n % C ≠ j := by omega
    simp [hle, hne]
  · by_cases heq : n % C = j
    · simp [heq, hj, show 0 < w by omega]
    · have hpos : j - n % C ≠ 0 := by omega
      simp [heq, hpos]

/-- The fold has `C` bits. -/
theorem getLsbD_fold_of_le (hC : 0 < C) (hle : C ≤ j) : (fold w C o n).getLsbD j = false := by
  by_cases hj : j < w
  · induction n with
    | zero => simp [fold]
    | succ n ih =>
      have hne : n % C ≠ j := by
        have := Nat.mod_lt n hC
        omega
      rw [getLsbD_fold_succ hj, ih, decide_eq_false hne, Bool.and_false, Bool.xor_false]
  · exact BitVec.getLsbD_of_ge _ _ (by omega)

/-- The place before, around the circle. -/
def before (C j : ℕ) : ℕ := if j = 0 then C - 1 else j - 1

theorem mod_eq_before_iff (hj : j < C) : n % C = before C j ↔ (n + 1) % C = j := by
  have hlt := Nat.mod_lt n (by omega : 0 < C)
  rw [← Nat.mod_add_mod]
  unfold before
  by_cases hlast : n % C + 1 = C
  · rw [hlast, Nat.mod_self]
    split <;> omega
  · rw [Nat.mod_eq_of_lt (show n % C + 1 < C by omega)]
    split <;> omega

/-- A fold with a bit in front turns by one place. -/
theorem getLsbD_fold_push_succ (hCw : C ≤ w) (hj : j < C) :
    (fold w C (push b o) (n + 1)).getLsbD j =
      ((b && decide (j = 0)) ^^ (fold w C o n).getLsbD (before C j)) := by
  have hbefore : before C j < w := by
    unfold before
    split <;> omega
  induction n with
  | zero =>
    rw [getLsbD_fold_succ (by omega)]
    simp [fold, push, eq_comm]
  | succ n ih =>
    rw [getLsbD_fold_succ (by omega), ih, getLsbD_fold_succ hbefore, push, Bool.xor_assoc,
      decide_eq_decide.mpr (mod_eq_before_iff hj)]

/-- **The window moves**: its fold turns, one bit comes in and one leaves. -/
theorem getLsbD_fold_push (hCw : C ≤ w) (hj : j < C) (hn : 0 < n) :
    (fold w C (push b o) n).getLsbD j =
      ((b && decide (j = 0)) ^^ ((fold w C o n).getLsbD (before C j) ^^
        (o (n - 1) && decide (n % C = j)))) := by
  obtain ⟨n, rfl⟩ : ∃ m, n = m + 1 := ⟨n - 1, by omega⟩
  have hbefore : before C j < w := by
    unfold before
    split <;> omega
  rw [getLsbD_fold_push_succ hCw hj, getLsbD_fold_succ hbefore, Nat.add_sub_cancel,
    decide_eq_decide.mpr (mod_eq_before_iff hj), Bool.xor_assoc, Bool.xor_self, Bool.xor_false]

end CyclicFold
