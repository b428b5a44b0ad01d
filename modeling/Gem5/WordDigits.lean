/-
# Words and their digits

A word of `W` bits is cut into digits of `w` bits, the lowest one first.  A program
puts them together again from the highest one down, by shifting what it has and
adding the next digit (`join`) or by shifting each digit to its place (`place`).
-/
import Mathlib

open BitVec Nat

namespace Digits

variable {W w n : ℕ}

/-- The digit at `i`. -/
def digit (w : ℕ) (x : BitVec W) (i : ℕ) : BitVec w := (x >>> (w * i)).setWidth w

/-- The digits, put together by shifting the word. -/
def join (W : ℕ) (d : Fin n → BitVec w) : BitVec W :=
  Fin.foldr n (fun i word => (word <<< w) ||| (d i).setWidth W) 0

/-- The digits, put together by shifting each of them to its place. -/
def place (W : ℕ) (d : Fin n → BitVec w) : BitVec W :=
  Fin.foldr n (fun i word => word ||| ((d i).setWidth W <<< ((i : ℕ) * w))) 0

theorem getLsbD_digit (x : BitVec W) (i j : ℕ) :
    (digit w x i).getLsbD j = (decide (j < w) && x.getLsbD (w * i + j)) := by
  simp [digit]

theorem getLsbD_join (hw : 0 < w) (d : Fin n → BitVec w) {j : ℕ} (hj : j < W) :
    (join W d).getLsbD j = if h : j / w < n then (d ⟨j / w, h⟩).getLsbD (j % w) else false := by
  induction n generalizing j with
  | zero => simp [join]
  | succ n ih =>
    have hsucc : join W d = (join W (fun i => d i.succ) <<< w) ||| (d 0).setWidth W := by
      rw [join, Fin.foldr_succ]
      rfl
    rw [hsucc, getLsbD_or, getLsbD_shiftLeft, getLsbD_setWidth]
    by_cases hlow : j < w
    · -- the lowest digit
      have hdiv : j / w = 0 := div_eq_of_lt hlow
      have hmod : j % w = j := mod_eq_of_lt hlow
      simp [hj, hlow, hdiv, hmod]
    · have hdiv : j / w = (j - w) / w + 1 := by
        rw [div_eq_sub_div hw (by omega)]
      have hmod : j % w = (j - w) % w := by
        rw [mod_eq_sub_mod (by omega)]
      have hzero : (d 0).getLsbD j = false := getLsbD_of_ge _ _ (by omega)
      rw [ih _ (by omega), hzero]
      simp only [hj, hlow, decide_true, decide_false, Bool.true_and, Bool.and_false,
        Bool.or_false, hdiv, hmod, add_lt_add_iff_right]
      rfl

/-- A bit of an alternative is one of some of its parts. -/
theorem getLsbD_foldr_or (x : Fin n → BitVec W) (j : ℕ) :
    (Fin.foldr n (fun i word => word ||| x i) 0).getLsbD j = true ↔
      ∃ i, (x i).getLsbD j = true := by
  induction n with
  | zero => simp
  | succ n ih =>
    rw [Fin.foldr_succ, getLsbD_or, Bool.or_eq_true, ih fun i => x i.succ, Fin.exists_fin_succ]
    exact Or.comm

theorem getLsbD_place (d : Fin n → BitVec w) {j : ℕ} (hj : j < W) :
    (place W d).getLsbD j = if h : j / w < n then (d ⟨j / w, h⟩).getLsbD (j % w) else false := by
  rw [Bool.eq_iff_iff, place, getLsbD_foldr_or]
  constructor
  · rintro ⟨i, hi⟩
    simp only [getLsbD_shiftLeft, getLsbD_setWidth, hj, decide_true, Bool.true_and,
      Bool.and_eq_true, Bool.not_eq_true', decide_eq_false_iff_not, not_lt] at hi
    obtain ⟨hle, -, hbit⟩ := hi
    -- only the digit at `j / w` reaches the bit
    have hlt : j - i * w < w := lt_of_getLsbD hbit
    have hdiv : j / w = i := by
      apply Nat.div_eq_of_lt_le hle
      rw [Nat.succ_mul]
      omega
    have hmod : j % w = j - i * w := by
      have := div_add_mod j w
      rw [hdiv, mul_comm] at this
      omega
    have hfin : (⟨j / w, hdiv ▸ i.isLt⟩ : Fin n) = i := Fin.ext hdiv
    rw [dif_pos (hdiv ▸ i.isLt), hfin, hmod]
    exact hbit
  · intro hbit
    split_ifs at hbit with hlt
    refine ⟨⟨j / w, hlt⟩, ?_⟩
    have hle : j / w * w ≤ j := div_mul_le_self j w
    have hmod : j - j / w * w = j % w := by
      have := div_add_mod j w
      rw [mul_comm] at this
      omega
    simp [hj, hle, hmod, hbit]

/-- The digits of a word give the word. -/
theorem join_digit (hw : 0 < w) (hW : W ≤ w * n) (x : BitVec W) :
    join W (fun i : Fin n => digit w x i) = x := by
  apply eq_of_getLsbD_eq
  intro j hj
  have hlt : j / w < n := Nat.div_lt_of_lt_mul (lt_of_lt_of_le hj hW)
  rw [getLsbD_join hw _ hj, dif_pos hlt, getLsbD_digit, div_add_mod,
    decide_eq_true (mod_lt j hw), Bool.true_and]

theorem place_digit (hw : 0 < w) (hW : W ≤ w * n) (x : BitVec W) :
    place W (fun i : Fin n => digit w x i) = x := by
  apply eq_of_getLsbD_eq
  intro j hj
  have hlt : j / w < n := Nat.div_lt_of_lt_mul (lt_of_lt_of_le hj hW)
  rw [getLsbD_place _ hj, dif_pos hlt, getLsbD_digit, div_add_mod,
    decide_eq_true (mod_lt j hw), Bool.true_and]

/-- The word has the digits it was put together from. -/
theorem digit_join (hw : 0 < w) (hW : w * n ≤ W) (d : Fin n → BitVec w) (i : Fin n) :
    digit w (join W d) i = d i := by
  apply eq_of_getLsbD_eq
  intro j hj
  have hdiv : (w * i + j) / w = i := by
    rw [mul_add_div hw, div_eq_of_lt hj, add_zero]
  have hmod : (w * i + j) % w = j := by
    rw [mul_add_mod, mod_eq_of_lt hj]
  have hlt : w * i + j < W := by
    calc w * i + j < w * (i + 1) := by rw [Nat.mul_succ]; omega
      _ ≤ w * n := mul_le_mul_left w i.isLt
      _ ≤ W := hW
  have hin : (w * i + j) / w < n := by
    rw [hdiv]
    exact i.isLt
  have hfin : (⟨(w * i + j) / w, hin⟩ : Fin n) = i := Fin.ext hdiv
  rw [getLsbD_digit, decide_eq_true hj, Bool.true_and, getLsbD_join hw _ hlt, dif_pos hin, hfin,
    hmod]

end Digits
