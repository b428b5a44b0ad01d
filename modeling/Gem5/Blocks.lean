/-
# Accesses cut at block boundaries

Reusable infrastructure for components that split an access of `len` bytes from address `a`
on into pieces, one for each block of `B` bytes it touches.  The piece number `j` starts at
`pieceStart B a j`, which is `a` for the first and the start of a block for the others, and
`pieces B a len` are all of them as half-open intervals.  They tile the access (`tiles_pieces`).
-/
import Mathlib.Data.Nat.Basic
import Mathlib.Data.Nat.Bitwise

open Nat

/-- How many blocks the access touches. -/
def pieceCount (B a len : ℕ) : ℕ := (a % B + len + B - 1) / B

def pieceStart (B a j : ℕ) : ℕ := max a ((a / B + j) * B)

def pieceStop (B a len j : ℕ) : ℕ := min (a + len) ((a / B + j + 1) * B)

def pieces (B a len : ℕ) : List (ℕ × ℕ) :=
  (List.range (pieceCount B a len)).map fun j => (pieceStart B a j, pieceStop B a len j)

section

variable {B a len j : ℕ}

theorem pieceStart_zero (B a : ℕ) : pieceStart B a 0 = a :=
  max_eq_left (div_mul_le_self a B)

variable (hB : 0 < B)

include hB

theorem pieceStart_succ (a j : ℕ) : pieceStart B a (j + 1) = (a / B + j + 1) * B := by
  apply max_eq_right
  have hlt : a < (a / B + 1) * B := lt_mul_of_div_lt (lt_succ_self _) hB
  have hle : (a / B + 1) * B ≤ (a / B + (j + 1)) * B := mul_le_mul_right B (by omega)
  omega

theorem pieceStart_div (a j : ℕ) : pieceStart B a j / B = a / B + j := by
  cases j with
  | zero => rw [pieceStart_zero, add_zero]
  | succ j => rw [pieceStart_succ hB, Nat.mul_div_cancel _ hB, Nat.add_assoc]

/-- No block is touched behind the one of the last byte. -/
theorem add_le_of_le_pieceCount (hlen : 0 < len) (hj : j ≤ pieceCount B a len) :
    a / B + j ≤ (a + len - 1) / B + 1 := by
  have hcount : j * B ≤ a % B + len + B - 1 := by
    calc j * B ≤ pieceCount B a len * B := mul_le_mul_right B hj
      _ ≤ a % B + len + B - 1 := div_mul_le_self _ _
  have hsplit := div_add_mod' a B
  have hlast : (a / B + j) * B ≤ (a + len - 1) + B := by
    rw [add_mul]
    omega
  calc a / B + j = (a / B + j) * B / B := (Nat.mul_div_cancel _ hB).symm
    _ ≤ (a + len - 1 + B) / B := Nat.div_le_div_right hlast
    _ = (a + len - 1) / B + 1 := add_div_right _ hB

theorem pieceStart_lt (hlen : 0 < len) (hj : j < pieceCount B a len) :
    pieceStart B a j < a + len := by
  have hle : (a / B + j) * B ≤ a + len - 1 := by
    have hlast := add_le_of_le_pieceCount hB hlen (succ_le_of_lt hj)
    calc (a / B + j) * B ≤ (a + len - 1) / B * B := mul_le_mul_right B (by omega)
      _ ≤ a + len - 1 := div_mul_le_self _ _
  rw [pieceStart]
  omega

theorem pieceStart_lt_pieceStop (hlen : 0 < len) (hj : j < pieceCount B a len) :
    pieceStart B a j < pieceStop B a len j := by
  have hblock : pieceStart B a j < (a / B + j + 1) * B := by
    rw [← pieceStart_div hB a j]
    exact lt_mul_of_div_lt (lt_succ_self _) hB
  exact lt_min (pieceStart_lt hB hlen hj) hblock

/-- A piece stays in its block. -/
theorem pieceStop_le (a len j : ℕ) : pieceStop B a len j ≤ (pieceStart B a j / B + 1) * B := by
  rw [pieceStart_div hB]
  exact min_le_right _ _

theorem pieceCount_pos (hlen : 0 < len) : 0 < pieceCount B a len :=
  div_pos (by omega) hB

end

/-! ## Tiling -/

/-- The intervals are not empty, stay in a block each, and lead from `a` to `stop`, one behind
the other. -/
def Tiles (B a stop : ℕ) : List (ℕ × ℕ) → Prop
  | [] => a = stop
  | (x, y) :: l => x = a ∧ x < y ∧ y ≤ (x / B + 1) * B ∧ Tiles B y stop l

section

variable {B a len stop : ℕ} {l : List (ℕ × ℕ)}

theorem Tiles.last {x y : ℕ} (h : Tiles B a stop (l ++ [(x, y)])) :
    x < y ∧ y ≤ (x / B + 1) * B ∧ y = stop := by
  induction l generalizing a with
  | nil => exact h.2
  | cons p l ih => exact ih h.2.2.2

variable (hB : 0 < B)

include hB

theorem Tiles.le (h : Tiles B a stop l) (hl : l ≠ []) : stop ≤ (a / B + l.length) * B := by
  induction l generalizing a with
  | nil => exact absurd rfl hl
  | cons p l ih =>
    obtain ⟨rfl, -, hblock, hrest⟩ := h
    rcases eq_or_ne l [] with rfl | hne
    · exact hrest ▸ hblock
    · have hdiv : p.2 / B ≤ p.1 / B + 1 :=
        (Nat.div_le_div_right hblock).trans_eq (Nat.mul_div_cancel _ hB)
      refine (ih hrest hne).trans (mul_le_mul_right B ?_)
      rw [List.length_cons]
      omega

theorem tiles_pieces (hlen : 0 < len) : Tiles B a (a + len) (pieces B a len) := by
  have hend : a + len ≤ (a / B + pieceCount B a len) * B := by
    have hlt : a % B + len + B - 1 < (pieceCount B a len + 1) * B :=
      lt_mul_of_div_lt (lt_succ_self _) hB
    have hsplit := div_add_mod' a B
    rw [Nat.add_mul] at hlt ⊢
    omega
  -- the pieces from number `j` on
  have hfrom : ∀ k j, j + k = pieceCount B a len → Tiles B (min (a + len) (pieceStart B a j))
      (a + len) ((List.range' j k).map fun j => (pieceStart B a j, pieceStop B a len j)) := by
    intro k
    induction k with
    | zero =>
      rintro j rfl
      exact min_eq_left (hend.trans (le_max_right _ _))
    | succ k ih =>
      intro j hj
      have hlt : j < pieceCount B a len := by omega
      have hnext := ih (j + 1) (by omega)
      rw [pieceStart_succ hB] at hnext
      exact ⟨(min_eq_right (pieceStart_lt hB hlen hlt).le).symm,
        pieceStart_lt_pieceStop hB hlen hlt, pieceStop_le hB a len j, hnext⟩
  have h := hfrom _ 0 (Nat.zero_add _)
  rwa [pieceStart_zero, min_eq_right (by omega), ← List.range_eq_range'] at h

end

/-! ## Alignment of machine words -/

section

variable {w k : ℕ} {m : BitVec w}

/-- The last byte of the block of an address. -/
theorem toNat_or_lowMask (hm : m.toNat = 2 ^ k - 1) (a : BitVec w) :
    (a ||| m).toNat + 1 = (a.toNat / 2 ^ k + 1) * 2 ^ k := by
  have hpos : 0 < 2 ^ k := Nat.two_pow_pos k
  have hor : a.toNat ||| (2 ^ k - 1) = a.toNat / 2 ^ k * 2 ^ k + (2 ^ k - 1) := by
    apply eq_of_testBit_eq
    intro i
    rw [mul_comm, two_pow_add_eq_or_of_lt (sub_one_lt hpos.ne') _, testBit_or, testBit_or,
      testBit_two_pow_mul, testBit_div_two_pow]
    by_cases hi : i < k
    · simp [hi]
    · simp [Nat.le_of_not_lt hi]
  rw [BitVec.toNat_or, hm, hor, add_mul]
  omega

/-- The start of the block of an address. -/
theorem toNat_and_not_lowMask (hm : m.toNat = 2 ^ k - 1) (a : BitVec w) :
    (a &&& ~~~ m).toNat = a.toNat / 2 ^ k * 2 ^ k := by
  apply eq_of_testBit_eq
  intro i
  rw [mul_comm, testBit_two_pow_mul, testBit_div_two_pow, BitVec.testBit_toNat,
    BitVec.getLsbD_and, BitVec.getLsbD_not, BitVec.getLsbD, BitVec.getLsbD, hm]
  by_cases hi : i < k
  · simp [hi]
  · rw [Nat.sub_add_cancel (Nat.le_of_not_lt hi)]
    by_cases hw : i < w
    · simp [hw, Nat.le_of_not_lt hi]
    · have hzero : a.toNat.testBit i = false :=
        Nat.testBit_lt_two_pow (a.isLt.trans_le (Nat.pow_le_pow_right (by omega) (by omega)))
      simp [hzero]

end
