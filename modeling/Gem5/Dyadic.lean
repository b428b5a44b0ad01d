/-
# Counting in dyadic blocks

Positions are natural numbers; the block `(i, k)` holds the positions `j` with
`j / 2 ^ i = k`, so a block of level `i + 1` is made of two blocks of level
`i`.  `count` counts the members of a finite set in a block, `above` those of
the block around `x` that lie after `x`; both are computed from the level
below (`count_succ`, `above_succ`), which is what a tree of partial sums does
on the way from a leaf to its root.

A block is *spent* when all its positions have been given out and none is a
member any more.
-/
import Mathlib

open Finset

namespace Dyadic

variable {L L' : Finset ℕ} {N i k x : ℕ}

theorem div_pow_succ (j i : ℕ) : j / 2 ^ (i + 1) = j / 2 ^ i / 2 := by
  rw [pow_succ, Nat.div_div_eq_div_mul]

/-! ## Counts -/

/-- The members in a block. -/
def count (L : Finset ℕ) (i k : ℕ) : ℕ := (L.filter fun j => j / 2 ^ i = k).card

/-- A block is made of its two halves. -/
theorem count_succ (L : Finset ℕ) (i k : ℕ) :
    count L (i + 1) k = count L i (2 * k) + count L i (2 * k + 1) := by
  unfold count
  rw [← card_union_of_disjoint]
  · congr 1
    ext j
    simp only [mem_filter, mem_union, div_pow_succ]
    constructor
    · rintro ⟨hj, h⟩
      have : j / 2 ^ i = 2 * k ∨ j / 2 ^ i = 2 * k + 1 := by omega
      tauto
    · rintro (⟨hj, h⟩ | ⟨hj, h⟩) <;> exact ⟨hj, by omega⟩
  · rw [disjoint_filter]
    omega

/-- No more members than positions. -/
theorem count_le (L : Finset ℕ) (i k : ℕ) : count L i k ≤ 2 ^ i := by
  have hsub : (L.filter fun j => j / 2 ^ i = k) ⊆ Ico (k * 2 ^ i) ((k + 1) * 2 ^ i) := by
    intro j hj
    obtain ⟨-, rfl⟩ := mem_filter.mp hj
    rw [mem_Ico]
    exact ⟨Nat.div_mul_le_self j _, Nat.lt_mul_of_div_lt (Nat.lt_succ_self _) (by positivity)⟩
  have hcard := card_le_card hsub
  have hsize : (k + 1) * 2 ^ i - k * 2 ^ i = 2 ^ i := by
    rw [Nat.add_mul, Nat.one_mul, Nat.add_sub_cancel_left]
  rwa [Nat.card_Ico, hsize] at hcard

theorem count_eq_zero : count L i k = 0 ↔ ∀ j ∈ L, j / 2 ^ i ≠ k := by
  simp [count]

/-- Sets that agree away from `x` have the same counts away from `x`'s block. -/
theorem count_congr (h : ∀ j, j ≠ x → (j ∈ L ↔ j ∈ L')) (hk : k ≠ x / 2 ^ i) :
    count L i k = count L' i k := by
  unfold count
  congr 1
  ext j
  simp only [mem_filter, and_congr_left_iff]
  rintro rfl
  apply h
  rintro rfl
  exact hk rfl

theorem count_zero_of_not_mem (h : x ∉ L) : count L 0 x = 0 := by
  rw [count_eq_zero]
  rintro j hj rfl
  exact h (by simpa using hj)

/-! ## Members after a position -/

/-- The members of the block around `x` that lie after `x`. -/
def above (L : Finset ℕ) (x i : ℕ) : ℕ :=
  (L.filter fun j => x < j ∧ j / 2 ^ i = x / 2 ^ i).card

theorem above_zero (L : Finset ℕ) (x : ℕ) : above L x 0 = 0 := by
  simp only [above, pow_zero, card_eq_zero, filter_eq_empty_iff]
  omega

/-- Going up one level from a left half adds the right half. -/
theorem above_succ (L : Finset ℕ) (x i : ℕ) : above L x (i + 1)
      = above L x i + if x / 2 ^ i % 2 = 0 then count L i (x / 2 ^ i + 1) else 0 := by
  have hmono : ∀ j, x < j → x / 2 ^ i ≤ j / 2 ^ i := fun j hj => Nat.div_le_div_right hj.le
  split
  · unfold above count
    rw [← card_union_of_disjoint]
    · congr 1
      ext j
      simp only [mem_filter, mem_union, div_pow_succ]
      constructor
      · rintro ⟨hj, hx, h⟩
        have : j / 2 ^ i = x / 2 ^ i ∨ j / 2 ^ i = x / 2 ^ i + 1 := by omega
        tauto
      · rintro (⟨hj, hx, h⟩ | ⟨hj, h⟩)
        · exact ⟨hj, hx, by omega⟩
        · refine ⟨hj, ?_, by omega⟩
          by_contra hle
          have : j / 2 ^ i ≤ x / 2 ^ i := Nat.div_le_div_right (by omega)
          omega
    · rw [disjoint_filter]
      omega
  · unfold above
    congr 1
    ext j
    simp only [mem_filter, div_pow_succ, and_congr_right_iff]
    intro _ hx
    have := hmono j hx
    omega

/-- At the root all members after `x` are counted. -/
theorem above_top (hL : ∀ j ∈ L, j < 2 ^ i) (hx : x < 2 ^ i) :
    above L x i = (L.filter (x < ·)).card := by
  unfold above
  congr 1
  refine filter_congr fun j hj => ?_
  rw [Nat.div_eq_of_lt (hL j hj), Nat.div_eq_of_lt hx]
  simp

/-! ## Spent blocks -/

/-- All positions of the block are below `N`, and none is a member. -/
def Spent (L : Finset ℕ) (N i k : ℕ) : Prop := k < N / 2 ^ i ∧ count L i k = 0

theorem Spent.join (hl : Spent L N i (2 * k)) (hr : Spent L N i (2 * k + 1)) :
    Spent L N (i + 1) k := by
  refine ⟨?_, by rw [count_succ, hl.2, hr.2]⟩
  rw [div_pow_succ]
  have := hr.1
  omega

theorem not_spent_of_mem (h : x ∈ L) (i : ℕ) : ¬ Spent L N i (x / 2 ^ i) :=
  fun hs => count_eq_zero.mp hs.2 x h rfl

theorem not_spent_next (L : Finset ℕ) (N i : ℕ) : ¬ Spent L N i (N / 2 ^ i) :=
  fun hs => lt_irrefl _ hs.1

/-- Removing a member keeps blocks spent. -/
theorem Spent.erase (h : Spent L N i k) (x : ℕ) : Spent (L.erase x) N i k := by
  refine ⟨h.1, count_eq_zero.mpr fun j hj => ?_⟩
  exact count_eq_zero.mp h.2 j (mem_of_mem_erase hj)

/-- Giving out the next position keeps blocks spent. -/
theorem Spent.insert (h : Spent L N i k) : Spent (insert N L) (N + 1) i k := by
  refine ⟨h.1.trans_le (Nat.div_le_div_right (Nat.le_succ N)), ?_⟩
  rw [← h.2]
  refine (count_congr ?_ (ne_of_lt h.1)).symm
  intro j hj
  simp [hj]

end Dyadic
