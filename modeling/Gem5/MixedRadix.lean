/-
# Counting numbers by their digits

Reusable infrastructure for address maps that cut a number into digits of different radices
by chains of divisions and remainders.  How many numbers below a bound have given digits is
counted one digit at a time: a digit that is dropped multiplies the count by its radix, and
a digit that is read and fixed takes its radix out of the bound.
-/
import Mathlib.Data.Nat.Count

open Finset Nat

theorem div_mod_block {b k : ℕ} (hk : k < b) (m : ℕ) :
    (b * m + k) / b = m ∧ (b * m + k) % b = k := by
  have hb : 0 < b := zero_lt_of_lt hk
  constructor
  · rw [mul_add_div hb, div_eq_of_lt hk, add_zero]
  · rw [mul_add_mod, mod_eq_of_lt hk]

variable {p : ℕ → Prop} [DecidablePred p]

/-- The lowest digit is dropped. -/
theorem count_div (b m : ℕ) : Nat.count (fun k => p (k / b)) (b * m) = b * Nat.count p m := by
  induction m with
  | zero => rw [Nat.mul_zero, Nat.count_zero, Nat.count_zero, Nat.mul_zero]
  | succ m ih =>
    rw [mul_succ, count_add, ih, count_succ]
    by_cases hm : p m
    · have hall : count (fun k => p ((b * m + k) / b)) b = b := by
        apply count_of_forall
        intro k hk
        rwa [(div_mod_block hk m).1]
      rw [hall, if_pos hm, Nat.mul_add, Nat.mul_one]
    · have hnone : count (fun k => p ((b * m + k) / b)) b = 0 := by
        apply count_of_forall_not
        intro k hk
        rwa [(div_mod_block hk m).1]
      rw [hnone, if_neg hm, add_zero, add_zero]

/-- The lowest digit is read. -/
theorem count_mod_div {b x : ℕ} (hx : x < b) (m : ℕ) :
    Nat.count (fun k => k % b = x ∧ p (k / b)) (b * m) = Nat.count p m := by
  induction m with
  | zero => rw [Nat.mul_zero, Nat.count_zero, Nat.count_zero]
  | succ m ih =>
    rw [mul_succ, count_add, count_succ]
    congr 1
    -- in the last block of numbers, only the one that ends with this digit counts
    have hblock : (range b).filter (fun k => (b * m + k) % b = x ∧ p ((b * m + k) / b)) =
        if p m then {x} else ∅ := by
      ext k
      rw [mem_filter, mem_range]
      constructor
      · rintro ⟨hk, hkx, hp⟩
        rw [(div_mod_block hk m).1] at hp
        rw [(div_mod_block hk m).2] at hkx
        rw [if_pos hp, hkx]
        exact mem_singleton_self x
      · intro hk
        split at hk
        · next hp =>
            obtain rfl := mem_singleton.mp hk
            exact ⟨hx, (div_mod_block hx m).2, by rwa [(div_mod_block hx m).1]⟩
        · exact absurd hk (notMem_empty k)
    rw [count_eq_card_filter_range, hblock]
    split
    · exact card_singleton x
    · exact card_empty

/-- The highest digit is read. -/
theorem count_mod {b x : ℕ} (hx : x < b) : Nat.count (fun k => k % b = x) b = 1 := by
  have hcount := count_mod_div (p := fun _ => True) hx 1
  simpa using hcount
