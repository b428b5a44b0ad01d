/-
# Leading bits of words

Prefixes of words of a fixed width, counted from the most significant bit.
`Agree n a b` says that the first `n` bits of two words are the same, and
`leading w n` is the mask of the first `n` bits; masking with it compares
prefixes (`and_leading_eq_iff`), and `maskWidth` reads the number of bits back.
-/
import Mathlib

open BitVec

variable {w : ℕ}

/-! ## Agreement on a prefix -/

/-- The first `n` bits are the same. -/
def Agree (n : ℕ) (a b : BitVec w) : Prop := ∀ i < n, a.getMsbD i = b.getMsbD i

instance (n : ℕ) (a b : BitVec w) : Decidable (Agree n a b) :=
  inferInstanceAs (Decidable (∀ i < n, a.getMsbD i = b.getMsbD i))

namespace Agree

variable {m n : ℕ} {a b c : BitVec w}

theorem refl (n : ℕ) (a : BitVec w) : Agree n a a := fun _ _ => rfl

theorem symm (h : Agree n a b) : Agree n b a := fun i hi => (h i hi).symm

theorem trans (hab : Agree n a b) (hbc : Agree n b c) : Agree n a c :=
  fun i hi => (hab i hi).trans (hbc i hi)

theorem mono (h : Agree n a b) (hmn : m ≤ n) : Agree m a b :=
  fun i hi => h i (Nat.lt_of_lt_of_le hi hmn)

theorem zero (a b : BitVec w) : Agree 0 a b := fun i hi => absurd hi (Nat.not_lt_zero i)

theorem succ_iff : Agree (n + 1) a b ↔ Agree n a b ∧ a.getMsbD n = b.getMsbD n := by
  constructor
  · intro h
    exact ⟨h.mono (Nat.le_succ n), h n (Nat.lt_succ_self n)⟩
  · rintro ⟨h, hn⟩ i hi
    rcases Nat.lt_succ_iff_lt_or_eq.mp hi with hlt | rfl
    · exact h i hlt
    · exact hn

end Agree

/-! ## Masks -/

/-- The mask of the first `n` bits. -/
def leading (w n : ℕ) : BitVec w := BitVec.allOnes w <<< (w - n)

theorem getMsbD_leading (n i : ℕ) : (leading w n).getMsbD i = decide (i < n ∧ i < w) := by
  rw [leading, getMsbD_shiftLeft, getMsbD_allOnes]
  congr 1
  apply propext
  omega

theorem leading_zero : leading w 0 = 0 := by
  apply eq_of_getMsbD_eq
  simp [getMsbD_leading]

/-- A mask selects the bits before its width. -/
theorem getMsbD_and_leading (a : BitVec w) (n i : ℕ) :
    (a &&& leading w n).getMsbD i = (a.getMsbD i && decide (i < n)) := by
  rw [getMsbD_and, getMsbD_leading]
  by_cases hi : i < w
  · simp [hi]
  · rw [getMsbD_of_ge a i (Nat.le_of_not_lt hi), Bool.false_and, Bool.false_and]

/-- Masking keeps the prefix. -/
theorem agree_and_leading (a : BitVec w) (n : ℕ) : Agree n (a &&& leading w n) a := by
  intro i hi
  rw [getMsbD_and_leading, decide_eq_true hi, Bool.and_true]

/-- **Masked words are equal just when their prefixes agree.** -/
theorem and_leading_eq_iff {a b : BitVec w} {n : ℕ} :
    a &&& leading w n = b &&& leading w n ↔ Agree n a b := by
  constructor
  · intro h
    have hb := agree_and_leading b n
    rw [← h] at hb
    exact (agree_and_leading a n).symm.trans hb
  · intro h
    apply eq_of_getMsbD_eq
    intro i _
    rw [getMsbD_and_leading, getMsbD_and_leading]
    by_cases hi : i < n
    · rw [h i hi]
    · rw [decide_eq_false hi, Bool.and_false, Bool.and_false]

theorem and_leading_and_leading (a : BitVec w) (n : ℕ) :
    a &&& leading w n &&& leading w n = a &&& leading w n :=
  and_leading_eq_iff.mpr (agree_and_leading a n)

/-- The number of bits a mask selects. -/
def maskWidth (m : BitVec w) : ℕ := Nat.count (fun i => m.getMsbD i = true) w

theorem maskWidth_le (m : BitVec w) : maskWidth m ≤ w := Nat.count_le _

theorem maskWidth_leading {n : ℕ} (hn : n ≤ w) : maskWidth (leading w n) = n := by
  rw [maskWidth, Nat.count_eq_card_filter_range]
  have hfilter : {i ∈ Finset.range w | (leading w n).getMsbD i = true} = Finset.range n := by
    ext i
    simp only [getMsbD_leading, Finset.mem_filter, Finset.mem_range, decide_eq_true_eq]
    omega
  rw [hfilter, Finset.card_range]

theorem leading_inj {m n : ℕ} (hm : m ≤ w) (hn : n ≤ w) : leading w m = leading w n ↔ m = n := by
  constructor
  · intro h
    rw [← maskWidth_leading hm, h, maskWidth_leading hn]
  · rintro rfl
    rfl

/-- A mask lies within another when it is not wider. -/
theorem leading_and_eq_left_iff {m n : ℕ} (hm : m ≤ w) :
    leading w m &&& leading w n = leading w m ↔ m ≤ n := by
  constructor
  · intro h
    by_contra hlt
    have hbit := congrArg (fun x => getMsbD x n) h
    simp only [getMsbD_and_leading, getMsbD_leading, lt_irrefl, decide_false] at hbit
    exact absurd hbit.symm (by simp; omega)
  · intro h
    apply eq_of_getMsbD_eq
    intro i hi
    rw [getMsbD_and_leading, getMsbD_leading, ← Bool.decide_and]
    congr 1
    apply propext
    omega
