/-
# Addresses and bit fields

`Addr` and the bit-field helpers of base/bitfield.hh and base/intmath.hh.
-/
import Mathlib

open BitVec Finset

/-- `Addr`, a 64-bit unsigned integer. -/
abbrev Addr := BitVec 64

/-- `isPowerOf2` of base/intmath.hh. -/
def isPowerOf2 (n : ℕ) : Bool := n != 0 && (n &&& (n - 1)) == 0

theorem isPowerOf2_iff (n : ℕ) : isPowerOf2 n ↔ ∃ e, n = 2 ^ e := by
  by_cases hn : n = 0
  · subst hn
    simp only [isPowerOf2, bne_self_eq_false, Bool.false_and, Bool.false_eq_true, false_iff]
    rintro ⟨e, he⟩
    have : 0 < 2 ^ e := by positivity
    omega
  · simp [isPowerOf2, hn, Nat.and_sub_one_eq_zero_iff_isPowerOfTwo hn, Nat.isPowerOfTwo]

/-! ## Bit fields -/

/-- `mask(nbits)`. -/
def mask (nbits : ℕ) : BitVec 64 :=
  if 64 ≤ nbits then BitVec.allOnes 64 else ((1 : BitVec 64) <<< nbits) - 1

/-- `bits(val, first, last)`. -/
def bits (val : BitVec 64) (first last : ℕ) : BitVec 64 :=
  (val >>> last) &&& mask (first - last + 1)

/-- `mbits(val, first, last)`; `first + 1` is an `unsigned` and may wrap around. -/
def mbits (val : BitVec 64) (first last : ℕ) : BitVec 64 :=
  val &&& (mask ((first + 1) % 2 ^ 32) &&& ~~~ mask last)

/-- `insertBits(val, first, last, bit_val)`. -/
def insertBits {m : ℕ} (val : BitVec 64) (first last : ℕ) (bitVal : BitVec m) : BitVec 64 :=
  let bmask := mbits (BitVec.allOnes 64) first last
  (val &&& ~~~ bmask) ||| ((bitVal.setWidth 64 <<< last) &&& bmask)

variable {n : ℕ}

theorem toNat_mask (hn : n < 64) : (mask n).toNat = 2 ^ n - 1 := by
  have hpow : (2 : ℕ) ^ n < 2 ^ 64 := Nat.pow_lt_pow_right (by norm_num) hn
  have hshift : ((1 : BitVec 64) <<< n).toNat = 2 ^ n := by
    rw [toNat_shiftLeft, show (1 : BitVec 64).toNat = 1 from rfl, Nat.one_shiftLeft,
      Nat.mod_eq_of_lt hpow]
  have hle : (1 : BitVec 64) ≤ (1 : BitVec 64) <<< n := by
    rw [le_def, hshift]
    exact Nat.one_le_two_pow
  rw [mask, if_neg (by omega), toNat_sub_of_le hle, hshift]
  rfl

theorem toNat_and_mask (hn : n < 64) (a : Addr) : (a &&& mask n).toNat = a.toNat % 2 ^ n := by
  rw [toNat_and, toNat_mask hn, Nat.and_two_pow_sub_one_eq_mod]

theorem getLsbD_mask (n i : ℕ) (hi : i < 64) : (mask n).getLsbD i = decide (i < n) := by
  by_cases hn : 64 ≤ n
  · rw [mask, if_pos hn, getLsbD_allOnes, decide_eq_true hi, decide_eq_true (by omega)]
  · rw [getLsbD, toNat_mask (by omega), Nat.testBit_two_pow_sub_one]

theorem getLsbD_bits (val : BitVec 64) (first last i : ℕ) (hi : i < 64) :
    (bits val first last).getLsbD i
      = (decide (i < first - last + 1) && val.getLsbD (last + i)) := by
  simp [bits, getLsbD_mask _ _ hi, Bool.and_comm]

variable {first : ℕ}

theorem getLsbD_mbits (val : BitVec 64) (hfirst : first + 1 < 2 ^ 32) (last i : ℕ) (hi : i < 64) :
    (mbits val first last).getLsbD i = (val.getLsbD i && decide (last ≤ i ∧ i ≤ first)) := by
  simp only [mbits, Nat.mod_eq_of_lt hfirst, getLsbD_and, getLsbD_not, getLsbD_mask _ _ hi, hi,
    decide_true]
  by_cases h1 : i < last
  · simp [h1]
  · simp [h1, Nat.le_of_not_lt h1]

variable {m : ℕ}

section

variable (val : BitVec 64)

theorem getLsbD_insertBits (hfirst : first + 1 < 2 ^ 32)
    (last : ℕ) (b : BitVec m) (i : ℕ) (hi : i < 64) :
    (insertBits val first last b).getLsbD i
      = if last ≤ i ∧ i ≤ first then b.getLsbD (i - last) else val.getLsbD i := by
  have hones : (allOnes 64).getLsbD i = true := by
    rw [getLsbD_allOnes, decide_eq_true hi]
  simp only [insertBits, getLsbD_or, getLsbD_and, getLsbD_not, getLsbD_shiftLeft,
    getLsbD_mbits _ hfirst _ _ hi, hones, hi, decide_true]
  by_cases hin : last ≤ i ∧ i ≤ first
  · have hlt : i - last < 64 := by omega
    simp [hin, hlt]
  · simp [hin]

/-- One bit is replaced, the others stay. -/
theorem getLsbD_insertBits_bit {k : ℕ} (hk : k + 1 < 2 ^ 32) (b : BitVec m) (i : ℕ) (hi : i < 64) :
    (insertBits val k k b).getLsbD i = if i = k then b.getLsbD 0 else val.getLsbD i := by
  rw [getLsbD_insertBits val hk k b i hi]
  by_cases hik : i = k
  · subst hik
    simp
  · rw [if_neg (by omega), if_neg hik]

/-- With `first` the largest `unsigned` nothing is inserted. -/
theorem insertBits_wrap (b : BitVec m) : insertBits val (2 ^ 32 - 1) 0 b = val := by
  have hmask : mbits (allOnes 64) (2 ^ 32 - 1) 0 = 0 := by decide
  have hones : ~~~ (0 : BitVec 64) = allOnes 64 := by decide
  simp only [insertBits, hmask, hones]
  rw [and_allOnes]
  simp

/-! ## Counting bits -/

/-- `popCount(val)`. -/
def popCount : ℕ := (List.range 64).countP fun i => val.getLsbD i

end

/-- `ctz64(value)`, 64 for zero. -/
def ctz64 (value : BitVec 64) : ℕ := ((List.range 64).find? fun i => value.getLsbD i).getD 64

theorem popCount_eq_sum (v : BitVec 64) :
    popCount v = ∑ i ∈ Finset.range 64, (v.getLsbD i).toNat := by
  have hsum : ∀ l : List ℕ, l.countP (fun i => v.getLsbD i)
      = (l.map fun i => (v.getLsbD i).toNat).sum := by
    intro l
    induction l with
    | nil => rfl
    | cons i l ih =>
      rw [List.countP_cons, List.map_cons, ih, Nat.add_comm]
      cases v.getLsbD i <;> rfl
  rw [popCount, hsum]
  rfl

/-- One bit counted apart: the rest is any value that agrees elsewhere. -/
theorem popCount_split {v v' : BitVec 64} {p : ℕ} (hp : p < 64)
    (hsame : ∀ i, i < 64 → i ≠ p → v'.getLsbD i = v.getLsbD i) (hclear : v'.getLsbD p = false) :
    popCount v = (v.getLsbD p).toNat + popCount v' := by
  have hmem : p ∈ range 64 := mem_range.mpr hp
  rw [popCount_eq_sum, popCount_eq_sum, ← add_sum_erase _ _ hmem,
    ← add_sum_erase _ (fun i => (v'.getLsbD i).toNat) hmem, hclear]
  have hrest : ∑ i ∈ (range 64).erase p, (v'.getLsbD i).toNat
      = ∑ i ∈ (range 64).erase p, (v.getLsbD i).toNat := by
    apply sum_congr rfl
    intro i hi
    obtain ⟨hne, hi⟩ := mem_erase.mp hi
    rw [hsame i (mem_range.mp hi) hne]
  rw [hrest, Bool.toNat_false, Nat.zero_add]

/-- The lowest set bit. -/
theorem ctz64_spec {v : BitVec 64} (hv : v ≠ 0) :
    ctz64 v < 64 ∧ v.getLsbD (ctz64 v) = true ∧ ∀ i < ctz64 v, v.getLsbD i = false := by
  cases hfind : (List.range 64).find? fun i => v.getLsbD i with
  | none =>
    refine absurd ?_ hv
    apply eq_of_getLsbD_eq
    intro i hi
    have hbit := List.find?_eq_none.mp hfind i (List.mem_range.mpr hi)
    simpa using hbit
  | some k =>
    have hk : ctz64 v = k := by rw [ctz64, hfind, Option.getD_some]
    obtain ⟨hset, hmem, hlow⟩ := List.find?_range_eq_some.mp hfind
    rw [hk]
    exact ⟨List.mem_range.mp hmem, hset, fun i hi => by simpa using hlow i hi⟩
