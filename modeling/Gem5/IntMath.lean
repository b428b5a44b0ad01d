/-
# Products of words

`mulUnsignedManual` and `mulSignedManual` of base/intmath.hh, and what they compute.
-/
import Mathlib

open BitVec

namespace IntMath

/-- `(uint32_t)(val >> 32)` -/
def upper (val : BitVec 64) : BitVec 64 := ((val >>> 32).setWidth 32).setWidth 64

/-- `(uint32_t)val` -/
def lower (val : BitVec 64) : BitVec 64 := (val.setWidth 32).setWidth 64

variable (valA valB : BitVec 64) (int128 : Bool)

/-- The high and the low word. -/
def mulUnsignedManual : BitVec 64 × BitVec 64 :=
  let A := upper valA
  let a := lower valA
  let B := upper valB
  let b := lower valB
  let Ab := A * b
  let aB := a * B
  let c1 := upper (a * b)
  let c2 := (c1 >>> 1) + (Ab >>> 1) + (aB >>> 1)
  let c2 := c2 + (((c1 &&& 1) + (Ab &&& 1) + (aB &&& 1)) >>> 1)
  (A * B + (c2 >>> 31), valA * valB)

/-- With `__SIZEOF_INT128__` there is a product of 128 bits. -/
def mulUnsigned : BitVec 64 × BitVec 64 :=
  if int128 then
    let val := valA.setWidth 128 * valB.setWidth 128
    ((val >>> 64).setWidth 64, val.setWidth 64)
  else mulUnsignedManual valA valB

def mulSignedManual : BitVec 64 × BitVec 64 :=
  let (high, low) := mulUnsigned valA valB int128
  let high := if valA.toInt < 0 then high - valB else high
  (if valB.toInt < 0 then high - valA else high, low)

theorem toNat_upper : (upper valA).toNat = valA.toNat / 2 ^ 32 := by
  simp only [upper, toNat_setWidth, toNat_ushiftRight, Nat.shiftRight_eq_div_pow]
  omega

theorem toNat_lower : (lower valA).toNat = valA.toNat % 2 ^ 32 := by
  simp only [lower, toNat_setWidth]
  omega

/-- No carry is lost. -/
theorem mulUnsignedManual_high :
    (mulUnsignedManual valA valB).1.toNat = valA.toNat * valB.toNat / 2 ^ 64 := by
  have hand (v : BitVec 64) : (v &&& 1).toNat = v.toNat % 2 :=
    (toNat_and v 1).trans (Nat.and_one_is_mod _)
  have hmul (v w : BitVec 64) (hv : v.toNat < 2 ^ 32) (hw : w.toNat < 2 ^ 32) :
      (v * w).toNat = v.toNat * w.toNat ∧ v.toNat * w.toNat ≤ 4294967295 * 4294967295 := by
    have hle := Nat.mul_le_mul (Nat.le_of_lt_succ hv) (Nat.le_of_lt_succ hw)
    exact ⟨by rw [toNat_mul, Nat.mod_eq_of_lt (by omega)], hle⟩
  have hA := toNat_upper valA
  have ha := toNat_lower valA
  have hB := toNat_upper valB
  have hb := toNat_lower valB
  obtain ⟨hab, hab_le⟩ := hmul (lower valA) (lower valB) (by omega) (by omega)
  obtain ⟨hAb, hAb_le⟩ := hmul (upper valA) (lower valB) (by omega) (by omega)
  obtain ⟨haB, haB_le⟩ := hmul (lower valA) (upper valB) (by omega) (by omega)
  obtain ⟨hAB, hAB_le⟩ := hmul (upper valA) (upper valB) (by omega) (by omega)
  have hprod : valA.toNat * valB.toNat = 2 ^ 64 * (upper valA * upper valB).toNat
      + 2 ^ 32 * ((upper valA * lower valB).toNat + (lower valA * upper valB).toNat)
      + (lower valA * lower valB).toNat := by
    rw [hab, hAb, haB, hAB, ← Nat.div_add_mod valA.toNat (2 ^ 32), ← hA, ← ha,
      ← Nat.div_add_mod valB.toNat (2 ^ 32), ← hB, ← hb]
    ring
  simp only [mulUnsignedManual, toNat_add, toNat_ushiftRight, hand, toNat_upper (lower _ * _),
    Nat.shiftRight_eq_div_pow]
  omega

theorem mulUnsigned_toNat :
    (mulUnsigned valA valB int128).1.toNat * 2 ^ 64 + (mulUnsigned valA valB int128).2.toNat
      = valA.toNat * valB.toNat := by
  cases int128 with
  | false =>
    have hlow : (mulUnsignedManual valA valB).2.toNat = _ := toNat_mul _ _
    rw [mulUnsigned, if_neg Bool.false_ne_true, mulUnsignedManual_high, hlow, Nat.div_add_mod']
  | true =>
    have hval : (valA.setWidth 128 * valB.setWidth 128).toNat = valA.toNat * valB.toNat := by
      rw [toNat_mul, toNat_setWidth_of_le (by decide), toNat_setWidth_of_le (by decide)]
      exact Nat.mod_eq_of_lt (Nat.mul_lt_mul'' valA.isLt valB.isLt : _ < 2 ^ 64 * 2 ^ 64)
    simp only [mulUnsigned, if_true, toNat_setWidth, toNat_ushiftRight, Nat.shiftRight_eq_div_pow]
    omega

/-- **Products are exact**, the signed ones in two's complement. -/
theorem mul_exact :
    (mulUnsignedManual valA valB).1.toNat * 2 ^ 64 + (mulUnsignedManual valA valB).2.toNat
        = valA.toNat * valB.toNat ∧
      (mulSignedManual valA valB int128).1.toInt * 2 ^ 64
        + (mulSignedManual valA valB int128).2.toNat = valA.toInt * valB.toInt := by
  refine ⟨mulUnsigned_toNat valA valB false, ?_⟩
  have hval := mulUnsigned_toNat valA valB int128
  have hle : valA.toInt * valB.toInt ≤ 2 ^ 126 := toInt_mul_toInt_le
  have hge : -(2 ^ 126) ≤ valA.toInt * valB.toInt := le_toInt_mul_toInt
  have hsign (v : BitVec 64) :
      ¬ v.toInt < 0 ∧ v.toInt = v.toNat ∨ v.toInt < 0 ∧ v.toInt = v.toNat - 2 ^ 64 := by
    rw [toInt_eq_toNat_cond]
    split_ifs <;> omega
  simp only [mulSignedManual]
  generalize mulUnsigned valA valB int128 = val at *
  -- a negative operand is its word less `2 ^ 64`, which takes the other one from the high word
  rcases hsign valA with ⟨hsA, hA⟩ | ⟨hsA, hA⟩
  all_goals rcases hsign valB with ⟨hsB, hB⟩ | ⟨hsB, hB⟩
  all_goals
    simp only [hsA, hsB, if_true, if_false]
    rw [toInt_eq_toNat_cond]
    simp only [hA, hB, toNat_sub, Int.sub_mul, Int.mul_sub] at hle hge ⊢
    omega

end IntMath
