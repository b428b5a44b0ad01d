/-
# Skewed-associative indexing

Model of the indexing policy of mem/cache/tags/indexing_policies:
`SkewedAssociative` (skewed_associative.hh, skewed_associative.cc) on top of
the base policy (base.hh).  An address is turned into a set by one of eight
skewing functions made of a hash, its inverse and exclusive or; further ways
pile more hashes up.

On `N`-bit values the hash is a step of a shift register with feedback, so
`hashᴺ = hashᴺ⁻¹ + 1`; with it every skewing function is inverted by its
deskewing function.
-/
import Gem5.Bitfield
import Gem5.ShiftRegister

open Function BitVec

/-- A policy the constructor accepts. -/
structure SkewedAssociative where
  /-- A 32-bit unsigned integer. -/
  numSets : ℕ
  setShift : ℕ
  numSets_lt : numSets < 2 ^ 32
  /-- `fatal_if`: the number of sets must be a power of two. -/
  isPow : isPowerOf2 numSets = true
  /-- `fatal_if`: there must be more than two sets. -/
  two_lt : 2 < numSets
  /-- `panic_if`: the address must have room for two set indices. -/
  fits : setShift + 2 * (Nat.log2 numSets - 1 + 1) ≤ 64

/-- The position of a block in the cache. -/
structure ReplaceableEntry where
  set : BitVec 32
  way : BitVec 32
  deriving DecidableEq, Repr

namespace SkewedAssociative

/-- The constructor. -/
def create (numEntries assoc : BitVec 32) (setShift : ℕ) : Option SkewedAssociative :=
  let numSets := numEntries.toNat / assoc.toNat
  if h : isPowerOf2 numSets = true ∧ 2 < numSets ∧
      setShift + 2 * (Nat.log2 numSets - 1 + 1) ≤ 64 then
    some
      { numSets := numSets
        setShift := setShift
        numSets_lt := (Nat.div_le_self _ _).trans_lt numEntries.isLt
        isPow := h.1
        two_lt := h.2.1
        fits := h.2.2 }
  else none

variable (p : SkewedAssociative)

def msbShift : ℕ := Nat.log2 p.numSets - 1

def setMask : BitVec 64 := BitVec.ofNat 64 (p.numSets - 1)

def tagShift : ℕ := p.setShift + Nat.log2 p.numSets

/-! ## Hashing -/

variable (addr : Addr)

def hash : Addr :=
  let lsb : BitVec 8 := (bits addr 0 0).setWidth 8
  let msb : BitVec 8 := (bits addr p.msbShift p.msbShift).setWidth 8
  let xorBit := msb ^^^ lsb
  -- shift off the LSB and set the new MSB
  insertBits (addr >>> 1) p.msbShift p.msbShift xorBit

def dehash : Addr :=
  let msb : BitVec 8 := (bits addr (p.msbShift - 1) (p.msbShift - 1)).setWidth 8
  let xorBit : BitVec 8 := (bits addr p.msbShift p.msbShift).setWidth 8
  let lsb := msb ^^^ xorBit
  let addrNoMsb := mbits addr (p.msbShift - 1) 0
  insertBits (addrNoMsb <<< 1) 0 0 lsb

variable (i : ℕ)

/-- The skewing function selected by `way % 8`; the last case is seven. -/
def skewFunction (addr1 addr2 : Addr) : Addr :=
  match i with
  | 0 => p.hash addr1 ^^^ p.hash addr2 ^^^ addr2
  | 1 => p.hash addr1 ^^^ p.hash addr2 ^^^ addr1
  | 2 => p.hash addr1 ^^^ p.dehash addr2 ^^^ addr2
  | 3 => p.hash addr1 ^^^ p.dehash addr2 ^^^ addr1
  | 4 => p.dehash addr1 ^^^ p.hash addr2 ^^^ addr2
  | 5 => p.dehash addr1 ^^^ p.hash addr2 ^^^ addr1
  | 6 => p.dehash addr1 ^^^ p.dehash addr2 ^^^ addr2
  | _ => p.dehash addr1 ^^^ p.dehash addr2 ^^^ addr1

variable (way : BitVec 32)

def skew : Addr :=
  let addr1 := bits addr p.msbShift 0
  let addr2 := bits addr (2 * (p.msbShift + 1) - 1) (p.msbShift + 1)
  p.hash^[way.toNat / 8] (p.skewFunction (way.toNat % 8) addr1 addr2)

/-- The inverse selected by `way % 8`; the last case is seven. -/
def deskewFunction (addr1 addr2 : Addr) : Addr :=
  match i with
  | 0 => p.dehash (addr1 ^^^ p.hash addr2 ^^^ addr2)
  | 1 => p.hash^[p.msbShift] (addr1 ^^^ p.hash addr2)
  | 2 => p.dehash (addr1 ^^^ p.dehash addr2 ^^^ addr2)
  | 3 => p.hash^[p.msbShift] (addr1 ^^^ p.dehash addr2)
  | 4 => p.hash (addr1 ^^^ p.hash addr2 ^^^ addr2)
  | 5 => p.hash^[p.msbShift + 1] (addr1 ^^^ p.hash addr2)
  | 6 => p.hash (addr1 ^^^ p.dehash addr2 ^^^ addr2)
  | _ => p.hash^[p.msbShift + 1] (addr1 ^^^ p.dehash addr2)

def deskew : Addr :=
  let addr1 := bits addr p.msbShift 0
  let addr2 := bits addr (2 * (p.msbShift + 1) - 1) (p.msbShift + 1)
  let addr1 := if 8 ≤ way.toNat then p.dehash^[way.toNat / 8] addr1 else addr1
  p.deskewFunction (way.toNat % 8) addr1 addr2

/-! ## Sets and tags -/

def extractSet : BitVec 32 :=
  (p.skew (addr >>> p.setShift) way &&& p.setMask).setWidth 32

def extractTag : Addr := addr >>> p.tagShift

def regenerateAddr (tag : Addr) (entry : ReplaceableEntry) : Addr :=
  let addrSet := (tag <<< (p.msbShift + 1)) ||| entry.set.setWidth 64
  (tag <<< p.tagShift) |||
    ((p.deskew addrSet entry.way &&& p.setMask) <<< p.setShift)

/-! ## The sizes of a policy -/

/-- The number of set bits. -/
abbrev setBits : ℕ := p.msbShift + 1

theorem setBits_eq : p.setBits = p.msbShift + 1 := rfl

theorem numSets_eq : p.numSets = 2 ^ p.setBits := by
  obtain ⟨e, he⟩ := (isPowerOf2_iff _).mp p.isPow
  have htwo := p.two_lt
  have hlog : Nat.log2 p.numSets = e := by rw [he, Nat.log2_two_pow]
  have hpos : 0 < e := by
    rcases Nat.eq_zero_or_pos e with rfl | hpos
    · rw [he] at htwo
      simp at htwo
    · exact hpos
  rw [setBits, msbShift, hlog, Nat.sub_add_cancel hpos, he]

theorem log2_numSets : Nat.log2 p.numSets = p.setBits := by
  rw [numSets_eq, Nat.log2_two_pow]

theorem msbShift_pos : 0 < p.msbShift := by
  have htwo := p.two_lt
  rw [numSets_eq] at htwo
  rcases Nat.eq_zero_or_pos p.msbShift with h | h
  · rw [setBits, h] at htwo
    simp at htwo
  · exact h

theorem setBits_lt : p.setBits < 32 := by
  have hlt := p.numSets_lt
  rw [numSets_eq] at hlt
  exact (Nat.pow_lt_pow_iff_right (by norm_num)).mp hlt

theorem tagShift_eq : p.tagShift = p.setShift + p.setBits := by
  rw [tagShift, log2_numSets]

theorem getLsbD_setMask : p.setMask.getLsbD i = decide (i < p.setBits) := by
  have hlt : p.numSets - 1 < 2 ^ 64 := by
    have := p.numSets_lt
    omega
  rw [setMask, getLsbD, toNat_ofNat, Nat.mod_eq_of_lt hlt, numSets_eq, Nat.testBit_two_pow_sub_one]

/-! ## The hash bit by bit -/

/-- The value has set bits only. -/
def Small (x : Addr) : Prop := ∀ i, p.setBits ≤ i → x.getLsbD i = false

variable {p} {x y : Addr}

theorem Small.ext (hx : p.Small x) (hy : p.Small y)
    (h : ∀ i < p.setBits, x.getLsbD i = y.getLsbD i) : x = y := by
  apply eq_of_getLsbD_eq
  intro i _
  rcases Nat.lt_or_ge i p.setBits with hi | hi
  · exact h i hi
  · rw [hx i hi, hy i hi]

theorem Small.xor (hx : p.Small x) (hy : p.Small y) : p.Small (x ^^^ y) := by
  intro i hi
  rw [getLsbD_xor, hx i hi, hy i hi]
  rfl

theorem small_bits (x : Addr) (last : ℕ) : p.Small (bits x (last + p.msbShift) last) := by
  have hN := p.setBits_eq
  intro i hi
  rcases Nat.lt_or_ge i 64 with h | h
  · rw [getLsbD_bits _ _ _ _ h, decide_eq_false (by omega)]
    rfl
  · exact getLsbD_of_ge _ _ h

/-- One bit, extracted and truncated to a byte. -/
theorem getLsbD_bits_byte (x : Addr) (k : ℕ) :
    ((bits x k k).setWidth 8).getLsbD 0 = x.getLsbD k := by
  rw [getLsbD_setWidth, getLsbD_bits _ _ _ _ (by norm_num)]
  simp

theorem getLsbD_hash (x : Addr) {i : ℕ} (hi : i < 64) :
    (p.hash x).getLsbD i
      = if i = p.msbShift then (x.getLsbD p.msbShift ^^ x.getLsbD 0) else x.getLsbD (1 + i) := by
  have hN := p.setBits_eq
  have hlt := p.setBits_lt
  simp only [hash]
  rw [getLsbD_insertBits_bit _ (by omega) _ _ hi, getLsbD_xor, getLsbD_bits_byte, getLsbD_bits_byte,
    getLsbD_ushiftRight]

theorem getLsbD_dehash_zero (x : Addr) :
    (p.dehash x).getLsbD 0 = (x.getLsbD (p.msbShift - 1) ^^ x.getLsbD p.msbShift) := by
  simp only [dehash]
  rw [getLsbD_insertBits_bit _ (by norm_num) _ _ (by norm_num), if_pos rfl, getLsbD_xor,
    getLsbD_bits_byte, getLsbD_bits_byte]

theorem getLsbD_dehash_succ (x : Addr) {i : ℕ} (hi : i + 1 < 64) :
    (p.dehash x).getLsbD (i + 1) = (x.getLsbD i && decide (i < p.msbShift)) := by
  have hN := p.setBits_eq
  have hpos := p.msbShift_pos
  have hlt := p.setBits_lt
  simp only [dehash]
  rw [getLsbD_insertBits_bit _ (by norm_num) _ _ hi, getLsbD_shiftLeft, Nat.add_sub_cancel,
    getLsbD_mbits _ (by omega) _ _ (by omega)]
  simp [hi, Nat.le_sub_one_iff_lt hpos]

theorem Small.hash (hx : p.Small x) : p.Small (p.hash x) := by
  have hN := p.setBits_eq
  intro i hi
  rcases Nat.lt_or_ge i 64 with h | h
  · rw [getLsbD_hash x h, if_neg (by omega)]
    exact hx _ (by omega)
  · exact getLsbD_of_ge _ _ h

theorem small_dehash (x : Addr) : p.Small (p.dehash x) := by
  have hN := p.setBits_eq
  intro i hi
  obtain ⟨j, rfl⟩ : ∃ j, i = j + 1 := ⟨i - 1, by omega⟩
  rcases Nat.lt_or_ge (j + 1) 64 with h | h
  · rw [getLsbD_dehash_succ x h, decide_eq_false (by omega), Bool.and_false]
  · exact getLsbD_of_ge _ _ h

theorem Small.iterate_hash (hx : p.Small x) (k : ℕ) : p.Small (p.hash^[k] x) := by
  induction k with
  | zero => exact hx
  | succ k ih =>
    rw [iterate_succ_apply']
    exact ih.hash

/-! ## Hash and dehash -/

theorem dehash_hash (hx : p.Small x) : p.dehash (p.hash x) = x := by
  have hpos := p.msbShift_pos
  have hN := p.setBits_eq
  have hlt := p.setBits_lt
  apply (small_dehash _).ext hx
  intro i hi
  cases i with
  | zero =>
    have hlast : 1 + (p.msbShift - 1) = p.msbShift := by omega
    rw [getLsbD_dehash_zero, getLsbD_hash _ (by omega), getLsbD_hash _ (by omega),
      if_neg (by omega), hlast]
    simp
  | succ i =>
    rw [getLsbD_dehash_succ _ (by omega), getLsbD_hash _ (by omega), if_neg (by omega),
      decide_eq_true (by omega), Bool.and_true, Nat.add_comm]

theorem hash_dehash (hx : p.Small x) : p.hash (p.dehash x) = x := by
  have hpos := p.msbShift_pos
  have hN := p.setBits_eq
  have hlt := p.setBits_lt
  apply (small_dehash x).hash.ext hx
  intro i hi
  rw [getLsbD_hash _ (by omega)]
  by_cases htop : i = p.msbShift
  · subst htop
    obtain ⟨k, hk⟩ : ∃ k, p.msbShift = k + 1 := ⟨p.msbShift - 1, by omega⟩
    have hdk : (p.dehash x).getLsbD p.msbShift = x.getLsbD (p.msbShift - 1) := by
      rw [hk, getLsbD_dehash_succ _ (by omega), hk, decide_eq_true (Nat.lt_succ_self k),
        Bool.and_true, Nat.add_sub_cancel]
    rw [hdk, getLsbD_dehash_zero]
    simp
  · rw [if_neg htop, Nat.add_comm, getLsbD_dehash_succ _ (by omega), decide_eq_true (by omega),
      Bool.and_true]

theorem hash_xor (x y : Addr) : p.hash (x ^^^ y) = p.hash x ^^^ p.hash y := by
  apply eq_of_getLsbD_eq
  intro i hi
  rw [getLsbD_xor, getLsbD_hash _ hi, getLsbD_hash _ hi, getLsbD_hash _ hi]
  split
  · rw [getLsbD_xor, getLsbD_xor, Bool.xor_assoc, Bool.xor_assoc, Bool.xor_left_comm (y.getLsbD _)]
  · rw [getLsbD_xor]

theorem iterate_hash_xor (k : ℕ) (x y : Addr) :
    p.hash^[k] (x ^^^ y) = p.hash^[k] x ^^^ p.hash^[k] y := by
  induction k with
  | zero => rfl
  | succ k ih => simp only [iterate_succ_apply', ih, hash_xor]

theorem iterate_dehash_hash (hx : p.Small x) (k : ℕ) : p.dehash^[k] (p.hash^[k] x) = x := by
  induction k with
  | zero => rfl
  | succ k ih =>
    rw [iterate_succ_apply p.dehash, iterate_succ_apply' p.hash,
      dehash_hash (hx.iterate_hash k), ih]

/-- The hash is a step of a shift register. -/
theorem isFeedback_hash : ShiftRegister.IsFeedback BitVec.getLsbD p.setBits p.hash where
  shift x i hi := by
    have hN := p.setBits_eq
    have hlt := p.setBits_lt
    rw [getLsbD_hash _ (by omega), if_neg (by omega), Nat.add_comm]
  top x := by
    have hN := p.setBits_eq
    have hlt := p.setBits_lt
    rw [Nat.add_sub_cancel, getLsbD_hash _ (by omega), if_pos rfl]

/-- **Characteristic equation of the hash** on values of the set's width. -/
theorem iterate_hash_setBits (hx : p.Small x) :
    p.hash^[p.setBits] x = p.hash^[p.msbShift] x ^^^ x := by
  apply (hx.iterate_hash _).ext ((hx.iterate_hash _).xor hx)
  intro i hi
  rw [isFeedback_hash.iterate_eq_xor hi, getLsbD_xor, Nat.add_sub_cancel]

/-! ## Skewing is inverted by deskewing -/

/-- The sum of the hash and the identity is undone by `N - 1` hashes. -/
theorem iterate_hash_hash_xor (hx : p.Small x) : p.hash^[p.msbShift] (p.hash x ^^^ x) = x := by
  rw [iterate_hash_xor, ← iterate_succ_apply, iterate_hash_setBits hx,
    BitVec.xor_comm (p.hash^[p.msbShift] x) x, BitVec.xor_assoc, BitVec.xor_self, BitVec.xor_zero]

/-- The sum of the inverse hash and the identity is undone by `N` hashes. -/
theorem iterate_hash_dehash_xor (hx : p.Small x) : p.hash^[p.setBits] (p.dehash x ^^^ x) = x := by
  rw [iterate_hash_xor, iterate_succ_apply, hash_dehash hx, iterate_hash_setBits hx,
    ← BitVec.xor_assoc, BitVec.xor_self, BitVec.zero_xor]

theorem small_skewFunction (i : ℕ) (hx : p.Small x) (hy : p.Small y) :
    p.Small (p.skewFunction i x y) := by
  unfold skewFunction
  split
  · exact (hx.hash.xor hy.hash).xor hy
  · exact (hx.hash.xor hy.hash).xor hx
  · exact (hx.hash.xor (small_dehash y)).xor hy
  · exact (hx.hash.xor (small_dehash y)).xor hx
  · exact ((small_dehash x).xor hy.hash).xor hy
  · exact ((small_dehash x).xor hy.hash).xor hx
  · exact ((small_dehash x).xor (small_dehash y)).xor hy
  · exact ((small_dehash x).xor (small_dehash y)).xor hx

theorem xor_cancel_right (u v : Addr) : u ^^^ v ^^^ v = u := by
  rw [BitVec.xor_assoc, BitVec.xor_self, BitVec.xor_zero]

/-- What remains when the part of the other address is added again. -/
theorem xor_cancel_mid (u v w : Addr) : u ^^^ v ^^^ w ^^^ v = u ^^^ w := by
  have h : u ^^^ v ^^^ w ^^^ v = u ^^^ w ^^^ (v ^^^ v) := by ac_rfl
  rw [h, BitVec.xor_self, BitVec.xor_zero]

/-- Each deskewing function inverts its skewing function. -/
theorem deskewFunction_skewFunction (i : ℕ) (hx : p.Small x) :
    p.deskewFunction i (p.skewFunction i x y) y = x := by
  -- the part of `y` cancels: all of it in the even functions, its hash in the odd ones
  match i with
  | 0 | 1 | 2 | 3 | 4 | 5 | 6 | _ + 7 =>
    simp only [skewFunction, deskewFunction, xor_cancel_mid, xor_cancel_right, dehash_hash hx,
      hash_dehash hx, iterate_hash_hash_xor hx, iterate_hash_dehash_xor hx]

variable (addr : Addr)

/-- The lower half of the address that is skewed. -/
theorem small_bits_low : p.Small (bits addr p.msbShift 0) := by
  have hsmall := small_bits (p := p) addr 0
  rwa [Nat.zero_add] at hsmall

/-- The upper half of the address that is skewed. -/
theorem small_bits_high : p.Small (bits addr (2 * (p.msbShift + 1) - 1) (p.msbShift + 1)) := by
  have hfirst : 2 * (p.msbShift + 1) - 1 = p.msbShift + 1 + p.msbShift := by omega
  rw [hfirst]
  exact small_bits addr _

variable (way : BitVec 32)

/-- A skewed address lies within the set bits. -/
theorem small_skew : p.Small (p.skew addr way) := by
  exact (small_skewFunction _ (small_bits_low addr) (small_bits_high addr)).iterate_hash _

/-- Masking keeps a small value. -/
theorem and_setMask (hx : p.Small x) : x &&& p.setMask = x := by
  apply eq_of_getLsbD_eq
  intro i _
  rw [getLsbD_and, getLsbD_setMask]
  by_cases hi : i < p.setBits
  · rw [decide_eq_true hi, Bool.and_true]
  · rw [hx i (Nat.le_of_not_lt hi), Bool.false_and]

/-- A small value fits in the 32 bits of a set index. -/
theorem setWidth_small (hx : p.Small x) : (x.setWidth 32).setWidth 64 = x := by
  have hlt := p.setBits_lt
  apply eq_of_getLsbD_eq
  intro i hi
  rw [getLsbD_setWidth, getLsbD_setWidth, decide_eq_true hi, Bool.true_and]
  by_cases h32 : i < 32
  · rw [decide_eq_true h32, Bool.true_and]
  · rw [decide_eq_false h32, Bool.false_and, hx i (by omega)]

/-- The lower part of tag and set is the set. -/
theorem bits_low (tag : Addr) (hx : p.Small x) :
    bits ((tag <<< (p.msbShift + 1)) ||| x) p.msbShift 0 = x := by
  have hlt := p.setBits_lt
  apply (small_bits_low _).ext hx
  intro i hi
  have hlow : i < p.msbShift + 1 := by omega
  rw [getLsbD_bits _ _ _ _ (by omega), Nat.sub_zero, decide_eq_true hlow, Bool.true_and,
    Nat.zero_add, getLsbD_or]
  simp [hlow]

/-- The upper part of tag and set is the lower part of the tag. -/
theorem bits_high (hx : p.Small x) :
    bits (((addr >>> p.setBits) <<< (p.msbShift + 1)) ||| x) (2 * (p.msbShift + 1) - 1)
        (p.msbShift + 1) = bits addr (2 * (p.msbShift + 1) - 1) (p.msbShift + 1) := by
  have hN := p.setBits_eq
  have hlt := p.setBits_lt
  apply eq_of_getLsbD_eq
  intro i hi
  rw [getLsbD_bits _ _ _ _ hi, getLsbD_bits _ _ _ _ hi]
  by_cases hlow : i < 2 * (p.msbShift + 1) - 1 - (p.msbShift + 1) + 1
  · rw [decide_eq_true hlow, Bool.true_and, Bool.true_and, getLsbD_or, getLsbD_shiftLeft,
      hx _ (by omega)]
    have h64 : p.msbShift + 1 + i < 64 := by omega
    have hhigh : ¬ p.msbShift + 1 + i < p.msbShift + 1 := by omega
    rw [decide_eq_true h64, decide_eq_false hhigh, hN]
    simp
  · rw [decide_eq_false hlow, Bool.false_and, Bool.false_and]

/-- **Deskewing recovers the conventional set bits.** -/
theorem deskew_skew : p.deskew (((addr >>> p.setBits) <<< (p.msbShift + 1)) ||| p.skew addr way) way
      = bits addr p.msbShift 0 := by
  have hskew := small_skewFunction (way.toNat % 8) (small_bits_low (p := p) addr)
    (small_bits_high addr)
  simp only [deskew]
  rw [bits_low _ (small_skew addr way), bits_high addr (small_skew addr way)]
  -- below eight ways no hashes are piled up
  have hpile : (if 8 ≤ way.toNat then p.dehash^[way.toNat / 8] (p.skew addr way)
      else p.skew addr way) = p.skewFunction (way.toNat % 8) (bits addr p.msbShift 0)
        (bits addr (2 * (p.msbShift + 1) - 1) (p.msbShift + 1)) := by
    split
    · exact iterate_dehash_hash hskew _
    · rename_i hway
      simp only [skew, Nat.div_eq_of_lt (Nat.lt_of_not_le hway), iterate_zero, id]
  rw [hpile, deskewFunction_skewFunction _ (small_bits_low addr)]

/-! ## Regenerating the address -/

variable (p)

/-- **Skewed-associative indexing is invertible.**  For every policy the
constructor accepts, every way and every address, the address regenerated from
its tag and an entry at its set and way is the address with the bits of the
block offset cleared. -/
theorem regenerateAddr_extractTag :
    p.regenerateAddr (p.extractTag addr) ⟨p.extractSet addr way, way⟩
      = (addr >>> p.setShift) <<< p.setShift := by
  have hN := p.setBits_eq
  have htag : p.extractTag addr = (addr >>> p.setShift) >>> p.setBits := by
    rw [extractTag, tagShift_eq, shiftRight_add]
  have hset : (p.extractSet addr way).setWidth 64 = p.skew (addr >>> p.setShift) way := by
    rw [extractSet, and_setMask (small_skew _ way), setWidth_small (small_skew _ way)]
  have hsmall := small_bits_low (p := p) (addr >>> p.setShift)
  simp only [regenerateAddr]
  rw [hset, htag, deskew_skew, and_setMask hsmall]
  apply eq_of_getLsbD_eq
  intro i hi
  rw [getLsbD_or, getLsbD_shiftLeft, getLsbD_shiftLeft, getLsbD_shiftLeft, tagShift_eq]
  by_cases hoff : i < p.setShift
  · have : i < p.setShift + p.setBits := by omega
    simp [hoff, this]
  · by_cases hmid : i < p.setShift + p.setBits
    · rw [getLsbD_bits _ _ _ _ (by omega), decide_eq_true (by omega : i - p.setShift < _)]
      simp [hmid]
    · have hidx : p.setBits + (i - (p.setShift + p.setBits)) = i - p.setShift := by omega
      rw [hsmall _ (by omega)]
      simp [hoff, hmid, hidx]

end SkewedAssociative

/-! ## Set-associative indexing -/

/-- `SetAssociative` (set_associative.cc), as the constructor accepts it. -/
structure SetAssociative where
  /-- A 32-bit unsigned integer. -/
  numSets : ℕ
  setShift : ℕ
  numSets_lt : numSets < 2 ^ 32
  /-- `fatal_if`: the number of sets must be a power of two. -/
  isPow : isPowerOf2 numSets = true
  /-- The entry size is a positive `int`. -/
  setShift_lt : setShift < 31

namespace SetAssociative

/-- The constructor; the asserts of `floorLog2` want a positive entry size. -/
def create (size : BitVec 64) (assoc entrySize : BitVec 32) : Option SetAssociative :=
  let numEntries := (size / entrySize.setWidth 64).setWidth 32
  let numSets := numEntries.toNat / assoc.toNat
  if h : isPowerOf2 numSets = true ∧ entrySize.toNat ≠ 0 ∧ entrySize.toNat < 2 ^ 31 then
    some
      { numSets := numSets
        setShift := Nat.log2 entrySize.toNat
        numSets_lt := (Nat.div_le_self _ _).trans_lt numEntries.isLt
        isPow := h.1
        setShift_lt := (Nat.log2_lt h.2.1).mpr h.2.2 }
  else none

variable (p : SetAssociative)

def setMask : BitVec 64 := BitVec.ofNat 64 (p.numSets - 1)

def tagShift : ℕ := p.setShift + Nat.log2 p.numSets

variable (addr : Addr)

def extractSet : BitVec 32 := (addr >>> p.setShift &&& p.setMask).setWidth 32

def extractTag : Addr := addr >>> p.tagShift

/-- The set is shifted as a 32-bit integer. -/
def regenerateAddr (tag : Addr) (entry : ReplaceableEntry) : Addr :=
  tag <<< p.tagShift ||| (entry.set <<< p.setShift).setWidth 64

theorem toNat_extractSet :
    (p.extractSet addr).toNat = addr.toNat % 2 ^ p.tagShift / 2 ^ p.setShift := by
  obtain ⟨e, he⟩ := (isPowerOf2_iff _).mp p.isPow
  have hlt := p.numSets_lt
  have hmask : p.setMask.toNat = 2 ^ e - 1 := by
    rw [setMask, toNat_ofNat, Nat.mod_eq_of_lt (by omega), he]
  rw [extractSet, toNat_setWidth, toNat_and, toNat_ushiftRight, hmask,
    Nat.and_two_pow_sub_one_eq_mod, Nat.shiftRight_eq_div_pow, tagShift, pow_add,
    Nat.mod_mul_right_div_self, he, Nat.log2_two_pow]
  exact Nat.mod_eq_of_lt ((Nat.mod_lt _ (Nat.two_pow_pos e)).trans (he ▸ hlt))

/-- Shifting down and up again clears the bits shifted out. -/
theorem toNat_shift_back (x : Addr) (k : ℕ) :
    (x >>> k <<< k).toNat = 2 ^ k * (x.toNat / 2 ^ k) := by
  rw [toNat_shiftLeft, toNat_ushiftRight, Nat.shiftRight_eq_div_pow, Nat.shiftLeft_eq, mul_comm]
  exact Nat.mod_eq_of_lt ((Nat.mul_div_le _ _).trans_lt x.isLt)

/-- **The address is regenerated from tag and set** when its index and offset bits lie below
bit 32, and only then. -/
theorem regenerateAddr_iff (way : BitVec 32) :
    p.regenerateAddr (p.extractTag addr) ⟨p.extractSet addr, way⟩
        = (addr >>> p.setShift) <<< p.setShift ↔ addr.toNat % 2 ^ p.tagShift < 2 ^ 32 := by
  have hset : ((p.extractSet addr <<< p.setShift).setWidth 64).toNat =
      2 ^ p.setShift * (addr.toNat % 2 ^ p.tagShift / 2 ^ p.setShift) % 2 ^ 32 := by
    rw [toNat_setWidth, toNat_shiftLeft, Nat.shiftLeft_eq, mul_comm, toNat_extractSet]
    exact Nat.mod_eq_of_lt ((Nat.mod_lt _ (by decide)).trans (by decide))
  rw [← toNat_inj, regenerateAddr, toNat_or, extractTag, toNat_shift_back, toNat_shift_back, hset]
  have hlow : addr.toNat % 2 ^ p.tagShift % 2 ^ p.setShift = addr.toNat % 2 ^ p.setShift :=
    Nat.mod_mod_of_dvd _ (pow_dvd_pow 2 (Nat.le_add_right ..))
  have hsplit : 2 ^ 32 = 2 ^ p.setShift * 2 ^ (32 - p.setShift) := by
    rw [← pow_add, Nat.add_sub_cancel' (p.setShift_lt.le.trans (by decide))]
  have htag := Nat.div_add_mod addr.toNat (2 ^ p.tagShift)
  have hoff := Nat.div_add_mod addr.toNat (2 ^ p.setShift)
  set index := addr.toNat % 2 ^ p.tagShift with hindex
  have hmid := Nat.div_add_mod index (2 ^ p.setShift)
  -- the index is cut to 32 bits; tag and offset are the same on both sides
  have hcut : 2 ^ p.setShift * (index / 2 ^ p.setShift) < 2 ^ 32 ↔ index < 2 ^ 32 := by
    rw [hsplit, Nat.mul_lt_mul_left (Nat.two_pow_pos _), Nat.div_lt_iff_lt_mul (Nat.two_pow_pos _),
      mul_comm]
  rw [← Nat.two_pow_add_eq_or_of_lt (by omega), ← hcut]
  omega

/-- A direct-mapped cache of 8 GiB with blocks of 64 bytes: the set of the byte at 4 GiB is
shifted out. -/
theorem regenerateAddr_large :
    ∃ p, create (8 * 2 ^ 30) 1 64 = some p ∧
      p.regenerateAddr (p.extractTag (4 * 2 ^ 30)) ⟨p.extractSet (4 * 2 ^ 30), 0⟩ = 0 :=
  ⟨_, rfl, by decide⟩

end SetAssociative
