/-
# Interleaving bits of an address range

The interleaving side of `AddrRange` (base/addr_range.hh).

`removeIntlvBits` takes the lowest bit of each mask out of the address, in
ascending order, with each position moved by the bits already gone; the positions
are `unsigned`, and one that has moved below zero wraps around and inserts
nothing.  `addIntlvBits` puts bits in at these positions and then sets each to
what the match value asks for.  There the lowest bit of the mask is left out of
the parity with `~(1 << lsb)`, where `1 << lsb` is an `int`: the result is `none`
where that shift is undefined.
-/
import Gem5.AddrRange
import Gem5.DropBits

open List
open BitVec hiding lt_trichotomy

namespace AddrRange

/-! ## Constructors -/

/-- `AddrRange(start, end, masks, intlv_match)`; `none` where `fatal_if` fires. -/
def ofMasks (start endAddr : Addr) (masks : List Addr) (intlvMatch : BitVec 8) : Option AddrRange :=
  if h : masks ≠ [] → intlvMatch.toNat < 2 ^ masks.length then
    some
      { start := start
        endAddr := endAddr
        masks := masks
        intlvMatch := intlvMatch
        fits := h }
  else none

/-- `1ULL << bit`, which is undefined from 64 on. -/
def oneBit (bit : BitVec 8) : Option Addr :=
  if bit.toNat < 64 then some ((1 : Addr) <<< bit.toNat) else none

/-- The mask of step `i` of the legacy constructor. -/
def legacyMask (intlvHighBit xorHighBit : BitVec 8) (i : ℕ) : Option Addr := do
  let mask ← oneBit (intlvHighBit - BitVec.ofNat 8 i)
  if xorHighBit ≠ 0 then
    let xor ← oneBit (xorHighBit - BitVec.ofNat 8 i)
    some (mask ||| xor)
  else some mask

/-- The two groups of bits must not overlap. -/
def highBitsApart (intlvHighBit xorHighBit intlvBits : BitVec 8) : Bool :=
  if intlvBits ≠ 0 ∧ xorHighBit ≠ 0 then
    if xorHighBit = intlvHighBit then false
    else if intlvHighBit < xorHighBit then
      decide (intlvBits.toNat ≤ xorHighBit.toNat - intlvHighBit.toNat)
    else decide (intlvBits.toNat ≤ intlvHighBit.toNat - xorHighBit.toNat)
  else true

/-- The legacy constructor; `masks[intlv_bits - i - 1]` is the mask of step `i`.  It is
`none` where `fatal` fires, and for positions of 64 and more, which the source does not
check: the shift is undefined there. -/
def ofHighBits (start endAddr : Addr) (intlvHighBit xorHighBit intlvBits intlvMatch : BitVec 8) :
    Option AddrRange :=
  if highBitsApart intlvHighBit xorHighBit intlvBits then do
    let masks ← (List.range intlvBits.toNat).reverse.mapM (legacyMask intlvHighBit xorHighBit)
    ofMasks start endAddr masks intlvMatch
  else none

variable (r : AddrRange)

/-! ## Removing and adding bits -/

/-- The lowest bits of the masks, sorted. -/
def masksLsb : List ℕ := (r.masks.map ctz64).insertionSort (· ≤ ·)

def removeLoop : List ℕ → ℕ → Addr → Addr
  | [], _, a => a
  | intlvBit :: rest, i, a =>
    removeLoop rest (i + 1)
      (if 0 < intlvBit then
        insertBits (a >>> 1) (BitVec.ofNat 32 intlvBit - BitVec.ofNat 32 i - 1).toNat 0 a
      else a >>> 1)

def removeIntlvBits (a : Addr) : Addr :=
  if r.interleaved then removeLoop r.masksLsb 0 a else a

def addLoop : List ℕ → Addr → Addr
  | [], a => a
  | intlvBit :: rest, a =>
    addLoop rest (if 0 < intlvBit then insertBits (a <<< 1) (intlvBit - 1) 0 a else a <<< 1)

/-- `~(1 << lsb)`, an `int` widened to an address. -/
def notLsb (lsb : ℕ) : Addr := (~~~ ((1 : BitVec 32) <<< lsb)).signExtend 64

/-- Sets the lowest bit of each mask; both `1 << lsb` and `bits(intlvMatch, i)`
shift an `int`. -/
def selectLoop (intlvMatch : BitVec 8) : List Addr → ℕ → Addr → Option Addr
  | [], _, a => some a
  | mask :: masks, i, a =>
    let lsb := ctz64 mask
    if lsb < 32 ∧ i < 32 then
      let intlvBit : Addr := bits (intlvMatch.setWidth 64) i i
      let masked := a &&& mask &&& notLsb lsb
      selectLoop intlvMatch masks (i + 1)
        (insertBits a lsb lsb (intlvBit ^^^ BitVec.ofNat 64 (popCount masked)))
    else none

def addIntlvBits (a : Addr) : Option Addr :=
  if r.interleaved then selectLoop r.intlvMatch r.masks 0 (addLoop r.masksLsb a) else some a

/-- `MaxAddr` outside of the range. -/
def getOffset (a : Addr) : Addr :=
  if r.start ≤ a ∧ a < r.endAddr then
    if r.interleaved then r.removeIntlvBits a - r.removeIntlvBits r.start else a - r.start
  else BitVec.allOnes 64

/-! ## Masks -/

/-- The masks are not zero and no two have a bit in common. -/
structure MasksOk (masks : List Addr) : Prop where
  pairwise : masks.Pairwise fun m m' => m &&& m' = 0
  ne_zero : ∀ m ∈ masks, m ≠ 0

instance (masks : List Addr) : Decidable (MasksOk masks) :=
  decidable_of_iff ((masks.Pairwise fun m m' => m &&& m' = 0) ∧ masks.all (· ≠ 0) = true)
    ⟨fun h => ⟨h.1, by simpa using h.2⟩, fun h => ⟨h.pairwise, by simpa using h.ne_zero⟩⟩

variable {m m' : Addr} {i : ℕ}

theorem getLsbD_of_and_eq_zero (h : m &&& m' = 0)
    (hi : m.getLsbD i = true) : m'.getLsbD i = false := by
  have hbit := congrArg (getLsbD · i) h
  simpa [hi] using hbit

namespace MasksOk

variable {masks : List Addr}

theorem tail (h : MasksOk (m :: masks)) : MasksOk masks :=
  ⟨(pairwise_cons.mp h.pairwise).2, fun m' hm' => h.ne_zero m' (by simp [hm'])⟩

theorem lsb_lt (h : MasksOk masks) (hm : m ∈ masks) : ctz64 m < 64 := (ctz64_spec (h.ne_zero m hm)).1

theorem lsb_mem (h : MasksOk masks) (hm : m ∈ masks) : m.getLsbD (ctz64 m) = true :=
  (ctz64_spec (h.ne_zero m hm)).2.1

/-- The lowest bit of the first mask is in no other one. -/
theorem lsb_head (h : MasksOk (m :: masks)) (hm' : m' ∈ masks) : m'.getLsbD (ctz64 m) = false :=
  getLsbD_of_and_eq_zero ((pairwise_cons.mp h.pairwise).1 m' hm') (h.lsb_mem (by simp))

theorem lsb_ne (h : MasksOk (m :: masks)) (hm' : m' ∈ masks) : ctz64 m' ≠ ctz64 m := by
  intro heq
  have hset := h.lsb_mem (m := m') (by simp [hm'])
  rw [heq, h.lsb_head hm'] at hset
  cases hset

theorem nodup_lsb (h : MasksOk masks) : (masks.map ctz64).Nodup := by
  induction masks with
  | nil => simp
  | cons m masks ih =>
    rw [map_cons, nodup_cons]
    refine ⟨?_, ih h.tail⟩
    intro hmem
    obtain ⟨m', hm', heq⟩ := mem_map.mp hmem
    exact h.lsb_ne hm' heq

end MasksOk

variable {r} {p : ℕ}

theorem mem_masksLsb : p ∈ r.masksLsb ↔ ∃ m ∈ r.masks, ctz64 m = p := by
  rw [masksLsb, mem_insertionSort, mem_map]

theorem length_masksLsb : r.masksLsb.length = r.masks.length := by
  rw [masksLsb, length_insertionSort, length_map]

theorem pairwise_masksLsb (h : MasksOk r.masks) : r.masksLsb.Pairwise (· < ·) := by
  have hle : r.masksLsb.Pairwise (· ≤ ·) := pairwise_insertionSort _ _
  have hne : r.masksLsb.Pairwise (· ≠ ·) :=
    (perm_insertionSort _ _).nodup_iff.mpr h.nodup_lsb
  exact hle.imp₂ (fun _ _ hab hne => lt_of_le_of_ne hab hne) hne

theorem masksLsb_lt (h : MasksOk r.masks) (hp : p ∈ r.masksLsb) : p < 64 := by
  obtain ⟨m, hm, rfl⟩ := mem_masksLsb.mp hp
  exact h.lsb_lt hm

theorem interleaved_iff : r.interleaved = true ↔ r.masks ≠ [] := by
  rw [interleaved, decide_eq_true_eq, length_pos_iff]

/-! ## Removing bits -/

theorem testBit_of_ge (hi : 64 ≤ i) : m.toNat.testBit i = false := getLsbD_of_ge m i hi

theorem toNat_position (hi : i < p) (hp : p < 64) :
    (BitVec.ofNat 32 p - BitVec.ofNat 32 i - 1).toNat = p - i - 1 := by
  have hp' : (BitVec.ofNat 32 p).toNat = p := Nat.mod_eq_of_lt (by omega)
  have hi' : (BitVec.ofNat 32 i).toNat = i := Nat.mod_eq_of_lt (by omega)
  have hone : (1 : BitVec 32).toNat = 1 := rfl
  rw [toNat_sub, toNat_sub, hp', hi']
  omega

/-- One step of the loop takes a bit out, also where the position wraps around. -/
theorem removeStep_eq (hi : i ≤ p) (hp : p < 64) (a : Addr) :
    (if 0 < p then insertBits (a >>> 1) (BitVec.ofNat 32 p - BitVec.ofNat 32 i - 1).toNat 0 a
      else a >>> 1).toNat = dropBit (p - i) a.toNat := by
  have hshift : (a >>> 1).toNat = dropBit 0 a.toNat := by
    rw [dropBit, toNat_ushiftRight, Nat.shiftRight_eq_div_pow]
    simp [Nat.mod_one]
  rcases Nat.lt_or_eq_of_le hi with hlt | rfl
  · rw [if_pos (by omega), toNat_position hlt hp]
    apply Nat.eq_of_testBit_eq
    intro j
    rw [testBit_dropBit]
    rcases Nat.lt_or_ge j 64 with hj | hj
    · have hbit := getLsbD_insertBits (a >>> 1) (by omega : p - i - 1 + 1 < 2 ^ 32) 0 a j hj
      rw [getLsbD] at hbit
      rw [hbit, getLsbD_ushiftRight, Nat.add_comm 1 j]
      by_cases hjp : j < p - i
      · rw [if_pos ⟨Nat.zero_le j, by omega⟩, if_pos hjp]
        rfl
      · rw [if_neg (by omega), if_neg hjp]
        rfl
    · rw [testBit_of_ge hj, if_neg (by omega), testBit_of_ge (by omega)]
  · rw [Nat.sub_self]
    by_cases hpos : 0 < i
    · have hwrap : (BitVec.ofNat 32 i - BitVec.ofNat 32 i - 1).toNat = 2 ^ 32 - 1 := by
        rw [sub_self]
        rfl
      rw [if_pos hpos, hwrap, insertBits_wrap, hshift]
    · rw [if_neg hpos, hshift]

theorem removeLoop_eq (ps : List ℕ) (i : ℕ) (hps : ps.Pairwise (· < ·))
    (hi : ∀ p ∈ ps, i ≤ p ∧ p < 64) (a : Addr) :
    (removeLoop ps i a).toNat = dropFrom i ps a.toNat := by
  induction ps generalizing i a with
  | nil => rfl
  | cons p ps ih =>
    obtain ⟨hp, hps⟩ := pairwise_cons.mp hps
    obtain ⟨hip, hp64⟩ := hi p (by simp)
    rw [removeLoop, dropFrom, ih (i + 1) hps, removeStep_eq hip hp64]
    intro q hq
    have hpq := hp q hq
    exact ⟨by omega, (hi q (by simp [hq])).2⟩

/-- **`removeIntlvBits` takes out the lowest bits of the masks.** -/
theorem removeIntlvBits_eq (hintlv : r.masks ≠ []) (h : MasksOk r.masks) (a : Addr) :
    (r.removeIntlvBits a).toNat = dropBits r.masksLsb a.toNat := by
  have hps := pairwise_masksLsb h
  rw [removeIntlvBits, if_pos (interleaved_iff.mpr hintlv),
    removeLoop_eq _ _ hps fun p hp => ⟨Nat.zero_le p, masksLsb_lt h hp⟩,
    dropFrom_eq 0 _ hps fun p _ => Nat.zero_le p]
  simp

/-! ## Selection -/

/-- The parities of the masked address are the bits of the match value. -/
def Selected (masks : List Addr) (intlvMatch : BitVec 8) (a : Addr) : Prop :=
  ∀ i m, masks[i]? = some m → popCount (a &&& m) % 2 = (intlvMatch.getLsbD i).toNat

theorem testBit_selLoop (a : Addr) (masks : List Addr) (i sel j : ℕ) :
    (selLoop a masks i sel).testBit j
      = (sel.testBit j ||
          (decide (i ≤ j) && ((masks[j - i]?).elim false fun m => popCount (a &&& m) % 2 = 1))) := by
  induction masks generalizing i sel with
  | nil => simp [selLoop]
  | cons m masks ih =>
    rw [selLoop, ih, Nat.testBit_or, Bool.or_assoc]
    rcases lt_trichotomy j i with hj | rfl | hj
    · simp [show ¬ i ≤ j by omega, show ¬ i + 1 ≤ j by omega]
    · simp
    · have hsub : j - i = j - (i + 1) + 1 := by omega
      have hbit : (popCount (a &&& m) % 2).testBit (j - i) = false := by
        apply Nat.testBit_lt_two_pow
        calc popCount (a &&& m) % 2 < 2 ^ 1 := by omega
          _ ≤ 2 ^ (j - i) := Nat.pow_le_pow_right (by norm_num) (by omega)
      rw [hsub] at hbit
      simp [hbit, hsub, show i ≤ j by omega, show i + 1 ≤ j by omega]

/-- **`contains` is selection inside of the bounds.** -/
theorem contains_iff (hintlv : r.masks ≠ []) (a : Addr) :
    r.contains a = true ↔ (r.start ≤ a ∧ a < r.endAddr) ∧ Selected r.masks r.intlvMatch a := by
  unfold contains
  by_cases hin : r.start ≤ a ∧ a < r.endAddr
  · rw [if_pos hin, beq_iff_eq]
    simp only [hin, true_and]
    have hsel : ∀ j, (selLoop a r.masks 0 0).testBit j
        = ((r.masks[j]?).elim false fun m => decide (popCount (a &&& m) % 2 = 1)) := by
      intro j
      rw [testBit_selLoop]
      simp
    constructor
    · intro heq i m hm
      have hbit := hsel i
      rw [heq, hm] at hbit
      have hbit' : r.intlvMatch.getLsbD i = decide (popCount (a &&& m) % 2 = 1) := hbit
      rw [hbit']
      rcases Nat.mod_two_eq_zero_or_one (popCount (a &&& m)) with h0 | h1
      · simp [h0]
      · simp [h1]
    · intro hselected
      apply Nat.eq_of_testBit_eq
      intro j
      rw [hsel]
      cases hm : r.masks[j]? with
      | none =>
        -- the match value fits in the interleaving bits
        have hlen : r.masks.length ≤ j := getElem?_eq_none_iff.mp hm
        have hlt : r.intlvMatch.toNat < 2 ^ j :=
          (r.fits hintlv).trans_le (Nat.pow_le_pow_right (by norm_num) hlen)
        rw [Nat.testBit_lt_two_pow hlt]
        rfl
      | some m =>
        have hpar := hselected j m hm
        show decide (popCount (a &&& m) % 2 = 1) = r.intlvMatch.getLsbD j
        rw [hpar]
        cases r.intlvMatch.getLsbD j <;> rfl
  · simp [hin]

/-! ## The lowest bit of a mask -/

/-- The bits of the mask in `a` above its lowest one. -/
def aboveLsb (m a : Addr) : Addr := a &&& m &&& ~~~ mask (ctz64 m + 1)

def odd (v : Addr) : Bool := decide (popCount v % 2 = 1)

theorem getLsbD_aboveLsb (m a : Addr) (i : ℕ) (hi : i < 64) :
    (aboveLsb m a).getLsbD i = (a.getLsbD i && m.getLsbD i && decide (ctz64 m < i)) := by
  simp only [aboveLsb, getLsbD_and, getLsbD_not, getLsbD_mask _ _ hi, hi, decide_true]
  by_cases h : ctz64 m < i
  · simp [h]
  · simp [h, show i < ctz64 m + 1 by omega]

theorem popCount_and_mask (hm : m ≠ 0) (a : Addr) :
    popCount (a &&& m) = (a.getLsbD (ctz64 m)).toNat + popCount (aboveLsb m a) := by
  obtain ⟨hlt, hset, hbelow⟩ := ctz64_spec hm
  have hbit : a.getLsbD (ctz64 m) = (a &&& m).getLsbD (ctz64 m) := by
    rw [getLsbD_and, hset, Bool.and_true]
  rw [hbit]
  apply popCount_split hlt
  · intro i hi hne
    rw [getLsbD_aboveLsb m a i hi]
    rcases lt_or_gt_of_ne hne with hl | hg
    · simp [hbelow i hl]
    · simp [hg]
  · rw [getLsbD_aboveLsb m a _ hlt]
    simp

variable {masks : List Addr} {v : BitVec 8} {a : Addr}

/-- **The selection determines the lowest bits**: each is the bit of the match
value, changed by the parity of the higher bits of its mask. -/
theorem selected_iff (h : MasksOk masks) : Selected masks v a ↔
      ∀ i m, masks[i]? = some m → a.getLsbD (ctz64 m) = (v.getLsbD i ^^ odd (aboveLsb m a)) := by
  apply forall_congr'
  intro i
  apply forall_congr'
  intro m
  apply imp_congr_right
  intro hm
  rw [popCount_and_mask (h.ne_zero m (mem_of_getElem? hm)), odd]
  rcases Nat.mod_two_eq_zero_or_one (popCount (aboveLsb m a)) with h0 | h1
  · cases a.getLsbD (ctz64 m) <;> cases v.getLsbD i <;> simp [Nat.add_mod, h0]
  · cases a.getLsbD (ctz64 m) <;> cases v.getLsbD i <;> simp [Nat.add_mod, h1]

/-- Two addresses have the same bits apart from the lowest ones of the masks. -/
def SameOff (masks : List Addr) (a b : Addr) : Prop :=
  ∀ i, i < 64 → (∀ m ∈ masks, ctz64 m ≠ i) → a.getLsbD i = b.getLsbD i

theorem lsb_unique (h : MasksOk masks) (hm : m ∈ masks)
    (hm' : m' ∈ masks) (hset : m.getLsbD (ctz64 m') = true) : m = m' := by
  by_contra hne
  have hdisj : m' &&& m = 0 := by
    have hsymm : Std.Symm fun x y : Addr => x &&& y = 0 :=
      ⟨fun x y hxy => by rw [BitVec.and_comm, hxy]⟩
    exact h.pairwise.forall hm' hm (Ne.symm hne)
  rw [getLsbD_of_and_eq_zero hdisj (h.lsb_mem hm')] at hset
  cases hset

variable {b : Addr} {n : ℕ}

theorem SameOff.aboveLsb_eq (h : MasksOk masks)
    (hab : SameOff masks a b) (hm : m ∈ masks) : aboveLsb m a = aboveLsb m b := by
  apply eq_of_getLsbD_eq
  intro i hi
  rw [getLsbD_aboveLsb m a i hi, getLsbD_aboveLsb m b i hi]
  by_cases hin : m.getLsbD i = true ∧ ctz64 m < i
  · have hoff : ∀ m' ∈ masks, ctz64 m' ≠ i := by
      rintro m' hm' rfl
      have heq := lsb_unique h hm hm' hin.1
      rw [heq] at hin
      exact lt_irrefl _ hin.2
    rw [hab i hi hoff]
  · cases hbit : m.getLsbD i with
    | false => simp
    | true => simp [show ¬ ctz64 m < i from fun hlt => hin ⟨hbit, hlt⟩]

theorem sameOff_iff (h : MasksOk r.masks) :
    SameOff r.masks a b ↔ dropBits r.masksLsb a.toNat = dropBits r.masksLsb b.toNat := by
  rw [dropBits_eq_iff (pairwise_masksLsb h)]
  have hoff : ∀ i, i ∉ r.masksLsb ↔ ∀ m ∈ r.masks, ctz64 m ≠ i := by
    intro i
    rw [mem_masksLsb]
    push Not
    rfl
  constructor
  · intro hab i hi
    rcases Nat.lt_or_ge i 64 with hlt | hge
    · exact hab i hlt ((hoff i).mp hi)
    · show a.getLsbD i = b.getLsbD i
      rw [getLsbD_of_ge a i hge, getLsbD_of_ge b i hge]
  · intro hab i _ hi
    exact hab i ((hoff i).mpr hi)

/-! ## Setting the lowest bits -/

/-- The lowest bit of each mask becomes the bit of the match value, changed by
the parity of the bits that `keep` leaves of the mask. -/
def setLsbs (keep : ℕ → Addr) (v : BitVec 8) : List Addr → ℕ → Addr → Addr
  | [], _, a => a
  | m :: masks, i, a =>
    setLsbs keep v masks (i + 1)
      (insertBits a (ctz64 m) (ctz64 m)
        (bits (v.setWidth 64) i i ^^^ BitVec.ofNat 64 (popCount (a &&& m &&& keep (ctz64 m)))))

theorem getLsbD_matchBit (v : BitVec 8) (i n : ℕ) :
    (bits (v.setWidth 64) i i ^^^ BitVec.ofNat 64 n).getLsbD 0
      = (v.getLsbD i ^^ decide (n % 2 = 1)) := by
  have hv : (v.setWidth 64).getLsbD i = v.getLsbD i := by
    rcases Nat.lt_or_ge i 64 with hi | hi
    · simp [hi]
    · simp [getLsbD_of_ge v i (by omega)]
  have hn : (BitVec.ofNat 64 n).getLsbD 0 = decide (n % 2 = 1) := by
    rw [getLsbD_ofNat, Nat.testBit_zero]
    rfl
  rw [getLsbD_xor, getLsbD_bits _ _ _ _ (by norm_num), Nat.add_zero i, hv, hn]
  simp

/-- **What `setLsbs` does**: the other bits stay, and each lowest bit is computed
from the address it began with. -/
theorem setLsbs_spec (keep : ℕ → Addr) (v : BitVec 8) (h : MasksOk masks) (i : ℕ) (a : Addr) :
    SameOff masks (setLsbs keep v masks i a) a ∧
      ∀ k m, masks[k]? = some m → (setLsbs keep v masks i a).getLsbD (ctz64 m)
        = (v.getLsbD (i + k) ^^ odd (a &&& m &&& keep (ctz64 m))) := by
  induction masks generalizing i a with
  | nil =>
    refine ⟨fun j _ _ => rfl, ?_⟩
    intro k m hm
    simp at hm
  | cons m masks ih =>
    have hlsb : ctz64 m < 64 := h.lsb_lt (by simp)
    have hstep := getLsbD_insertBits_bit a (k := ctz64 m) (by omega)
      (bits (v.setWidth 64) i i ^^^ BitVec.ofNat 64 (popCount (a &&& m &&& keep (ctz64 m))))
    obtain ⟨hoff, hon⟩ := ih h.tail (i + 1)
      (insertBits a (ctz64 m) (ctz64 m)
        (bits (v.setWidth 64) i i ^^^ BitVec.ofNat 64 (popCount (a &&& m &&& keep (ctz64 m)))))
    constructor
    · intro j hj hne
      rw [setLsbs, hoff j hj fun m' hm' => hne m' (by simp [hm']), hstep j hj,
        if_neg (Ne.symm (hne m (by simp)))]
    · intro k m' hm'
      cases k with
      | zero =>
        obtain rfl : m = m' := by simpa using hm'
        -- the later masks have other lowest bits
        rw [setLsbs, hoff _ hlsb fun m' => h.lsb_ne, hstep _ hlsb, if_pos rfl, getLsbD_matchBit]
        rfl
      | succ k =>
        have hmem : m' ∈ masks := mem_of_getElem? hm'
        have hsame : insertBits a (ctz64 m) (ctz64 m)
            (bits (v.setWidth 64) i i ^^^
              BitVec.ofNat 64 (popCount (a &&& m &&& keep (ctz64 m)))) &&& m' = a &&& m' := by
          apply eq_of_getLsbD_eq
          intro j hj
          rw [getLsbD_and, getLsbD_and, hstep j hj]
          by_cases hjm : j = ctz64 m
          · rw [hjm, h.lsb_head hmem]
            simp
          · rw [if_neg hjm]
        rw [setLsbs, hon k m' hm', hsame, Nat.add_right_comm, Nat.add_assoc]

/-- **Every address has one in the range with the same other bits.** -/
theorem exists_selected (h : MasksOk masks) (v : BitVec 8) (a : Addr) :
    ∃ b, Selected masks v b ∧ SameOff masks b a := by
  obtain ⟨hoff, hon⟩ := setLsbs_spec (fun lsb => ~~~ mask (lsb + 1)) v h 0 a
  refine ⟨setLsbs (fun lsb => ~~~ mask (lsb + 1)) v masks 0 a, ?_, hoff⟩
  apply (selected_iff h).mpr
  intro k m hm
  rw [hon k m hm, Nat.zero_add, hoff.aboveLsb_eq h (mem_of_getElem? hm)]
  rfl

/-! ## Adding bits -/

/-- The bit that `addLoop` leaves at an inserted position. -/
def carried (p a : ℕ) : Bool := decide (0 < p) && a.testBit (p - 1)

theorem addStep_eq (hp : p < 64) (ha : a.toNat < 2 ^ 63) :
    (if 0 < p then insertBits (a <<< 1) (p - 1) 0 a else a <<< 1).toNat
      = insertBit p (carried p a.toNat) a.toNat := by
  have hshift : ∀ j, j < 64 → (a <<< 1).getLsbD j = (decide (0 < j) && a.toNat.testBit (j - 1)) := by
    intro j hj
    rw [getLsbD_shiftLeft]
    simp only [hj, decide_true]
    congr 1
    by_cases h0 : 0 < j
    · simp [h0, show ¬ j < 1 by omega]
    · simp [h0, show j < 1 by omega]
  apply Nat.eq_of_testBit_eq
  intro j
  rw [testBit_insertBit]
  rcases Nat.lt_or_ge j 64 with hj | hj
  · show getLsbD _ j = _
    -- from the position on it is the shifted address
    have habove : ¬ j < p → (decide (0 < j) && a.toNat.testBit (j - 1))
        = if j = p then carried p a.toNat else a.toNat.testBit (j - 1) := by
      intro hlt
      by_cases heq : j = p
      · rw [if_pos heq, carried, heq]
      · rw [if_neg heq, decide_eq_true (show 0 < j by omega), Bool.true_and]
    by_cases hpos : 0 < p
    · rw [if_pos hpos, getLsbD_insertBits _ (by omega) _ _ _ hj, hshift j hj]
      by_cases hlt : j < p
      · rw [if_pos (by omega), if_pos hlt]
        rfl
      · rw [if_neg (by omega), if_neg hlt, habove hlt]
    · rw [if_neg hpos, hshift j hj, if_neg (by omega), habove (by omega)]
  · have htop : a.toNat.testBit (j - 1) = false :=
      Nat.testBit_lt_two_pow (ha.trans_le (Nat.pow_le_pow_right (by norm_num) (by omega)))
    rw [testBit_of_ge hj, if_neg (by omega), if_neg (by omega), htop]

theorem insertBit_lt (hp : p ≤ n) (b : Bool) {a : ℕ} (ha : a < 2 ^ n) :
    insertBit p b a < 2 ^ (n + 1) := by
  apply Nat.lt_pow_two_of_testBit
  intro i hi
  rw [testBit_insertBit, if_neg (by omega), if_neg (by omega)]
  exact Nat.testBit_lt_two_pow (ha.trans_le (Nat.pow_le_pow_right (by norm_num) (by omega)))

/-- **`addLoop` puts bits in at the positions**, if there is room for them. -/
theorem addLoop_eq {ps : List ℕ} (hps : ps.Pairwise (· < ·)) (hlt : ∀ p ∈ ps, p < 64)
    (ha : a.toNat < 2 ^ (64 - ps.length)) : (addLoop ps a).toNat = fillBits carried ps a.toNat := by
  induction ps generalizing a with
  | nil => rfl
  | cons p ps ih =>
    have hroom : p + (ps.length + 1) ≤ 64 := length_add_le hps hlt
    have hstep := addStep_eq (hlt p (by simp))
      (ha.trans_le (Nat.pow_le_pow_right (by norm_num) (by simp)))
    rw [addLoop, ih (pairwise_cons.mp hps).2 (fun q hq => hlt q (by simp [hq])), hstep]
    · rfl
    · rw [hstep]
      have hn : 64 - ps.length = 64 - (ps.length + 1) + 1 := by omega
      rw [hn]
      exact insertBit_lt (by omega) _ ha

theorem removeIntlvBits_lt (hintlv : r.masks ≠ []) (h : MasksOk r.masks) (a : Addr) :
    (r.removeIntlvBits a).toNat < 2 ^ (64 - r.masksLsb.length) := by
  have hdiv := dropBits_div (pairwise_masksLsb h) (fun p hp => masksLsb_lt h hp) a.toNat
  rw [removeIntlvBits_eq hintlv h]
  rw [Nat.div_eq_of_lt a.isLt] at hdiv
  rcases Nat.div_eq_zero_iff.mp hdiv with hzero | hlt
  · exact absurd hzero (by positivity)
  · exact hlt

/-- The positions are free again after both loops. -/
theorem sameOff_addLoop (hintlv : r.masks ≠ []) (h : MasksOk r.masks) (a : Addr) :
    SameOff r.masks (addLoop r.masksLsb (r.removeIntlvBits a)) a := by
  rw [sameOff_iff h, addLoop_eq (pairwise_masksLsb h) (fun p hp => masksLsb_lt h hp)
    (removeIntlvBits_lt hintlv h a), dropBits_fillBits, removeIntlvBits_eq hintlv h]

theorem selectLoop_eq (v : BitVec 8) (i : ℕ) (a : Addr) (hlsb : ∀ m ∈ masks, ctz64 m < 32)
    (hi : i + masks.length ≤ 32) : selectLoop v masks i a = some (setLsbs notLsb v masks i a) := by
  induction masks generalizing i a with
  | nil => rfl
  | cons m masks ih =>
    rw [length_cons] at hi
    have hguard : ctz64 m < 32 ∧ i < 32 := ⟨hlsb m (by simp), by omega⟩
    unfold selectLoop setLsbs
    rw [if_pos hguard]
    exact ih (i + 1) _ (fun m' hm' => hlsb m' (by simp [hm'])) (by omega)

/-- The shift is undefined from bit 32 on. -/
theorem lsb_lt_of_selectLoop (h : selectLoop v masks i a = some b) : ∀ m ∈ masks, ctz64 m < 32 := by
  induction masks generalizing i a with
  | nil => simp
  | cons m masks ih =>
    unfold selectLoop at h
    by_cases hguard : ctz64 m < 32 ∧ i < 32
    · rw [if_pos hguard] at h
      intro m' hm'
      rcases mem_cons.mp hm' with rfl | hmem
      · exact hguard.1
      · exact ih h m' hmem
    · rw [if_neg hguard] at h
      cases h

theorem getLsbD_notLsb {lsb : ℕ} (hlsb : lsb < 32) (i : ℕ) (hi : i < 64) :
    (notLsb lsb).getLsbD i = if lsb = 31 then decide (i < 31) else decide (i ≠ lsb) := by
  revert lsb i
  decide

/-- Below bit 31 the lowest bit alone is left out; at bit 31 nothing is left of
the mask. -/
theorem odd_notLsb (hm : m ≠ 0) (a : Addr) (hlsb : ctz64 m < 32) :
    odd (a &&& m &&& notLsb (ctz64 m)) = if ctz64 m = 31 then false else odd (aboveLsb m a) := by
  obtain ⟨-, -, hbelow⟩ := ctz64_spec hm
  by_cases h31 : ctz64 m = 31
  · have hzero : a &&& m &&& notLsb (ctz64 m) = 0 := by
      apply eq_of_getLsbD_eq
      intro i hi
      rw [getLsbD_and, getLsbD_notLsb hlsb i hi, if_pos h31]
      by_cases hi31 : i < 31
      · simp [hbelow i (by omega)]
      · simp [hi31]
    rw [if_pos h31, hzero]
    decide
  · have habove : a &&& m &&& notLsb (ctz64 m) = aboveLsb m a := by
      apply eq_of_getLsbD_eq
      intro i hi
      rw [getLsbD_and, getLsbD_notLsb hlsb i hi, if_neg h31, getLsbD_aboveLsb m a i hi]
      rcases lt_trichotomy i (ctz64 m) with hl | he | hg
      · simp [hbelow i hl]
      · simp [he]
      · simp [hg, hg.ne']
    rw [if_neg h31, habove]

/-- At most 32 masks start below bit 32. -/
theorem length_le_of_lsb_lt (h : MasksOk r.masks) (hlsb : ∀ m ∈ r.masks, ctz64 m < 32) :
    r.masks.length ≤ 32 := by
  rw [← length_masksLsb]
  apply length_le_of_pairwise (pairwise_masksLsb h)
  intro p hp
  obtain ⟨m, hm, rfl⟩ := mem_masksLsb.mp hp
  exact hlsb m hm

/-- Where the `int` shift keeps the parity of the mask: below bit 31, and at bit
31 for an even number of higher bits. -/
def LsbKept (m a : Addr) : Prop :=
  ctz64 m < 31 ∨ (ctz64 m = 31 ∧ popCount (a &&& m &&& ~~~ mask 32) % 2 = 0)

instance (m a : Addr) : Decidable (LsbKept m a) := by
  unfold LsbKept
  infer_instance

theorem lsbKept_iff (a : Addr) : LsbKept m a ↔
      ctz64 m < 32 ∧ (if ctz64 m = 31 then false else odd (aboveLsb m a)) = odd (aboveLsb m a) := by
  unfold LsbKept
  by_cases h31 : ctz64 m = 31
  · rw [odd, aboveLsb, h31]
    simp
  · rw [if_neg h31]
    simp only [and_true]
    omega

/-- **Adding after removing** gives back the address exactly where each mask keeps
its parity. -/
theorem addIntlvBits_removeIntlvBits_iff (hintlv : r.interleaved = true) (h : MasksOk r.masks)
    {a : Addr} (ha : r.contains a = true) :
    r.addIntlvBits (r.removeIntlvBits a) = some a ↔ ∀ m ∈ r.masks, LsbKept m a := by
  have hne := interleaved_iff.mp hintlv
  have hsel := (selected_iff h).mp ((contains_iff hne a).mp ha).2
  have hsame := sameOff_addLoop hne h a
  obtain ⟨hoff, hon⟩ := setLsbs_spec notLsb r.intlvMatch h 0
    (addLoop r.masksLsb (r.removeIntlvBits a))
  rw [addIntlvBits, if_pos hintlv]
  -- the bit that the last loop computes for a mask
  have hbit : ∀ k m, r.masks[k]? = some m → ctz64 m < 32 →
      (setLsbs notLsb r.intlvMatch r.masks 0 (addLoop r.masksLsb (r.removeIntlvBits a))).getLsbD
          (ctz64 m)
        = (r.intlvMatch.getLsbD k ^^ if ctz64 m = 31 then false else odd (aboveLsb m a)) := by
    intro k m hm hlsb
    have hmem := mem_of_getElem? hm
    rw [hon k m hm, Nat.zero_add, odd_notLsb (h.ne_zero m hmem) _ hlsb, hsame.aboveLsb_eq h hmem]
  constructor
  · intro heq m hmem
    have hlsb := lsb_lt_of_selectLoop heq
    obtain ⟨k, hm⟩ := mem_iff_getElem?.mp hmem
    rw [selectLoop_eq _ _ _ hlsb (by simpa using length_le_of_lsb_lt h hlsb), Option.some.injEq] at heq
    have hgot := hbit k m hm (hlsb m hmem)
    rw [heq, hsel k m hm] at hgot
    exact (lsbKept_iff a).mpr ⟨hlsb m hmem, (Bool.xor_right_inj.mp hgot).symm⟩
  · intro hkept
    have hlsb : ∀ m ∈ r.masks, ctz64 m < 32 := fun m hmem => ((lsbKept_iff a).mp (hkept m hmem)).1
    rw [selectLoop_eq _ _ _ hlsb (by simpa using length_le_of_lsb_lt h hlsb), Option.some.injEq]
    apply eq_of_getLsbD_eq
    intro i hi
    by_cases hfree : ∀ m ∈ r.masks, ctz64 m ≠ i
    · rw [hoff i hi hfree, hsame i hi hfree]
    · push Not at hfree
      obtain ⟨m, hmem, rfl⟩ := hfree
      obtain ⟨k, hm⟩ := mem_iff_getElem?.mp hmem
      rw [hbit k m hm (hlsb m hmem), ((lsbKept_iff a).mp (hkept m hmem)).2, hsel k m hm]

/-- The range with mask `{31, 40}` that selects even parity. -/
def bit31Range : AddrRange where
  start := 0
  endAddr := 0x1000000000000#64
  masks := [0x10080000000#64]
  intlvMatch := 0
  fits := by decide

theorem addIntlvBits_removeIntlvBits_iff_page :
    bit31Range.addIntlvBits (bit31Range.removeIntlvBits 4096) = some 4096 :=
  (addIntlvBits_removeIntlvBits_iff (by decide) (by decide) (by decide +kernel)).mpr (by
    intro m hm
    obtain rfl : m = 0x10080000000#64 := mem_singleton.mp hm
    decide +kernel)

/-- The range is the one the legacy constructor builds; both bits of its mask are
set in the address, and bit 31 is lost. -/
theorem addIntlvBits_bit31 : ofHighBits 0 0x1000000000000#64 31 40 1 0 = some bit31Range ∧
      bit31Range.interleaved = true ∧ MasksOk bit31Range.masks ∧
      bit31Range.contains 0x10080000000#64 = true ∧
      bit31Range.addIntlvBits (bit31Range.removeIntlvBits 0x10080000000#64)
        = some 0x10000000000#64 := by
  refine ⟨rfl, ?_, ?_, ?_, ?_⟩ <;> decide +kernel

end AddrRange
