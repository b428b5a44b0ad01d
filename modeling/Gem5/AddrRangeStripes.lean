/-
# The stripes of interleaved ranges

The ranges over one interval with the same masks and the match values
`0 .. 2 ^ k - 1` are its stripes.  If the bounds of the interval are multiples of
the block that the lowest bits of the masks lie in, then each address is in
exactly one stripe, and within a stripe `getOffset` counts the addresses.

Below the lowest bit of all masks an address does not matter to its stripe; that
makes the test for a subset sound.
-/
import Gem5.AddrRangeIntlv

open Nat

namespace AddrRange

/-- A range whose bounds are multiples of `2 ^ n`, above all lowest bits. -/
structure Aligned (r : AddrRange) (n : ℕ) : Prop where
  interleaved : r.masks ≠ []
  masks : MasksOk r.masks
  lsb_lt : ∀ m ∈ r.masks, ctz64 m < n
  start_dvd : 2 ^ n ∣ r.start.toNat
  end_dvd : 2 ^ n ∣ r.endAddr.toNat
  nonempty : r.start < r.endAddr

/-! ## One address, one stripe -/

theorem selLoop_lt (a : Addr) (masks : List Addr) : selLoop a masks 0 0 < 2 ^ masks.length := by
  apply lt_pow_two_of_testBit
  intro j hj
  rw [testBit_selLoop]
  simp [List.getElem?_eq_none hj]

variable {masks : List Addr} {a : Addr} {start endAddr : Addr} {v : BitVec 8}

theorem ofMasks_eq_some {r : AddrRange} (h : ofMasks start endAddr masks v = some r) :
    r.start = start ∧ r.endAddr = endAddr ∧ r.masks = masks ∧ r.intlvMatch = v := by
  unfold ofMasks at h
  split at h
  · cases h
    exact ⟨rfl, rfl, rfl, rfl⟩
  · cases h

theorem ofMasks_of_lt (start endAddr : Addr) (h : v.toNat < 2 ^ masks.length) :
    ∃ r, ofMasks start endAddr masks v = some r := by
  unfold ofMasks
  rw [dif_pos fun _ => h]
  exact ⟨_, rfl⟩

/-- The match value of an address is read off its parities. -/
theorem contains_iff_selLoop {r : AddrRange} (hin : r.start ≤ a ∧ a < r.endAddr) :
    r.contains a = true ↔ selLoop a r.masks 0 0 = r.intlvMatch.toNat := by
  rw [contains, if_pos hin, beq_iff_eq]

theorem existsUnique_stripe (hlen : masks.length ≤ 8) (hin : start ≤ a ∧ a < endAddr) :
    ∃! v : BitVec 8, ∃ r, ofMasks start endAddr masks v = some r ∧ r.contains a = true := by
  have hlt := selLoop_lt a masks
  have hfit : selLoop a masks 0 0 < 2 ^ 8 := hlt.trans_le (Nat.pow_le_pow_right (by norm_num) hlen)
  have hval : (BitVec.ofNat 8 (selLoop a masks 0 0)).toNat = selLoop a masks 0 0 :=
    mod_eq_of_lt hfit
  refine ⟨BitVec.ofNat 8 (selLoop a masks 0 0), ?_, ?_⟩
  · obtain ⟨r, hr⟩ := ofMasks_of_lt start endAddr
      (by rw [hval]; exact hlt)
    obtain ⟨hstart, hend, hmasks, hv⟩ := ofMasks_eq_some hr
    refine ⟨r, hr, ?_⟩
    rw [contains_iff_selLoop (by rw [hstart, hend]; exact hin), hmasks, hv, hval]
  · rintro v ⟨r, hr, hcontains⟩
    obtain ⟨hstart, hend, hmasks, hv⟩ := ofMasks_eq_some hr
    rw [contains_iff_selLoop (by rw [hstart, hend]; exact hin), hmasks, hv] at hcontains
    apply BitVec.eq_of_toNat_eq
    rw [hval, hcontains]

/-! ## Offsets -/

namespace Aligned

variable {r : AddrRange} {n : ℕ} (h : r.Aligned n)

include h

theorem masksLsb_lt {p : ℕ} (hp : p ∈ r.masksLsb) : p < n := by
  obtain ⟨m, hm, rfl⟩ := mem_masksLsb.mp hp
  exact h.lsb_lt m hm

theorem length_le : r.masks.length ≤ n := by
  rw [← length_masksLsb]
  exact length_le_of_pairwise (pairwise_masksLsb h.masks) fun p hp => h.masksLsb_lt hp

/-- The block of an address stays when its bits are taken out. -/
theorem removeIntlvBits_div (a : Addr) :
    (r.removeIntlvBits a).toNat / 2 ^ (n - r.masks.length) = a.toNat / 2 ^ n := by
  rw [removeIntlvBits_eq h.interleaved h.masks, ← length_masksLsb]
  exact dropBits_div (pairwise_masksLsb h.masks) (fun p hp => h.masksLsb_lt hp) a.toNat

theorem removeIntlvBits_start :
    (r.removeIntlvBits r.start).toNat = r.start.toNat / 2 ^ n * 2 ^ (n - r.masks.length) := by
  obtain ⟨s, hs⟩ := h.start_dvd
  rw [removeIntlvBits_eq h.interleaved h.masks, ← length_masksLsb, hs, mul_comm,
    dropBits_mul (pairwise_masksLsb h.masks) (fun p hp => h.masksLsb_lt hp),
    Nat.mul_div_cancel _ (by positivity)]

/-- An address is in the interval exactly if its block is. -/
theorem in_iff (a : Addr) : (r.start ≤ a ∧ a < r.endAddr) ↔
      r.start.toNat / 2 ^ n ≤ a.toNat / 2 ^ n ∧ a.toNat / 2 ^ n < r.endAddr.toNat / 2 ^ n := by
  have hpos : 0 < 2 ^ n := by positivity
  obtain ⟨s, hs⟩ := h.start_dvd
  obtain ⟨e, he⟩ := h.end_dvd
  rw [BitVec.le_def, BitVec.lt_def, hs, he, Nat.mul_div_cancel_left s hpos,
    Nat.mul_div_cancel_left e hpos, Nat.le_div_iff_mul_le hpos, Nat.div_lt_iff_lt_mul hpos,
    mul_comm s, mul_comm e]

/-- The offset is what is left, counted from the first block. -/
theorem toNat_getOffset (ha : r.start ≤ a ∧ a < r.endAddr) :
    (r.getOffset a).toNat + r.start.toNat / 2 ^ n * 2 ^ (n - r.masks.length)
      = (r.removeIntlvBits a).toNat := by
  have hblock := ((h.in_iff a).mp ha).1
  rw [← h.removeIntlvBits_div a, le_div_iff_mul_le (by positivity)] at hblock
  rw [← h.removeIntlvBits_start] at hblock ⊢
  rw [getOffset, if_pos ha, if_pos (interleaved_iff.mpr h.interleaved),
    BitVec.toNat_sub_of_le hblock]
  omega

theorem toNat_size : r.size.toNat + r.start.toNat / 2 ^ n * 2 ^ (n - r.masks.length)
      = r.endAddr.toNat / 2 ^ n * 2 ^ (n - r.masks.length) := by
  obtain ⟨s, hs⟩ := h.start_dvd
  obtain ⟨e, he⟩ := h.end_dvd
  have hpos : 0 < 2 ^ n := by positivity
  have hle : r.start ≤ r.endAddr := BitVec.le_of_lt h.nonempty
  have hpow : 2 ^ n = 2 ^ (n - r.masks.length) * 2 ^ r.masks.length := by
    rw [← pow_add, Nat.sub_add_cancel h.length_le]
  have hse : s ≤ e := by
    rw [BitVec.le_def, hs, he] at hle
    exact le_of_mul_le_mul_left hle hpos
  have hdiff : (r.endAddr.toNat - r.start.toNat) / 2 ^ r.masks.length
      = (e - s) * 2 ^ (n - r.masks.length) := by
    rw [hs, he, ← Nat.mul_sub, hpow, Nat.mul_right_comm, Nat.mul_div_cancel _ (by positivity),
      mul_comm]
  rw [size, BitVec.toNat_ushiftRight, BitVec.toNat_sub_of_le hle, shiftRight_eq_div_pow, hdiff,
    hs, he, Nat.mul_div_cancel_left s hpos, Nat.mul_div_cancel_left e hpos, ← Nat.add_mul,
    Nat.sub_add_cancel hse]

theorem getOffset_lt_size (ha : r.start ≤ a ∧ a < r.endAddr) : r.getOffset a < r.size := by
  have hoff := h.toNat_getOffset ha
  have hsize := h.toNat_size
  have hblock := ((h.in_iff a).mp ha).2
  rw [← h.removeIntlvBits_div a, div_lt_iff_lt_mul (by positivity)] at hblock
  rw [BitVec.lt_def]
  omega

/-- **Strictly increasing**: two addresses of a stripe cannot first differ in the
lowest bit of a mask, whose parity the higher bits decide. -/
theorem getOffset_lt {a b : Addr} (ha : r.contains a = true) (hb : r.contains b = true)
    (hlt : a < b) : r.getOffset a < r.getOffset b := by
  obtain ⟨hina, hsela⟩ := (contains_iff h.interleaved a).mp ha
  obtain ⟨hinb, hselb⟩ := (contains_iff h.interleaved b).mp hb
  obtain ⟨q, hq⟩ := exists_differsAt (show a.toNat < b.toNat from hlt)
  have hfree : q ∉ r.masksLsb := by
    intro hmem
    obtain ⟨m, hm, rfl⟩ := mem_masksLsb.mp hmem
    obtain ⟨k, hk⟩ := List.mem_iff_getElem?.mp hm
    have habove : aboveLsb m a = aboveLsb m b := by
      apply BitVec.eq_of_getLsbD_eq
      intro i hi
      rw [getLsbD_aboveLsb m a i hi, getLsbD_aboveLsb m b i hi]
      by_cases hlsb : ctz64 m < i
      · have hsame : a.getLsbD i = b.getLsbD i := hq.above i hlsb
        rw [hsame]
      · simp [hlsb]
    have hbit : a.getLsbD (ctz64 m) = b.getLsbD (ctz64 m) := by
      rw [(selected_iff h.masks).mp hsela k m hk, (selected_iff h.masks).mp hselb k m hk, habove]
    have hleft : a.getLsbD (ctz64 m) = false := hq.left
    have hright : b.getLsbD (ctz64 m) = true := hq.right
    rw [hleft, hright] at hbit
    cases hbit
  have hdrop := hq.dropBits (pairwise_masksLsb h.masks) hfree
  rw [← removeIntlvBits_eq h.interleaved h.masks, ← removeIntlvBits_eq h.interleaved h.masks,
    ← h.toNat_getOffset hina, ← h.toNat_getOffset hinb] at hdrop
  rw [BitVec.lt_def]
  omega

/-- Any offset is filled up to an address, in its block. -/
theorem exists_removeIntlvBits_eq {x : ℕ}
    (hx : x < r.endAddr.toNat / 2 ^ n * 2 ^ (n - r.masks.length)) :
    ∃ a : Addr, (r.removeIntlvBits a).toNat = x := by
  have hps := pairwise_masksLsb h.masks
  have hlt : fillBits (fun _ _ => false) r.masksLsb x < 2 ^ 64 := by
    have hdiv := dropBits_div hps (fun p hp => h.masksLsb_lt hp)
      (fillBits (fun _ _ => false) r.masksLsb x)
    rw [dropBits_fillBits, length_masksLsb] at hdiv
    rw [← div_lt_iff_lt_mul (by positivity), hdiv] at hx
    exact (lt_of_not_ge fun hge => absurd (Nat.div_le_div_right hge) (Nat.not_le.mpr hx)).trans
      r.endAddr.isLt
  refine ⟨BitVec.ofNat 64 (fillBits (fun _ _ => false) r.masksLsb x), ?_⟩
  rw [removeIntlvBits_eq h.interleaved h.masks, BitVec.toNat_ofNat, mod_eq_of_lt hlt,
    dropBits_fillBits]

/-- **Onto**: every offset below the size is one of an address in the stripe. -/
theorem exists_getOffset_eq {o : Addr} (ho : o < r.size) :
    ∃ a, r.contains a = true ∧ r.getOffset a = o := by
  have hsize := h.toNat_size
  have ho' : o.toNat < r.size.toNat := ho
  obtain ⟨y, hy⟩ := h.exists_removeIntlvBits_eq
    (x := o.toNat + r.start.toNat / 2 ^ n * 2 ^ (n - r.masks.length)) (by omega)
  obtain ⟨a, hsel, hsame⟩ := exists_selected h.masks r.intlvMatch y
  have hrem : (r.removeIntlvBits a).toNat
      = o.toNat + r.start.toNat / 2 ^ n * 2 ^ (n - r.masks.length) := by
    rw [← hy, removeIntlvBits_eq h.interleaved h.masks, removeIntlvBits_eq h.interleaved h.masks]
    exact (sameOff_iff h.masks).mp hsame
  have hin : r.start ≤ a ∧ a < r.endAddr := by
    rw [h.in_iff, ← h.removeIntlvBits_div a, le_div_iff_mul_le (by positivity),
      div_lt_iff_lt_mul (by positivity)]
    omega
  refine ⟨a, (contains_iff h.interleaved a).mpr ⟨hin, hsel⟩, ?_⟩
  have hoff := h.toNat_getOffset hin
  apply BitVec.eq_of_toNat_eq
  omega

theorem bijOn_getOffset : Set.BijOn r.getOffset {a | r.contains a = true} {o | o < r.size} := by
  refine ⟨?_, ?_, ?_⟩
  · intro a ha
    exact h.getOffset_lt_size ((contains_iff h.interleaved a).mp ha).1
  · intro a ha b hb heq
    rcases lt_trichotomy a.toNat b.toNat with hlt | heq' | hgt
    · have hoff := h.getOffset_lt ha hb hlt
      rw [heq, BitVec.lt_def] at hoff
      exact absurd hoff (lt_irrefl _)
    · exact BitVec.eq_of_toNat_eq heq'
    · have hoff := h.getOffset_lt hb ha hgt
      rw [heq, BitVec.lt_def] at hoff
      exact absurd hoff (lt_irrefl _)
  · intro o ho
    exact h.exists_getOffset_eq ho

end Aligned

/-! ## The partition -/

/-- **The stripes tile the interval.** -/
theorem stripes_partition {start endAddr : Addr} {masks : List Addr} {L : ℕ}
    (hpos : 1 ≤ masks.length) (hlen : masks.length ≤ 8) (h : MasksOk masks)
    (hL : (masks.map ctz64).max? = some L) (hstart : 2 ^ (L + 1) ∣ start.toNat)
    (hend : 2 ^ (L + 1) ∣ endAddr.toNat) (hlt : start < endAddr) :
    (∀ v : BitVec 8, v.toNat < 2 ^ masks.length → ∃ r, ofMasks start endAddr masks v = some r) ∧
    (∀ a, start ≤ a ∧ a < endAddr →
      ∃! v : BitVec 8, ∃ r, ofMasks start endAddr masks v = some r ∧ r.contains a = true) ∧
    ∀ v r, ofMasks start endAddr masks v = some r →
      (∀ a, r.contains a = true → start ≤ a ∧ a < endAddr) ∧
      (∀ a b, r.contains a = true → r.contains b = true → a < b → r.getOffset a < r.getOffset b) ∧
      Set.BijOn r.getOffset {a | r.contains a = true} {o | o < r.size} := by
  refine ⟨fun v hv => ofMasks_of_lt start endAddr hv, fun a ha => existsUnique_stripe hlen ha, ?_⟩
  intro v r hr
  obtain ⟨rfl, rfl, rfl, -⟩ := ofMasks_eq_some hr
  have haligned : r.Aligned (L + 1) :=
    { interleaved := List.ne_nil_of_length_pos hpos
      masks := h
      lsb_lt := by
        intro m hm
        have hle := (List.max?_eq_some_iff.mp hL).2 (ctz64 m) (List.mem_map.mpr ⟨m, hm, rfl⟩)
        omega
      start_dvd := hstart
      end_dvd := hend
      nonempty := hlt }
  refine ⟨?_, fun a b => haligned.getOffset_lt, haligned.bijOn_getOffset⟩
  intro a ha
  exact ((contains_iff haligned.interleaved a).mp ha).1

/-- Four stripes of a page each: the first mask is bit 13 alone, the second one
bits 12 and 14. -/
theorem stripes_partition_pages :
    ∃! v : BitVec 8, ∃ r, ofMasks 0 0x10000#64 [0x2000#64, 0x5000#64] v = some r ∧
      r.contains 0x3000#64 = true :=
  (stripes_partition (L := 13) (by decide) (by decide) (by decide) (by decide +kernel)
    (by decide +kernel) (by decide +kernel) (by decide)).2.1 0x3000#64 (by decide)

/-! ## Granules -/

section Granules

open BitVec hiding or_assoc

variable {r : AddrRange} {b i : ℕ}

theorem getLsbD_signExtend_of_lt (c : BitVec 32) (hi : i < 32) :
    (c.signExtend 64).getLsbD i = c.getLsbD i := by
  rw [getLsbD_signExtend, if_pos hi, decide_eq_true (by omega), Bool.true_and]

/-- No bit from 32 on enters the `int`. -/
theorem getLsbD_combinedMask (hi : i < 32) :
    (combinedMask masks).getLsbD i = true ↔ ∃ m ∈ masks, m.getLsbD i = true := by
  -- the fold is generalised over the value it has reached
  have hfold : ∀ c : BitVec 32,
      (masks.foldl (fun c m => (c.signExtend 64 ||| m).setWidth 32) c).getLsbD i = true ↔
        c.getLsbD i = true ∨ ∃ m ∈ masks, m.getLsbD i = true := by
    induction masks with
    | nil => simp
    | cons m masks ih =>
      intro c
      rw [List.foldl_cons, ih, getLsbD_setWidth, getLsbD_or, getLsbD_signExtend_of_lt c hi]
      simp [hi, or_assoc]
  rw [combinedMask, hfold]
  simp

/-- The lowest bit of the masks, if the `int` has it. -/
theorem isLeast_ctz64_combinedMask (h32 : ∃ m ∈ masks, ctz64 m < 32) :
    ctz64 ((combinedMask masks).signExtend 64) < 64 ∧
      IsLeast {b | ∃ m ∈ masks, m.getLsbD b = true} (ctz64 ((combinedMask masks).signExtend 64)) := by
  obtain ⟨m, hm, hlt⟩ := h32
  have hbits : ∀ i < 32, ((combinedMask masks).signExtend 64).getLsbD i = true ↔
      ∃ m ∈ masks, m.getLsbD i = true := by
    intro i hi
    rw [getLsbD_signExtend_of_lt _ hi, getLsbD_combinedMask hi]
  have hm0 : m ≠ 0 := by
    rintro rfl
    exact absurd hlt (by decide)
  have hset := (hbits _ hlt).mpr ⟨m, hm, (ctz64_spec hm0).2.1⟩
  obtain ⟨h64, hbit, hlow⟩ := ctz64_spec (v := (combinedMask masks).signExtend 64) (by
    intro h
    simp [h] at hset)
  have hle : ctz64 ((combinedMask masks).signExtend 64) < 32 := by
    by_contra hge
    rw [hlow _ (by omega)] at hset
    cases hset
  refine ⟨h64, (hbits _ hle).mp hbit, ?_⟩
  intro i hi
  by_contra hlt
  have := (hbits i (by omega)).mpr hi
  rw [hlow i (by omega)] at this
  cases this

/-- The parities of an address are those of its granule. -/
theorem selLoop_congr (hlow : ∀ m ∈ masks, ∀ i < b, m.getLsbD i = false) {a' : Addr}
    (hdiv : a.toNat / 2 ^ b = a'.toNat / 2 ^ b) (i sel : ℕ) :
    selLoop a masks i sel = selLoop a' masks i sel := by
  have hand : ∀ m ∈ masks, a &&& m = a' &&& m := by
    intro m hm
    apply eq_of_getLsbD_eq
    intro j hj
    rw [getLsbD_and, getLsbD_and]
    rcases lt_or_ge j b with hjb | hjb
    · rw [hlow m hm j hjb, Bool.and_false, Bool.and_false]
    · have hbit := congrArg (fun n => n.testBit (j - b)) hdiv
      simp only [Nat.testBit_div_two_pow, Nat.sub_add_cancel hjb] at hbit
      rw [show a.getLsbD j = a'.getLsbD j from hbit]
  induction masks generalizing i sel with
  | nil => rfl
  | cons m masks ih =>
    simp only [List.mem_cons, forall_eq_or_imp] at hlow hand
    rw [selLoop, hand.1]
    exact ih hlow.2 _ _ hand.2

/-- Both ends in the range and no more than a granule between them: each address
is in the granule of one end. -/
theorem contains_between {q : AddrRange} (hlow : ∀ m ∈ r.masks, ∀ i < b, m.getLsbD i = false)
    (hstart : r.contains q.start = true) (hend : r.contains (q.endAddr - 1) = true)
    (hsize : q.hi - q.lo ≤ 2 ^ b) (hqa : q.start ≤ a ∧ a < q.endAddr) : r.contains a = true := by
  obtain ⟨hin, hsel⟩ : (r.start ≤ q.start ∧ q.start < r.endAddr) ∧
      selLoop q.start r.masks 0 0 = r.intlvMatch.toNat := by
    simpa [contains] using hstart
  obtain ⟨hin', hsel'⟩ : (r.start ≤ q.endAddr - 1 ∧ q.endAddr - 1 < r.endAddr) ∧
      selLoop (q.endAddr - 1) r.masks 0 0 = r.intlvMatch.toNat := by
    simpa [contains] using hend
  have hlast : (q.endAddr - 1).toNat = q.endAddr.toNat - 1 := by bv_omega
  have hra : r.start ≤ a ∧ a < r.endAddr := by bv_omega
  rw [contains_iff_selLoop hra]
  have hle : q.start.toNat ≤ a.toNat ∧ a.toNat ≤ (q.endAddr - 1).toNat := by bv_omega
  rcases eq_or_ne (a.toNat / 2 ^ b) (q.start.toNat / 2 ^ b) with heq | hne
  · rw [selLoop_congr hlow heq, hsel]
  · rw [selLoop_congr hlow ?_, hsel']
    -- past the granule of the start there is only that of the last address
    apply le_antisymm (Nat.div_le_div_right hle.2)
    have hnext : q.start.toNat / 2 ^ b + 1 ≤ a.toNat / 2 ^ b :=
      lt_of_le_of_ne (Nat.div_le_div_right hle.1) hne.symm
    refine le_trans ?_ hnext
    rw [← Nat.add_div_right _ (Nat.two_pow_pos b)]
    apply Nat.div_le_div_right
    simp only [hi, lo] at hsize
    omega

/-- **Granules.**  The test for a subset of an interleaved range is sound and the
granularity is exact for the masks with a bit below 32. -/
theorem isSubset_granularity_iff (hintlv : r.interleaved = true) (h0 : ∀ m ∈ r.masks, m ≠ 0) :
    ((∀ q : AddrRange, q.Plain → q.isSubset r = some true →
        ∀ a, q.start ≤ a ∧ a < q.endAddr → r.contains a = true) ∧
      ∃ b, IsLeast {b | ∃ m ∈ r.masks, m.getLsbD b = true} b ∧
        r.granularity = some (BitVec.ofNat 64 (2 ^ b))) ↔ ∃ m ∈ r.masks, ctz64 m < 32 := by
  constructor
  · rintro ⟨-, b, -, hgran⟩
    by_contra hhigh
    -- no mask leaves anything in the `int`
    have hzero : combinedMask r.masks = 0 := by
      apply eq_of_getLsbD_eq
      intro i hi
      rw [Bool.eq_iff_iff, getLsbD_combinedMask hi]
      simp only [ofNat_eq_ofNat, getLsbD_zero, Bool.false_eq_true, iff_false]
      rintro ⟨m, hm, hbit⟩
      apply hhigh
      refine ⟨m, hm, ?_⟩
      by_contra hge
      rw [(ctz64_spec (h0 m hm)).2.2 i (by omega)] at hbit
      cases hbit
    rw [granularity, if_pos hintlv, hzero] at hgran
    cases hgran
  · intro h32
    obtain ⟨h64, hleast⟩ := isLeast_ctz64_combinedMask h32
    set b := ctz64 ((combinedMask r.masks).signExtend 64) with hb
    have hgran : r.granularity = some (BitVec.ofNat 64 (2 ^ b)) := by
      rw [granularity, if_pos hintlv, ← hb]
      simp only [h64]
      rw [ofNat_eq_ofNat, ← twoPow_eq]
      exact congrArg some (eq_of_toNat_eq (by simp))
    refine ⟨?_, b, hleast, hgran⟩
    intro q hq hsub a ha
    rw [isSubset, interleaved_eq hq.masks_eq, if_neg Bool.false_ne_true, if_pos hintlv] at hsub
    split at hsub
    · rename_i hends
      rw [Bool.and_eq_true] at hends
      rw [hgran] at hsub
      have hsize : q.size ≤ BitVec.ofNat 64 (2 ^ b) := by simpa using hsub
      refine contains_between (b := b) ?_ hends.1 hends.2 ?_ ha
      · intro m hm i hi
        by_contra hbit
        have := hleast.2 ⟨m, hm, by simpa using hbit⟩
        omega
      · have hpow : (BitVec.ofNat 64 (2 ^ b)).toNat = 2 ^ b :=
          Nat.mod_eq_of_lt (Nat.pow_lt_pow_right (by omega) h64)
        rw [size, hq.masks_eq, List.length_nil, le_def, hpow] at hsize
        simp only [hi, lo]
        bv_omega
    · cases hsub

/-- Interleaved at bit 32 alone. -/
def bit32Range : AddrRange := ⟨0, 0x400000000#64, [0x100000000#64], 0, by decide⟩

theorem granularity_bit32 : bit32Range.masks.map ctz64 = [32] ∧ bit32Range.granularity = none := by
  decide +kernel

/-- Every other page. -/
def evenPages : AddrRange := ⟨0, 0x10000#64, [0x1000#64], 0, by decide⟩

theorem isSubset_granularity_iff_page :
    ctz64 0x1000#64 < 32 ∧ evenPages.contains 0x2abc#64 = true :=
  ⟨by decide +kernel, ((isSubset_granularity_iff (r := evenPages) rfl (by simp [evenPages])).mpr
    ⟨0x1000#64, List.mem_singleton_self _, by decide +kernel⟩).1
    (ofBounds 0x2000#64 0x3000#64) ⟨rfl, by decide⟩ (by decide +kernel) _ (by decide)⟩

end Granules

end AddrRange
