/-
# Address decoding of a DRAM interface

Model of `DRAMInterface::decodePacket` and of the part of the constructors of
`DRAMInterface` and `MemInterface` that computes the geometry (mem/dram_interface.cc,
mem_interface.cc).  Addresses start at 0 in their channel, as `getCtrlAddr` gives them.

Numbers are natural numbers, cut off where the source stores them in fewer bits than they
may need: `burstsPerStripe`, `rowsPerBank` and the product it is computed with in 32, the
bank and the rank in 8, the number of the bank in 16.
-/
import Gem5.Bitfield
import Gem5.MixedRadix

open Nat

namespace DRAMInterface

inductive AddrMap where
  | RoRaBaChCo
  | RoRaBaCoCh
  | RoCoRaBaCh
  deriving DecidableEq

/-- The parameters of the constructors. -/
structure Params where
  addrMapping : AddrMap
  burstSize : ℕ
  rowBufferSize : ℕ
  /-- The granularity of the address range if it is interleaved. -/
  granularity : Option ℕ
  banksPerRank : ℕ
  ranksPerChannel : ℕ
  /-- `AbstractMemory::size()` -/
  size : ℕ

/-- Where a burst is. -/
structure Decoded where
  rank : ℕ
  bank : ℕ
  row : ℕ
  bankId : ℕ
  deriving DecidableEq

namespace Params

variable (p : Params)

def burstsPerRowBuffer : ℕ := p.rowBufferSize / p.burstSize

def burstsPerStripe : ℕ :=
  match p.granularity with
  | none => 1
  | some granularity => granularity / p.burstSize % 2 ^ 32

/-- `1ULL << ceilLog2(size)` -/
def capacity : ℕ := 2 ^ Nat.clog 2 p.size

def rowsPerBank : ℕ :=
  p.capacity / (p.rowBufferSize * p.banksPerRank * p.ranksPerChannel % 2 ^ 32) % 2 ^ 32

/-- `Bank::NO_ROW` -/
def noRow : ℕ := 2 ^ 32 - 1

/-- The asserts at the end of `decodePacket`, and what goes into the packet. -/
def makePacket (rank bank row : ℕ) : Option Decoded :=
  if rank < p.ranksPerChannel ∧ bank < p.banksPerRank ∧ row < p.rowsPerBank ∧ row < noRow then
    some ⟨rank, bank, row, (p.banksPerRank * rank + bank) % 2 ^ 16⟩
  else none

def decodePacket (addr : ℕ) : Option Decoded :=
  let addr := addr / p.burstSize
  match p.addrMapping with
  | .RoRaBaChCo | .RoRaBaCoCh =>
    -- the column is in the lowest bits
    let addr := addr / p.burstsPerRowBuffer
    let bank := addr % p.banksPerRank % 2 ^ 8
    let addr := addr / p.banksPerRank
    let rank := addr % p.ranksPerChannel % 2 ^ 8
    let addr := addr / p.ranksPerChannel
    p.makePacket rank bank (addr % p.rowsPerBank)
  | .RoCoRaBaCh =>
    -- the lower part of the column is below the channel
    let addr :=
      if p.burstsPerStripe > p.burstsPerRowBuffer then addr / p.burstsPerRowBuffer
      else addr / p.burstsPerStripe
    let bank := addr % p.banksPerRank % 2 ^ 8
    let addr := addr / p.banksPerRank
    let rank := addr % p.ranksPerChannel % 2 ^ 8
    let addr := addr / p.ranksPerChannel
    -- the higher part of the column
    let addr :=
      if p.burstsPerStripe < p.burstsPerRowBuffer then
        addr / (p.burstsPerRowBuffer / p.burstsPerStripe)
      else addr
    p.makePacket rank bank (addr % p.rowsPerBank)

/-- A geometry of powers of two, with at most 256 ranks. -/
structure PowerOfTwo (p : Params) : Prop where
  burstSize : isPowerOf2 p.burstSize
  rowBufferSize : isPowerOf2 p.rowBufferSize
  burstsPerRowBuffer : isPowerOf2 p.burstsPerRowBuffer
  burstsPerStripe : isPowerOf2 p.burstsPerStripe
  banksPerRank : isPowerOf2 p.banksPerRank
  ranksPerChannel : isPowerOf2 p.ranksPerChannel
  ranks_le : p.ranksPerChannel ≤ 256
  rowsPerBank : isPowerOf2 p.rowsPerBank

/-- The addresses of the bursts of the channel that are in a row of a bank of a rank. -/
def burstsAt (rank bank row : ℕ) : Finset ℕ :=
  (Finset.range p.capacity).filter fun addr => addr % p.burstSize = 0 ∧
    (p.decodePacket addr).map (fun d => (d.rank, d.bank, d.row)) = some (rank, bank, row)

/-- Every burst of the channel has its place, and every row of every bank has as many of
them as its buffer holds. -/
structure DecodesEvenly (p : Params) : Prop where
  inRange : ∀ addr < p.capacity, addr % p.burstSize = 0 → ∃ d, p.decodePacket addr = some d ∧
    d.rank < p.ranksPerChannel ∧ d.bank < p.banksPerRank ∧ d.row < p.rowsPerBank
  even : ∀ rank < p.ranksPerChannel, ∀ bank < p.banksPerRank, ∀ row < p.rowsPerBank,
    (p.burstsAt rank bank row).card = p.burstsPerRowBuffer

/-! ## The digits of an address -/

/-- The part of the column below the bank. -/
def lowColumn : ℕ :=
  match p.addrMapping with
  | .RoRaBaChCo | .RoRaBaCoCh => p.burstsPerRowBuffer
  | .RoCoRaBaCh =>
    if p.burstsPerStripe > p.burstsPerRowBuffer then p.burstsPerRowBuffer else p.burstsPerStripe

/-- The part of the column above the rank. -/
def highColumn : ℕ :=
  match p.addrMapping with
  | .RoRaBaChCo | .RoRaBaCoCh => 1
  | .RoCoRaBaCh =>
    if p.burstsPerStripe < p.burstsPerRowBuffer then p.burstsPerRowBuffer / p.burstsPerStripe
    else 1

variable {p : Params}

/-- All the mappings read the same digits, with different radices for the column. -/
theorem decodePacket_eq (addr : ℕ) :
    p.decodePacket addr = p.makePacket
      (addr / p.burstSize / p.lowColumn / p.banksPerRank % p.ranksPerChannel % 2 ^ 8)
      (addr / p.burstSize / p.lowColumn % p.banksPerRank % 2 ^ 8)
      (addr / p.burstSize / p.lowColumn / p.banksPerRank / p.ranksPerChannel / p.highColumn %
        p.rowsPerBank) := by
  cases hmap : p.addrMapping with
  | RoRaBaChCo | RoRaBaCoCh => simp [decodePacket, lowColumn, highColumn, hmap]
  | RoCoRaBaCh =>
    simp only [decodePacket, lowColumn, highColumn, hmap]
    split <;> split <;> simp

namespace PowerOfTwo

theorem pos {n : ℕ} (h : isPowerOf2 n) : 0 < n := by
  obtain ⟨e, rfl⟩ := (isPowerOf2_iff n).mp h
  positivity

theorem lowColumn_mul_highColumn (h : p.PowerOfTwo) :
    p.lowColumn * p.highColumn = p.burstsPerRowBuffer := by
  cases hmap : p.addrMapping with
  | RoRaBaChCo | RoRaBaCoCh => simp [lowColumn, highColumn, hmap]
  | RoCoRaBaCh =>
    simp only [lowColumn, highColumn, hmap]
    rcases lt_trichotomy p.burstsPerStripe p.burstsPerRowBuffer with hlt | heq | hgt
    · obtain ⟨a, ha⟩ := (isPowerOf2_iff _).mp h.burstsPerStripe
      obtain ⟨b, hb⟩ := (isPowerOf2_iff _).mp h.burstsPerRowBuffer
      have hdvd : p.burstsPerStripe ∣ p.burstsPerRowBuffer := by
        rw [ha, hb] at hlt ⊢
        exact pow_dvd_pow 2 ((Nat.pow_lt_pow_iff_right (by norm_num)).mp hlt).le
      rw [if_neg (Nat.not_lt.mpr hlt.le), if_pos hlt, Nat.mul_div_cancel' hdvd]
    · rw [heq, if_neg (lt_irrefl _), if_neg (lt_irrefl _), mul_one]
    · rw [if_pos hgt, if_neg (not_lt.mpr hgt.le), mul_one]

theorem burstSize_mul (h : p.PowerOfTwo) : p.burstSize * p.burstsPerRowBuffer = p.rowBufferSize := by
  obtain ⟨a, ha⟩ := (isPowerOf2_iff _).mp h.burstSize
  obtain ⟨b, hb⟩ := (isPowerOf2_iff _).mp h.rowBufferSize
  have hpos : 0 < p.burstsPerRowBuffer := pos h.burstsPerRowBuffer
  have hle : p.burstSize ≤ p.rowBufferSize :=
    Nat.le_of_not_lt fun hlt => hpos.ne' (Nat.div_eq_of_lt hlt)
  apply Nat.mul_div_cancel'
  rw [ha, hb] at hle ⊢
  exact pow_dvd_pow 2 ((Nat.pow_le_pow_iff_right (by norm_num)).mp hle)

/-- If a bank has rows at all, nothing was cut off when they were counted, and the rows of
all banks fill the capacity. -/
theorem capacity_eq (h : p.PowerOfTwo) :
    p.capacity = p.rowBufferSize * p.banksPerRank * p.ranksPerChannel * p.rowsPerBank := by
  obtain ⟨a, ha⟩ := (isPowerOf2_iff _).mp h.rowBufferSize
  obtain ⟨b, hb⟩ := (isPowerOf2_iff _).mp h.banksPerRank
  obtain ⟨c, hc⟩ := (isPowerOf2_iff _).mp h.ranksPerChannel
  have hpos : p.rowsPerBank ≠ 0 := (pos h.rowsPerBank).ne'
  have hproduct : p.rowBufferSize * p.banksPerRank * p.ranksPerChannel = 2 ^ (a + b + c) := by
    rw [ha, hb, hc, pow_add, pow_add]
  have hdef : p.rowsPerBank = 2 ^ clog 2 p.size / (2 ^ (a + b + c) % 2 ^ 32) % 2 ^ 32 := by
    rw [Params.rowsPerBank, capacity, hproduct]
  rw [capacity, hproduct]
  generalize clog 2 p.size = e at hdef ⊢
  generalize a + b + c = f at hdef ⊢
  have hf : f < 32 := by
    by_contra hge
    rw [Nat.mod_eq_zero_of_dvd (pow_dvd_pow 2 (Nat.le_of_not_lt hge)), Nat.div_zero] at hdef
    exact hpos hdef
  have hmod : 2 ^ f % 2 ^ 32 = 2 ^ f := Nat.mod_eq_of_lt (Nat.pow_lt_pow_right (by norm_num) hf)
  rw [hmod] at hdef
  have hfe : f ≤ e := by
    by_contra hlt
    have hlt : 2 ^ e < 2 ^ f := Nat.pow_lt_pow_right (by norm_num) (Nat.lt_of_not_le hlt)
    rw [div_eq_of_lt hlt] at hdef
    exact hpos hdef
  rw [Nat.pow_div hfe (by norm_num)] at hdef
  have he : e - f < 32 := by
    by_contra hge
    rw [Nat.mod_eq_zero_of_dvd (pow_dvd_pow 2 (Nat.le_of_not_lt hge))] at hdef
    exact hpos hdef
  rw [Nat.mod_eq_of_lt (Nat.pow_lt_pow_right (by norm_num) he)] at hdef
  rw [hdef, ← Nat.pow_add, Nat.add_sub_cancel' hfe]

theorem capacity_digits (h : p.PowerOfTwo) : p.capacity = p.burstSize *
    (p.lowColumn * (p.banksPerRank * (p.ranksPerChannel * (p.highColumn * p.rowsPerBank)))) := by
  rw [h.capacity_eq, ← h.burstSize_mul, ← h.lowColumn_mul_highColumn]
  ring

/-! ## Banks -/

/-- A bank above 255 is never chosen. -/
theorem banks_le (h : p.PowerOfTwo) (heven : p.DecodesEvenly) : p.banksPerRank ≤ 256 := by
  by_contra hgt
  have hcard := heven.even 0 (pos h.ranksPerChannel) 256 (Nat.lt_of_not_le hgt) 0
    (pos h.rowsPerBank)
  have hne : (p.burstsAt 0 256 0).Nonempty := by
    rw [← Finset.card_pos, hcard]
    exact pos h.burstsPerRowBuffer
  obtain ⟨addr, haddr⟩ := hne
  obtain ⟨-, -, hdecode⟩ := Finset.mem_filter.mp haddr
  obtain ⟨d, hd, hplace⟩ := Option.map_eq_some_iff.mp hdecode
  have hbank : d.bank = 256 := (Prod.mk.inj (Prod.mk.inj hplace).2).1
  rw [decodePacket_eq, makePacket] at hd
  split at hd
  · cases hd
    simp only at hbank
    omega
  · cases hd

variable (h : p.PowerOfTwo) (hbanks : p.banksPerRank ≤ 256)

include h hbanks

/-- With at most 256 banks the digits are what is decoded. -/
theorem decodePacket_digits (addr : ℕ) : ∃ bankId, p.decodePacket addr = some
    ⟨addr / p.burstSize / p.lowColumn / p.banksPerRank % p.ranksPerChannel,
      addr / p.burstSize / p.lowColumn % p.banksPerRank,
      addr / p.burstSize / p.lowColumn / p.banksPerRank / p.ranksPerChannel / p.highColumn %
        p.rowsPerBank, bankId⟩ := by
  have hrank := mod_lt (addr / p.burstSize / p.lowColumn / p.banksPerRank) (pos h.ranksPerChannel)
  have hbank := mod_lt (addr / p.burstSize / p.lowColumn) (pos h.banksPerRank)
  have hrow := mod_lt (addr / p.burstSize / p.lowColumn / p.banksPerRank / p.ranksPerChannel /
    p.highColumn) (pos h.rowsPerBank)
  have hranks := h.ranks_le
  have hrows : p.rowsPerBank < 2 ^ 32 := mod_lt _ (by norm_num)
  rw [decodePacket_eq, mod_eq_of_lt (show _ < 2 ^ 8 by omega),
    mod_eq_of_lt (show _ < 2 ^ 8 by omega), makePacket,
    if_pos ⟨hrank, hbank, hrow, by rw [noRow]; omega⟩]
  exact ⟨_, rfl⟩

theorem burstsAt_card {rank bank row : ℕ} (hrank : rank < p.ranksPerChannel)
    (hbank : bank < p.banksPerRank) (hrow : row < p.rowsPerBank) :
    (p.burstsAt rank bank row).card = p.burstsPerRowBuffer := by
  have hfilter : p.burstsAt rank bank row = (Finset.range p.capacity).filter fun addr =>
      addr % p.burstSize = 0 ∧ (addr / p.burstSize / p.lowColumn % p.banksPerRank = bank ∧
        addr / p.burstSize / p.lowColumn / p.banksPerRank % p.ranksPerChannel = rank ∧
        addr / p.burstSize / p.lowColumn / p.banksPerRank / p.ranksPerChannel / p.highColumn %
          p.rowsPerBank = row) := by
    apply Finset.filter_congr
    intro addr _
    obtain ⟨bankId, hdecode⟩ := h.decodePacket_digits hbanks addr
    rw [hdecode, Option.map_some, Option.some.injEq, Prod.mk.injEq, Prod.mk.injEq]
    tauto
  -- the digits are counted from the lowest one on
  rw [hfilter, ← count_eq_card_filter_range, h.capacity_digits,
    count_mod_div (p := fun k => k / p.lowColumn % p.banksPerRank = bank ∧
      k / p.lowColumn / p.banksPerRank % p.ranksPerChannel = rank ∧
      k / p.lowColumn / p.banksPerRank / p.ranksPerChannel / p.highColumn % p.rowsPerBank = row)
      (pos h.burstSize),
    count_div (p := fun k => k % p.banksPerRank = bank ∧
      k / p.banksPerRank % p.ranksPerChannel = rank ∧
      k / p.banksPerRank / p.ranksPerChannel / p.highColumn % p.rowsPerBank = row),
    count_mod_div (p := fun k => k % p.ranksPerChannel = rank ∧
      k / p.ranksPerChannel / p.highColumn % p.rowsPerBank = row) hbank,
    count_mod_div (p := fun k => k / p.highColumn % p.rowsPerBank = row) hrank,
    count_div (p := fun k => k % p.rowsPerBank = row), count_mod hrow, mul_one,
    h.lowColumn_mul_highColumn]

end PowerOfTwo

/-- **Even decoding**: of a geometry of powers of two, all three mappings spread the bursts
of a channel evenly over the rows just if a bank has a number of 8 bits. -/
theorem decodesEvenly_iff (h : p.PowerOfTwo) : p.DecodesEvenly ↔ p.banksPerRank ≤ 256 := by
  refine ⟨h.banks_le, fun hbanks => ⟨?_, ?_⟩⟩
  · intro addr _ _
    obtain ⟨bankId, hdecode⟩ := h.decodePacket_digits hbanks addr
    exact ⟨_, hdecode, mod_lt _ (PowerOfTwo.pos h.ranksPerChannel),
      mod_lt _ (PowerOfTwo.pos h.banksPerRank), mod_lt _ (PowerOfTwo.pos h.rowsPerBank)⟩
  · intro rank hrank bank hbank row hrow
    exact h.burstsAt_card hbanks hrank hbank hrow

instance (p : Params) : Decidable p.PowerOfTwo :=
  decidable_of_iff (_ ∧ _ ∧ _ ∧ _ ∧ _ ∧ _ ∧ _ ∧ _)
    ⟨fun ⟨h₁, h₂, h₃, h₄, h₅, h₆, h₇, h₈⟩ => ⟨h₁, h₂, h₃, h₄, h₅, h₆, h₇, h₈⟩,
      fun ⟨h₁, h₂, h₃, h₄, h₅, h₆, h₇, h₈⟩ => ⟨h₁, h₂, h₃, h₄, h₅, h₆, h₇, h₈⟩⟩

/-- A channel of 16 GiB with 2 ranks of 16 banks and rows of 8 KiB, interleaved at 256
bytes. -/
def ddr4 : Params := ⟨.RoCoRaBaCh, 64, 8192, some 256, 16, 2, 2 ^ 34⟩

theorem decodesEvenly_ddr4 : ddr4.PowerOfTwo ∧ (ddr4.DecodesEvenly ↔ ddr4.banksPerRank ≤ 256) := by
  have h : ddr4.PowerOfTwo := by decide
  exact ⟨h, ddr4.decodesEvenly_iff h⟩

/-- 512 banks. -/
def manyBanks : Params := ⟨.RoRaBaCoCh, 64, 64, none, 512, 1, 2 ^ 15⟩

/-- The number of the bank does not fit into 8 bits: bank 256 is taken for bank 0. -/
theorem manyBanks_not_even : manyBanks.PowerOfTwo ∧
    manyBanks.decodePacket (256 * 64) = manyBanks.decodePacket 0 ∧ ¬ manyBanks.DecodesEvenly := by
  have h : manyBanks.PowerOfTwo := by decide
  refine ⟨h, by decide, ?_⟩
  intro heven
  have hle : manyBanks.banksPerRank ≤ 256 := h.banks_le heven
  exact absurd hle (by decide)

end Params

end DRAMInterface
