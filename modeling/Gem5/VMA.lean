/-
# Virtual memory areas

`sim/vma.cc`.  A virtual memory area is a range of addresses of a process, either
anonymous or backed by a file that is mapped on the host.  Cutting an area moves the
pointer into the host buffer and shortens the length with it.

`backing` is what an area says about an address: nothing, zeros, or a byte of the host
buffer; it is what a page fault copies in (`fillMemPages_eq`).
-/
import Gem5.AddrRange
import Gem5.Blocks
import Gem5.PartialMaps

open BitVec

/-- The page size of an `EmulationPageTable`: a power of two that its `int64_t` sizes can hold. -/
structure PageSize where
  log : ℕ
  log_lt : log < 63

variable {a : Addr}

namespace PageSize

variable (P : PageSize)

def bytes : Addr := (1 : BitVec 64) <<< P.log

def offsetMask : Addr := mask P.log

def pageAlign (a : Addr) : Addr := a &&& ~~~ P.offsetMask

def pageOffset (a : Addr) : Addr := a &&& P.offsetMask

theorem toNat_bytes : P.bytes.toNat = 2 ^ P.log := by
  have hpow : (2 : ℕ) ^ P.log < 2 ^ 64 := Nat.pow_lt_pow_right (by norm_num) (by have := P.log_lt; omega)
  rw [bytes, toNat_shiftLeft, show (1 : BitVec 64).toNat = 1 from rfl, Nat.one_shiftLeft,
    Nat.mod_eq_of_lt hpow]

theorem bytes_pos : 0 < P.bytes.toNat := by
  rw [toNat_bytes]
  positivity

theorem bytes_dvd : P.bytes.toNat ∣ 2 ^ 64 := by
  have hlog := P.log_lt
  rw [toNat_bytes]
  exact pow_dvd_pow 2 (by omega)

/-- At the start of a page. -/
def Aligned (a : Addr) : Prop := a % P.bytes = 0

instance (a : Addr) : Decidable (P.Aligned a) := inferInstanceAs (Decidable (a % P.bytes = 0))

variable {P}

theorem aligned_iff : P.Aligned a ↔ P.bytes.toNat ∣ a.toNat := by
  rw [Aligned, ← toNat_inj, Nat.dvd_iff_mod_eq_zero]
  rfl

theorem Aligned.add {a b : Addr} (ha : P.Aligned a) (hb : P.Aligned b) : P.Aligned (a + b) := by
  rw [aligned_iff] at ha hb ⊢
  rw [toNat_add, Nat.dvd_mod_iff P.bytes_dvd]
  exact dvd_add ha hb

theorem Aligned.sub {a b : Addr} (ha : P.Aligned a) (hb : P.Aligned b) : P.Aligned (a - b) := by
  rw [aligned_iff] at ha hb ⊢
  rw [toNat_sub, Nat.dvd_mod_iff P.bytes_dvd]
  exact dvd_add (Nat.dvd_sub P.bytes_dvd hb) ha

theorem offsetMask_eq : P.offsetMask = P.bytes - 1 := by
  have hlog := P.log_lt
  rw [offsetMask, mask, if_neg (by omega), bytes]

theorem pageOffset_eq_zero_iff : P.pageOffset a = 0 ↔ P.Aligned a := by
  have hlog := P.log_lt
  rw [aligned_iff, ← toNat_inj, pageOffset, offsetMask, toNat_and_mask (by omega), toNat_bytes,
    Nat.dvd_iff_mod_eq_zero]
  rfl

theorem toNat_pageAlign (a : Addr) :
    (P.pageAlign a).toNat = a.toNat / P.bytes.toNat * P.bytes.toNat := by
  have hlog := P.log_lt
  rw [pageAlign, offsetMask, toNat_and_not_lowMask (toNat_mask (by omega)), toNat_bytes]

theorem aligned_pageAlign (a : Addr) : P.Aligned (P.pageAlign a) := by
  rw [aligned_iff, toNat_pageAlign]
  exact dvd_mul_left _ _

theorem pageAlign_of_aligned (h : P.Aligned a) : P.pageAlign a = a := by
  rw [← toNat_inj, toNat_pageAlign, Nat.div_mul_cancel (aligned_iff.mp h)]

/-- An address is in its page. -/
theorem mem_page (a : Addr) :
    (P.pageAlign a).toNat ≤ a.toNat ∧ a.toNat < (P.pageAlign a).toNat + P.bytes.toNat := by
  rw [toNat_pageAlign]
  exact ⟨Nat.div_mul_le_self _ _, Nat.lt_div_mul_add P.bytes_pos⟩

/-- No two pages overlap. -/
theorem eq_of_mem_page {p q : Addr} (hp : P.Aligned p) (hq : P.Aligned q)
    (hle : p.toNat ≤ q.toNat) (hlt : q.toNat < p.toNat + P.bytes.toNat) : q = p := by
  rw [aligned_iff] at hp hq
  have hdvd : P.bytes.toNat ∣ q.toNat - p.toNat := Nat.dvd_sub hq hp
  have hzero : q.toNat - p.toNat = 0 := Nat.eq_zero_of_dvd_of_lt hdvd (by omega)
  exact eq_of_toNat_eq (by omega)

end PageSize

/-- A file the host has mapped: the place and length of the mapping, and the file offset. -/
structure MappedFileBuffer where
  buffer : Addr
  length : BitVec 64
  offset : BitVec 64
  deriving DecidableEq

/-- An open host file: its size, and where the host maps it. -/
structure HostFile where
  stSize : BitVec 64
  mapped : Addr
  offset : BitVec 64
  deriving DecidableEq

/-- `MappedFileBuffer(fd, length, offset)`; nothing where it panics. -/
def MappedFileBuffer.make (f : HostFile) (length : BitVec 64) : Option MappedFileBuffer :=
  if length = 0 then none
  else if f.stSize < f.offset then none
  else
    let length := if f.stSize - f.offset ≤ length then f.stSize - f.offset else length
    if length = 0 then none else some ⟨f.mapped, length, f.offset⟩

/-- A file with bytes at the offset can be mapped. -/
theorem MappedFileBuffer.exists_make {f : HostFile} {length : BitVec 64} (hlength : length ≠ 0)
    (hoffset : f.offset < f.stSize) : ∃ buf, MappedFileBuffer.make f length = some buf := by
  unfold MappedFileBuffer.make
  rw [if_neg hlength, if_neg (by bv_omega)]
  by_cases hle : f.stSize - f.offset ≤ length
  · simp only [if_pos hle]
    rw [if_neg (by bv_omega)]
    exact ⟨_, rfl⟩
  · simp only [if_neg hle, if_neg hlength]
    exact ⟨_, rfl⟩

/-- What `sanityCheck` asserts. -/
structure Sane (P : PageSize) (start endAddr : Addr) : Prop where
  lt : start < endAddr
  start_aligned : P.Aligned start
  end_aligned : P.Aligned endAddr

instance (P : PageSize) (start endAddr : Addr) : Decidable (Sane P start endAddr) :=
  decidable_of_iff (start < endAddr ∧ P.Aligned start ∧ P.Aligned endAddr)
    ⟨fun h => ⟨h.1, h.2.1, h.2.2⟩, fun h => ⟨h.lt, h.start_aligned, h.end_aligned⟩⟩

structure VMA (P : PageSize) where
  start : Addr
  endAddr : Addr
  origHostBuf : Option MappedFileBuffer
  hostBuf : Addr
  hostBufLen : BitVec 64
  vmaName : String
  sane : Sane P start endAddr

/-- What is behind a mapped address: zeros, or a byte of a host buffer. -/
inductive Backing
  | anonymous
  | file (buf : MappedFileBuffer) (offset : Addr)
  deriving DecidableEq

namespace VMA

variable {P : PageSize}

/-- The area with new bounds and host buffer, after `sanityCheck`. -/
def checked (P : PageSize) (start endAddr : Addr) (origHostBuf : Option MappedFileBuffer)
    (hostBuf : Addr) (hostBufLen : BitVec 64) (vmaName : String) : Option (VMA P) :=
  if h : Sane P start endAddr then some ⟨start, endAddr, origHostBuf, hostBuf, hostBufLen, vmaName, h⟩
  else none

/-- `VMA(r, page_bytes, vma_name, fd, off)`; without a file the pointer and the length of
the host buffer are not set, and not read. -/
def make (start endAddr : Addr) (vmaName : String) : Option HostFile → Option (VMA P)
  | none => checked P start endAddr none 0 0 vmaName
  | some f => do
    let buf ← MappedFileBuffer.make f (AddrRange.ofBounds start endAddr).size
    checked P start endAddr (some buf) buf.buffer buf.length vmaName

variable (vma : VMA P)

def addrRange : AddrRange := AddrRange.ofBounds vma.start vma.endAddr

def hasHostBuf : Bool := vma.origHostBuf.isSome

def contains (a : Addr) : Bool := vma.addrRange.contains a

def intersects (r : AddrRange) : Option Bool := vma.addrRange.intersects r

def isSubset (r : AddrRange) : Option Bool := vma.addrRange.isSubset r

def isStrictSuperset (r : AddrRange) : Bool := vma.start < r.start && r.endAddr < vma.endAddr

def remap (newStart : Addr) : Option (VMA P) :=
  checked P newStart (newStart + vma.addrRange.size) vma.origHostBuf vma.hostBuf vma.hostBufLen
    vma.vmaName

/-- Remove the addresses to the right of `sliceAddr`. -/
def sliceRegionRight (sliceAddr : Addr) : Option (VMA P) :=
  let nonoverlapLen := sliceAddr - vma.start
  let hostBufLen :=
    if vma.hasHostBuf && decide (nonoverlapLen < vma.hostBufLen) then nonoverlapLen
    else vma.hostBufLen
  checked P vma.start sliceAddr vma.origHostBuf vma.hostBuf hostBufLen vma.vmaName

/-- Remove the addresses to the left of `sliceAddr`. -/
def sliceRegionLeft (sliceAddr : Addr) : Option (VMA P) :=
  let overlapLen := sliceAddr - vma.start
  if vma.hasHostBuf then
    if vma.hostBufLen ≤ overlapLen then
      checked P sliceAddr vma.endAddr none (0 + overlapLen) 0 vma.vmaName
    else checked P sliceAddr vma.endAddr vma.origHostBuf (vma.hostBuf + overlapLen)
      (vma.hostBufLen - overlapLen) vma.vmaName
  else checked P sliceAddr vma.endAddr vma.origHostBuf vma.hostBuf vma.hostBufLen vma.vmaName

/-- The blob `fillMemPages` writes at `start`: its place in the host buffer and its size. -/
def fillMemPages (start : Addr) : Option (Addr × BitVec 64) :=
  let offset := start - vma.start
  if offset < vma.hostBufLen then
    let rest := vma.hostBufLen - offset
    some (vma.hostBuf + offset, if rest ≤ P.bytes then rest else P.bytes)
  else none

/-! ## What is behind an address -/

/-- The backing at a distance from the start of the area. -/
def backingAt (distance : BitVec 64) : Backing :=
  match vma.origHostBuf with
  | none => .anonymous
  | some buf =>
    if distance < vma.hostBufLen then .file buf (vma.hostBuf + distance - buf.buffer)
    else .anonymous

/-- The area as a partial map from addresses to their backing. -/
def backing (a : Addr) : Option Backing :=
  if vma.contains a then some (vma.backingAt (a - vma.start)) else none

variable {vma}

theorem contains_iff : vma.contains a = true ↔ vma.start ≤ a ∧ a < vma.endAddr := by
  unfold contains addrRange AddrRange.contains AddrRange.ofBounds
  by_cases h : vma.start ≤ a ∧ a < vma.endAddr
  · simp [AddrRange.selLoop]
  · simp [h]

theorem backing_of_mem (h : vma.start ≤ a ∧ a < vma.endAddr) :
    vma.backing a = some (vma.backingAt (a - vma.start)) := if_pos (contains_iff.mpr h)

theorem backing_eq_none_iff : vma.backing a = none ↔ ¬ (vma.start ≤ a ∧ a < vma.endAddr) := by
  rw [backing, ← contains_iff]
  split <;> simp_all

/-- Two areas with the same bounds after a cut say the same where their distances agree. -/
theorem backing_eq_ite {vma' : VMA P} {p : Prop} [Decidable p]
    (hmem : (vma'.start ≤ a ∧ a < vma'.endAddr) ↔ p ∧ vma.start ≤ a ∧ a < vma.endAddr)
    (hat : p → vma.start ≤ a → a < vma.endAddr →
      vma'.backingAt (a - vma'.start) = vma.backingAt (a - vma.start)) :
    vma'.backing a = if p then vma.backing a else none := by
  by_cases hp : p
  · rw [if_pos hp]
    by_cases ha : vma.start ≤ a ∧ a < vma.endAddr
    · rw [backing_of_mem ha, backing_of_mem (hmem.mpr ⟨hp, ha⟩), hat hp ha.1 ha.2]
    · rw [backing_eq_none_iff.mpr ha, backing_eq_none_iff]
      exact fun h => ha (hmem.mp h).2
  · rw [if_neg hp, backing_eq_none_iff]
    exact fun h => hp (hmem.mp h).1

/-- A cut to the right keeps the map below the cut. -/
theorem sliceRegionRight_backing {c : Addr} (haligned : P.Aligned c) (hlt : vma.start < c)
    (hle : c ≤ vma.endAddr) :
    ∃ vma', vma.sliceRegionRight c = some vma' ∧ vma'.start = vma.start ∧ vma'.endAddr = c ∧
      ∀ a, vma'.backing a = if a < c then vma.backing a else none := by
  have hsane : Sane P vma.start c := ⟨hlt, vma.sane.start_aligned, haligned⟩
  unfold sliceRegionRight checked
  rw [dif_pos hsane]
  refine ⟨_, rfl, rfl, rfl, ?_⟩
  intro a
  refine backing_eq_ite ?_ ?_
  · bv_omega
  · intro ha hstart _
    unfold backingAt hasHostBuf
    cases vma.origHostBuf with
    | none => rfl
    | some buf =>
      -- the distance is below the cut, so the shortened length decides as the old one
      have hdistance : a - vma.start < c - vma.start := by bv_omega
      simp only [Option.isSome_some, Bool.true_and, decide_eq_true_eq]
      by_cases hcut : c - vma.start < vma.hostBufLen
      · have hbelow : a - vma.start < vma.hostBufLen := BitVec.lt_trans hdistance hcut
        simp only [if_pos hcut, if_pos hdistance, if_pos hbelow]
      · rw [if_neg hcut]

/-- A cut to the left keeps the map from the cut on. -/
theorem sliceRegionLeft_backing {c : Addr} (haligned : P.Aligned c) (hle : vma.start ≤ c)
    (hlt : c < vma.endAddr) :
    ∃ vma', vma.sliceRegionLeft c = some vma' ∧ vma'.start = c ∧ vma'.endAddr = vma.endAddr ∧
      ∀ a, vma'.backing a = if c ≤ a then vma.backing a else none := by
  have hsane : Sane P c vma.endAddr := ⟨hlt, haligned, vma.sane.end_aligned⟩
  have hmem : ∀ a, (c ≤ a ∧ a < vma.endAddr) ↔ c ≤ a ∧ vma.start ≤ a ∧ a < vma.endAddr := by
    bv_omega
  unfold sliceRegionLeft checked hasHostBuf
  simp only [dif_pos hsane]
  cases horig : vma.origHostBuf with
  | none =>
    refine ⟨_, rfl, rfl, rfl, ?_⟩
    intro a
    apply backing_eq_ite (hmem a)
    intro _ _ _
    simp only [backingAt, horig]
  | some buf =>
    by_cases hcut : vma.hostBufLen ≤ c - vma.start
    · -- nothing of the file is left
      rw [if_pos hcut]
      refine ⟨_, rfl, rfl, rfl, ?_⟩
      intro a
      apply backing_eq_ite (hmem a)
      intro ha hstart _
      have hbeyond : ¬ a - vma.start < vma.hostBufLen := by bv_omega
      simp only [backingAt, horig, if_neg hbeyond]
    · rw [if_neg hcut]
      refine ⟨_, rfl, rfl, rfl, ?_⟩
      intro a
      apply backing_eq_ite (hmem a)
      intro ha hstart _
      -- pointer and length move by the same distance as the start
      have hlen : a - c < vma.hostBufLen - (c - vma.start) ↔ a - vma.start < vma.hostBufLen := by
        bv_omega
      have hptr : vma.hostBuf + (c - vma.start) + (a - c) = vma.hostBuf + (a - vma.start) := by
        ring
      simp only [backingAt, horig, hlen, hptr]

theorem size_addrRange : vma.addrRange.size = vma.endAddr - vma.start := by
  simp [AddrRange.size, addrRange, AddrRange.ofBounds]

/-- Remapping shifts the map. -/
theorem remap_backing {new : Addr} (haligned : P.Aligned new)
    (hfits : new.toNat + (vma.endAddr.toNat - vma.start.toNat) < 2 ^ 64) :
    ∃ vma', vma.remap new = some vma' ∧ vma'.start = new ∧
      vma'.endAddr = new + (vma.endAddr - vma.start) ∧
      ∀ a, vma'.backing a = if new ≤ a then vma.backing (a - new + vma.start) else none := by
  have hlt := vma.sane.lt
  have hsane : Sane P new (new + (vma.endAddr - vma.start)) :=
    ⟨by bv_omega, haligned, haligned.add (vma.sane.end_aligned.sub vma.sane.start_aligned)⟩
  unfold remap checked
  rw [size_addrRange, dif_pos hsane]
  refine ⟨_, rfl, rfl, rfl, ?_⟩
  intro a
  by_cases ha : new ≤ a
  · rw [if_pos ha]
    by_cases hin : a < new + (vma.endAddr - vma.start)
    · rw [backing_of_mem ⟨ha, hin⟩, backing_of_mem (by bv_omega)]
      unfold backingAt
      rw [show a - new + vma.start - vma.start = a - new by ring]
    · rw [backing_eq_none_iff.mpr (by exact fun h => hin h.2), eq_comm, backing_eq_none_iff]
      -- the shift may leave the address space, but it does not come back into the area
      bv_omega
  · rw [if_neg ha, backing_eq_none_iff]
    exact fun h => ha h.1

/-- **A page fault copies in what is behind the page**, and leaves zeros elsewhere. -/
theorem fillMemPages_eq {buf : MappedFileBuffer} (horig : vma.origHostBuf = some buf)
    {page a : Addr} (hpage : vma.start ≤ page) (ha : page ≤ a)
    (hin : a.toNat < page.toNat + P.bytes.toNat) :
    vma.backingAt (a - vma.start) =
      match vma.fillMemPages page with
      | none => .anonymous
      | some (src, size) =>
        if a - page < size then .file buf (src + (a - page) - buf.buffer) else .anonymous := by
  unfold fillMemPages
  simp only [backingAt, horig]
  by_cases hoffset : page - vma.start < vma.hostBufLen
  · have hlen : (a - page < if vma.hostBufLen - (page - vma.start) ≤ P.bytes then
        vma.hostBufLen - (page - vma.start) else P.bytes) ↔ a - vma.start < vma.hostBufLen := by
      split <;> bv_omega
    have hptr : vma.hostBuf + (page - vma.start) + (a - page) = vma.hostBuf + (a - vma.start) := by
      ring
    simp only [if_pos hoffset, hlen, hptr]
  · have hbeyond : ¬ a - vma.start < vma.hostBufLen := by bv_omega
    simp only [if_neg hoffset, if_neg hbeyond]

end VMA
