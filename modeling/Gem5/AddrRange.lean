/-
# Address ranges

Model of `AddrRange` (base/addr_range.hh): the range `[start, end)`, possibly
interleaved, in which case each mask selects the address bits whose exclusive
or is one bit of the interleaving value.
A test returns `none` where the source panics, and where `granularity` shifts
by 64 (the combined mask is an `int`, so masks above bit 31 are lost in it).
-/
import Gem5.Bitfield
import Gem5.Intervals

/-- A range a constructor accepts. -/
structure AddrRange where
  start : Addr
  /-- Not part of the range. -/
  endAddr : Addr
  masks : List Addr
  intlvMatch : BitVec 8
  /-- `fatal_if`: the match value must fit in the interleaving bits. -/
  fits : masks ≠ [] → intlvMatch.toNat < 2 ^ masks.length
  deriving DecidableEq

namespace AddrRange

/-- `AddrRange(start, end)`. -/
def ofBounds (start endAddr : Addr) : AddrRange :=
  { start := start
    endAddr := endAddr
    masks := []
    intlvMatch := 0
    fits := fun h => absurd rfl h }

variable (r r' : AddrRange)

def interleaved : Bool := 0 < r.masks.length

def size : Addr := (r.endAddr - r.start) >>> r.masks.length

/-- The masks or-ed into an `int`. -/
def combinedMask (masks : List Addr) : BitVec 32 :=
  masks.foldl (fun combined mask => (combined.signExtend 64 ||| mask).setWidth 32) 0

def granularity : Option Addr :=
  if r.interleaved then
    let lowestBit := ctz64 ((combinedMask r.masks).signExtend 64)
    if lowestBit < 64 then some ((1 : BitVec 64) <<< lowestBit) else none
  else some r.size

def mergesWith : Bool :=
  r'.start == r.start && r'.endAddr == r.endAddr && r'.masks == r.masks

/-- The interleaving value of an address.  In the source it is an `int`: from 32 masks on
the shift is undefined there. -/
def selLoop (a : Addr) : List Addr → ℕ → ℕ → ℕ
  | [], _, sel => sel
  | mask :: masks, i, sel => selLoop a masks (i + 1) (sel ||| ((popCount (a &&& mask) % 2) <<< i))

/-- `contains(a)`. -/
def contains (a : Addr) : Bool :=
  if r.start ≤ a ∧ a < r.endAddr then selLoop a r.masks 0 0 == r.intlvMatch.toNat else false

def intersects : Option Bool :=
  if r'.endAddr ≤ r.start ∨ r.endAddr ≤ r'.start then some false
  else if !r.interleaved && !r'.interleaved then some true
  else if r'.size = 1 then some (r.contains r'.start)
  else if r.mergesWith r' then some (r.intlvMatch == r'.intlvMatch)
  else none

def isSubset : Option Bool :=
  if r.interleaved then none
  else if r'.interleaved then
    if r'.contains r.start && r'.contains (r.endAddr - 1) then do
      let granularity ← r'.granularity
      some (decide (r.size ≤ granularity))
    else some false
  else if r.endAddr ≤ r.start then
    -- this range wraps around
    some (decide (r'.start ≤ r.start) && r'.endAddr == 0)
  else if r'.endAddr ≤ r'.start then
    -- the other range wraps around
    some (decide (r'.start ≤ r.start))
  else some (decide (r'.start ≤ r.start ∧ r.endAddr ≤ r'.endAddr))

/-- `operator<`. -/
def lt : Bool :=
  if r.start ≠ r'.start then decide (r.start < r'.start)
  else if r.interleaved && r'.interleaved then decide (r.intlvMatch < r'.intlvMatch)
  else r.interleaved

/-! ## Plain ranges -/

/-- Not interleaved, not empty and without wrap-around. -/
structure Plain (r : AddrRange) : Prop where
  masks_eq : r.masks = []
  lt : r.start < r.endAddr

instance (r : AddrRange) : Decidable r.Plain :=
  decidable_of_iff (r.masks = [] ∧ r.start < r.endAddr)
    ⟨fun h => ⟨h.1, h.2⟩, fun h => ⟨h.masks_eq, h.lt⟩⟩

def lo (r : AddrRange) : ℕ := r.start.toNat

def hi (r : AddrRange) : ℕ := r.endAddr.toNat

/-- The addresses of a plain range. -/
def addrs (r : AddrRange) : Set ℕ := Intervals.points lo hi r

/-- The two ranges have an address in common. -/
def Overlaps (r r' : AddrRange) : Prop := (r.addrs ∩ r'.addrs).Nonempty

variable {r r'}

theorem interleaved_eq (h : r.masks = []) : r.interleaved = false := by
  rw [interleaved, h]
  rfl

theorem intersects_eq (h : r.masks = []) (h' : r'.masks = []) :
    r.intersects r' = some (decide (lo r < hi r' ∧ lo r' < hi r)) := by
  rw [intersects, interleaved_eq h, interleaved_eq h']
  by_cases hmiss : r'.endAddr ≤ r.start ∨ r.endAddr ≤ r'.start
  · rw [if_pos hmiss, decide_eq_false]
    simp only [BitVec.le_def] at hmiss
    simp only [lo, hi]
    omega
  · rw [if_neg hmiss, decide_eq_true]
    · rfl
    · simpa [lo, hi, BitVec.le_def] using hmiss

/-- Ranges that are not interleaved are ordered by their start. -/
theorem lt_iff (h : r.masks = []) : r.lt r' = true ↔ lo r < lo r' := by
  unfold AddrRange.lt
  by_cases heq : r.start = r'.start
  · rw [interleaved_eq h]
    simp [lo, heq]
  · rw [if_pos heq, decide_eq_true_eq]
    exact .rfl

namespace Plain

variable (h : r.Plain)

include h

theorem lo_lt_hi : lo r < hi r := h.lt

theorem overlaps_iff (h' : r'.Plain) : r.Overlaps r' ↔ lo r < hi r' ∧ lo r' < hi r :=
  Intervals.inter_nonempty_iff h.lo_lt_hi h'.lo_lt_hi

theorem subset_iff : r.addrs ⊆ r'.addrs ↔ lo r' ≤ lo r ∧ hi r ≤ hi r' :=
  Intervals.subset_iff h.lo_lt_hi

/-- **`intersects` is overlap.** -/
theorem intersects_eq (h' : r'.Plain) :
    ∃ b, r.intersects r' = some b ∧ (b = true ↔ r.Overlaps r') := by
  refine ⟨_, AddrRange.intersects_eq h.masks_eq h'.masks_eq, ?_⟩
  rw [h.overlaps_iff h', decide_eq_true_eq]

/-- **`isSubset` is inclusion.** -/
theorem isSubset_eq (h' : r'.Plain) :
    ∃ b, r.isSubset r' = some b ∧ (b = true ↔ r.addrs ⊆ r'.addrs) := by
  have hlt : ¬ r.endAddr ≤ r.start := BitVec.not_le.mpr h.lt
  have hlt' : ¬ r'.endAddr ≤ r'.start := BitVec.not_le.mpr h'.lt
  refine ⟨decide (r'.start ≤ r.start ∧ r.endAddr ≤ r'.endAddr), ?_, ?_⟩
  · rw [isSubset, interleaved_eq h.masks_eq, interleaved_eq h'.masks_eq, if_neg hlt, if_neg hlt']
    rfl
  · rw [decide_eq_true_eq, h.subset_iff]
    exact .rfl

theorem lt_iff : r.lt r' = true ↔ lo r < lo r' := AddrRange.lt_iff h.masks_eq

end Plain

end AddrRange
