/-
# The memory map of a process

`sim/mem_state.cc`: the list of virtual memory areas of a process, the program break,
and the page table of the process (mem/page_table.cc).  Unmapping and remapping walk the
list and cut the areas that meet the region; the clones they append are walked as well.

A call returns nothing where the source asserts or panics, and where a loop over 64-bit
addresses has not ended after `2 ^ 64` rounds, so that it never ends.

The areas are a partial map from addresses to their backing, and both walks pull it back.
-/
import Gem5.VMA

open PartialMaps List Option BitVec

/-- A page table entry. -/
structure PTEntry where
  paddr : Addr
  flags : BitVec 64
  deriving DecidableEq

/-- How the two walks tell the areas apart. -/
inductive Overlap
  | within
  | covered
  | fromRight
  | fromLeft
  | apart

/-- The tests of the walks, in their order. -/
def VMA.overlap {P : PageSize} (vma : VMA P) (range : AddrRange) : Option Overlap := do
  if vma.isStrictSuperset range then return .within
  if ← vma.isSubset range then return .covered
  if ← vma.intersects range then
    if vma.start < range.start then return .fromRight else return .fromLeft
  return .apart

/-- `roundUp(val, align)` of base/intmath.hh. -/
def roundUp (val align : Addr) : Addr :=
  let mask := align - 1
  (val + mask) &&& ~~~ mask

/-- The page table of a process, by the address of the page. -/
abbrev PTable := Addr → Option PTEntry

structure MemState (P : PageSize) where
  brkPoint : Addr
  vmaList : List (VMA P)
  pTable : PTable

namespace MemState

open VMA

variable {P : PageSize} {rest : List (VMA P)}

/-! ## The page table -/

/-- A 64-bit loop that runs for more rounds never ends. -/
def rounds : ℕ := 2 ^ 64

section

variable (P : PageSize)

section

variable (t : PTable)

/-- `EmulationPageTable::lookup`. -/
def lookupPage (vaddr : Addr) : Option PTEntry := t (P.pageAlign vaddr)

/-- `EmulationPageTable::isUnmapped` for one page. -/
def isUnmappedPage (vaddr : Addr) : Option Bool :=
  if P.pageOffset vaddr = 0 then some (t vaddr).isNone else none

/-- `EmulationPageTable::unmap` for one page. -/
def unmapPage (vaddr : Addr) : Option PTable :=
  if P.pageOffset vaddr = 0 ∧ (t vaddr).isSome then some (Function.update t vaddr none) else none

/-- `EmulationPageTable::remap` for one page. -/
def remapPage (vaddr newVaddr : Addr) : Option PTable :=
  if P.pageOffset vaddr = 0 ∧ P.pageOffset newVaddr = 0 ∧ (t vaddr).isSome ∧ (t newVaddr).isNone then
    some (Function.update (Function.update t newVaddr (t vaddr)) vaddr none)
  else none

/-- The page loop of `isUnmapped`, which panics at a page. -/
def checkNoPages (P : PageSize) (t : PTable) : ℕ → Addr → Addr → Option Unit
  | 0, _, _ => none
  | fuel + 1, start, endAddr =>
    if start < endAddr then
      if (lookupPage P t start).isSome then none
      else checkNoPages P t fuel (start + P.bytes) endAddr
    else some ()

/-- A round of the page loop of `unmapRegion`. -/
def dropPage (start : Addr) : Option PTable :=
  (isUnmappedPage P t start).bind fun unmapped => if unmapped then some t else unmapPage P t start

/-- The page loop of `unmapRegion`. -/
def unmapPages (P : PageSize) : ℕ → Addr → BitVec 64 → PTable → Option PTable
  | 0, _, _, _ => none
  | fuel + 1, start, length, t => (dropPage P t start).bind fun t =>
    if 0 < length - P.bytes then unmapPages P fuel (start + P.bytes) (length - P.bytes) t
    else some t

/-- A round of the page loop of `remapRegion`. -/
def movePage (start newStart : Addr) : Option PTable :=
  (isUnmappedPage P t start).bind fun unmapped =>
    if unmapped then some t else remapPage P t start newStart

end

end

/-- The page loop of `remapRegion`. -/
def remapPages (P : PageSize) : ℕ → Addr → Addr → BitVec 64 → PTable → Option PTable
  | 0, _, _, _, _ => none
  | fuel + 1, start, newStart, length, t => (movePage P t start newStart).bind fun t =>
    if 0 < length - P.bytes then
      remapPages P fuel (start + P.bytes) (newStart + P.bytes) (length - P.bytes) t
    else some t

/-! ## The walks over the areas -/

/-- The walk of `unmapRegion`. -/
def unmapLoop (range : AddrRange) : List (VMA P) → Option (List (VMA P))
  | [] => some []
  | vma :: rest => do
    match ← vma.overlap range with
    | .within =>
      let back ← vma.sliceRegionRight range.start
      let vma ← vma.sliceRegionLeft range.endAddr
      return vma :: (rest ++ [back])
    | .covered => unmapLoop range rest
    | .fromRight =>
      let vma ← vma.sliceRegionRight range.start
      return vma :: (← unmapLoop range rest)
    | .fromLeft =>
      let vma ← vma.sliceRegionLeft range.endAddr
      return vma :: (← unmapLoop range rest)
    | .apart => return vma :: (← unmapLoop range rest)

/-- The walk of `remapRegion`, which comes to the clones it appends. -/
def remapLoop (range : AddrRange) (new : Addr) : ℕ → List (VMA P) → Option (List (VMA P))
  | _, [] => some []
  | 0, _ :: _ => none
  | fuel + 1, vma :: rest => do
    match ← vma.overlap range with
    | .within =>
      let right ← vma.sliceRegionRight range.start
      let left ← vma.sliceRegionLeft range.endAddr
      let vma ← vma.sliceRegionLeft range.start
      let vma ← vma.sliceRegionRight range.endAddr
      let vma ← vma.remap new
      return vma :: (rest ++ [right, left])
    | .covered =>
      let vma ← vma.remap (vma.start - range.start + new)
      return vma :: (← remapLoop range new fuel rest)
    | .fromRight =>
      let clone ← vma.sliceRegionRight range.start
      let vma ← vma.sliceRegionLeft range.start
      let vma ← vma.remap new
      return vma :: (← remapLoop range new fuel (rest ++ [clone]))
    | .fromLeft =>
      let clone ← vma.sliceRegionLeft range.endAddr
      let vma ← vma.sliceRegionRight range.endAddr
      let vma ← vma.remap (new + vma.start - range.start)
      return vma :: (← remapLoop range new fuel (rest ++ [clone]))
    | .apart => return vma :: (← remapLoop range new fuel rest)

/-! ## The calls -/

variable (s : MemState P)

/-- Does an area meet the range? -/
def anyIntersects (range : AddrRange) : List (VMA P) → Option Bool
  | [] => some false
  | vma :: rest => do
    if ← vma.intersects range then return true
    anyIntersects range rest

def isUnmapped (startAddr : Addr) (length : BitVec 64) : Option Bool := do
  let endAddr := startAddr + length
  if ← anyIntersects (AddrRange.ofBounds startAddr endAddr) s.vmaList then return false
  checkNoPages P s.pTable rounds startAddr endAddr
  return true

def mapRegion (startAddr : Addr) (length : BitVec 64) (regionName : String)
    (file : Option HostFile) : Option (MemState P) := do
  if ← s.isUnmapped startAddr length then
    let vma ← VMA.make startAddr (startAddr + length) regionName file
    return { s with vmaList := s.vmaList ++ [vma] }
  else none

def unmapRegion (startAddr : Addr) (length : BitVec 64) : Option (MemState P) := do
  let vmaList ← unmapLoop (AddrRange.ofBounds startAddr (startAddr + length)) s.vmaList
  let pTable ← unmapPages P rounds startAddr length s.pTable
  return { s with vmaList, pTable }

/-- Every area meets the region at most once, so each leaves at most one clone to walk. -/
def remapRegion (startAddr newStartAddr : Addr) (length : BitVec 64) : Option (MemState P) := do
  let vmaList ← remapLoop (AddrRange.ofBounds startAddr (startAddr + length)) newStartAddr
    (2 * s.vmaList.length) s.vmaList
  let pTable ← remapPages P rounds startAddr newStartAddr length s.pTable
  return { s with vmaList, pTable }

def updateBrkRegion (oldBrk newBrk : Addr) : Option (MemState P) := do
  let pageAlignedNewBrk := roundUp newBrk P.bytes
  let pageAlignedOldBrk := roundUp oldBrk P.bytes
  if newBrk < oldBrk then
    let length := pageAlignedOldBrk - pageAlignedNewBrk
    if 0 < length then
      let s ← s.unmapRegion pageAlignedNewBrk length
      return { s with brkPoint := newBrk }
    else return { s with brkPoint := newBrk }
  else if pageAlignedOldBrk < pageAlignedNewBrk then
    let length := pageAlignedNewBrk - pageAlignedOldBrk
    if ← s.isUnmapped pageAlignedOldBrk length then
      let s ← s.mapRegion pageAlignedOldBrk length "heap" none
      return { s with brkPoint := newBrk }
    else return s
  else return { s with brkPoint := newBrk }

/-- `Process::allocateMem` for the page of a fault, with the physical page it gets. -/
def allocateMem (vaddr paddr : Addr) : MemState P :=
  let pageAddr := P.pageAlign vaddr
  if (lookupPage P s.pTable pageAddr).isSome then s
  else { s with pTable := Function.update s.pTable pageAddr (some ⟨paddr, 0⟩) }

/-- The partial map from addresses to their backing. -/
def backing : Addr → Option Backing := lookup VMA.backing s.vmaList

/-! ## Regions -/

/-- A page-aligned region that is not empty and does not wrap around. -/
structure IsRegion (P : PageSize) (start : Addr) (length : BitVec 64) : Prop where
  pos : 0 < length.toNat
  start_aligned : P.Aligned start
  length_aligned : P.Aligned length
  fits : start.toNat + length.toNat < 2 ^ 64

instance (start : Addr) (length : BitVec 64) : Decidable (IsRegion P start length) :=
  decidable_of_iff (0 < length.toNat ∧ P.Aligned start ∧ P.Aligned length ∧
      start.toNat + length.toNat < 2 ^ 64)
    ⟨fun h => ⟨h.1, h.2.1, h.2.2.1, h.2.2.2⟩,
      fun h => ⟨h.pos, h.start_aligned, h.length_aligned, h.fits⟩⟩

def InRegion (start : Addr) (length : BitVec 64) (a : Addr) : Prop :=
  start.toNat ≤ a.toNat ∧ a.toNat < start.toNat + length.toNat

instance (start : Addr) (length : BitVec 64) (a : Addr) : Decidable (InRegion start length a) :=
  inferInstanceAs (Decidable (_ ∧ _))

/-- Where the backing of an address comes from when a region is unmapped. -/
def unmapSource (start : Addr) (length : BitVec 64) (a : Addr) : Option Addr :=
  if InRegion start length a then none else some a

/-- Where the backing of an address comes from when a region is moved. -/
def remapSource (old new : Addr) (length : BitVec 64) (a : Addr) : Option Addr :=
  if InRegion new length a then some (a - new + old)
  else if InRegion old length a then none else some a

variable {old new start endAddr : Addr} {length : BitVec 64} {vma : VMA P} {a : Addr}

section

variable (h : IsRegion P start length)

include h

theorem IsRegion.toNat_end : (start + length).toNat = start.toNat + length.toNat := by
  rw [toNat_add, Nat.mod_eq_of_lt h.fits]

theorem IsRegion.end_aligned : P.Aligned (start + length) :=
  h.start_aligned.add h.length_aligned

theorem IsRegion.lt : start < start + length := by
  have := h.pos
  rw [lt_def, h.toNat_end]
  omega

theorem IsRegion.mem_iff : InRegion start length a ↔ start ≤ a ∧ a < start + length := by
  rw [InRegion, le_def, lt_def, h.toNat_end]

end

section

variable (vma : VMA P)

/-- How the area lies to the region. -/
def Lies (start endAddr : Addr) : Overlap → Prop
  | .within => vma.start < start ∧ endAddr < vma.endAddr
  | .covered => start ≤ vma.start ∧ vma.endAddr ≤ endAddr
  | .fromRight => vma.start < start ∧ start < vma.endAddr ∧ vma.endAddr ≤ endAddr
  | .fromLeft => start ≤ vma.start ∧ vma.start < endAddr ∧ endAddr < vma.endAddr
  | .apart => vma.endAddr ≤ start ∨ endAddr ≤ vma.start

theorem start_ofBounds : (AddrRange.ofBounds start endAddr).start = start := rfl

theorem endAddr_ofBounds : (AddrRange.ofBounds start endAddr).endAddr = endAddr := rfl

theorem plain_ofBounds (hlt : start < endAddr) :
    (AddrRange.ofBounds start endAddr).Plain := ⟨rfl, hlt⟩

theorem intersects_eq (hlt : start < endAddr) : vma.intersects (AddrRange.ofBounds start endAddr) =
      some (decide (vma.start < endAddr ∧ start < vma.endAddr)) := by
  have hvma := plain_ofBounds vma.sane.lt
  obtain ⟨b, hb, hiff⟩ := hvma.intersects_eq (plain_ofBounds hlt)
  rw [hvma.overlaps_iff (plain_ofBounds hlt)] at hiff
  rw [intersects, addrRange, hb, some.injEq, Bool.eq_iff_iff, hiff, decide_eq_true_eq]
  exact .rfl

theorem isSubset_eq (hlt : start < endAddr) : vma.isSubset (AddrRange.ofBounds start endAddr) =
      some (decide (start ≤ vma.start ∧ vma.endAddr ≤ endAddr)) := by
  have hvma := plain_ofBounds vma.sane.lt
  obtain ⟨b, hb, hiff⟩ := hvma.isSubset_eq (plain_ofBounds hlt)
  rw [hvma.subset_iff] at hiff
  rw [isSubset, addrRange, hb, some.injEq, Bool.eq_iff_iff, hiff, decide_eq_true_eq]
  exact .rfl

theorem isStrictSuperset_iff : vma.isStrictSuperset (AddrRange.ofBounds start endAddr) = true ↔
      vma.start < start ∧ endAddr < vma.endAddr := by
  rw [isStrictSuperset, Bool.and_eq_true, decide_eq_true_eq, decide_eq_true_eq]
  exact .rfl

/-- The tests do not panic, and say how the area lies to the region. -/
theorem overlap_spec (hlt : start < endAddr) :
    ∃ o, vma.overlap (AddrRange.ofBounds start endAddr) = some o ∧ Lies vma start endAddr o := by
  unfold overlap
  rw [isSubset_eq vma hlt, intersects_eq vma hlt]
  simp only [isStrictSuperset_iff, Option.bind_eq_bind, Option.bind_some, decide_eq_true_eq]
  by_cases hwithin : vma.start < start ∧ endAddr < vma.endAddr
  · exact ⟨.within, if_pos hwithin, hwithin⟩
  rw [if_neg hwithin]
  by_cases hcovered : start ≤ vma.start ∧ vma.endAddr ≤ endAddr
  · exact ⟨.covered, if_pos hcovered, hcovered⟩
  rw [if_neg hcovered]
  by_cases hmeet : vma.start < endAddr ∧ start < vma.endAddr
  · rw [if_pos hmeet]
    by_cases hright : vma.start < start
    · exact ⟨.fromRight, if_pos hright, hright, hmeet.2, by bv_omega⟩
    · exact ⟨.fromLeft, if_neg hright, by bv_omega, hmeet.1, by bv_omega⟩
  · exact ⟨.apart, if_neg hmeet, by unfold Lies; bv_omega⟩

end

/-! ## The walks -/

/-- An area that misses the region says nothing about it. -/
theorem backing_of_apart (hr : IsRegion P start length) (h : Lies vma start (start + length) .apart)
    (ha : InRegion start length a) : vma.backing a = none := by
  unfold Lies at h
  rw [hr.mem_iff] at ha
  rw [backing_eq_none_iff]
  bv_omega

/-- The areas after the region is unmapped. -/
abbrev Unmaps (start : Addr) (length : BitVec 64) (l l' : List (VMA P)) : Prop :=
  Pulls VMA.backing (unmapSource start length) l l'

theorem bind_unmapSource (f : Addr → Option Backing) (a : Addr) :
    (unmapSource start length a).bind f = if InRegion start length a then none else f a := by
  unfold unmapSource
  split <;> rfl

section Pieces

variable {left right : VMA P} (hr : IsRegion P start length)
  (hright : ∀ a, right.backing a = if a < start then vma.backing a else none)
  (hleft : ∀ a, left.backing a = if start + length ≤ a then vma.backing a else none)

include hr

theorem pulls_apart (h : Lies vma start (start + length) .apart) :
    Unmaps start length [vma] [vma] := by
  refine Pulls.of_lookup (pairwise_singleton _ _) fun a => ?_
  rw [bind_unmapSource, lookup_singleton]
  split
  · exact backing_of_apart hr h ‹_›
  · rfl

theorem pulls_covered (h : Lies vma start (start + length) .covered) :
    Unmaps start length [vma] [] := by
  unfold Lies at h
  refine Pulls.of_lookup Pairwise.nil fun a => ?_
  rw [bind_unmapSource, lookup_nil]
  by_cases ha : InRegion start length a
  · rw [if_pos ha]
  · rw [if_neg ha, eq_comm, backing_eq_none_iff]
    rw [hr.mem_iff] at ha
    bv_omega

variable {piece : VMA P}

omit hr in
/-- A piece is known by the addresses of the area that it keeps. -/
theorem backing_piece {p q : Addr → Prop} [DecidablePred p] [DecidablePred q]
    (hpiece : ∀ a, piece.backing a = if p a then vma.backing a else none)
    (hpq : ∀ a, vma.start ≤ a → a < vma.endAddr → (p a ↔ q a)) (a : Addr) :
    piece.backing a = if q a then vma.backing a else none := by
  rw [hpiece]
  by_cases ha : vma.start ≤ a ∧ a < vma.endAddr
  · exact if_congr (hpq a ha.1 ha.2) rfl rfl
  · rw [backing_eq_none_iff.mpr (by bv_omega), ite_self, ite_self]

/-- The piece outside the region. -/
theorem pulls_piece {p : Addr → Prop} [DecidablePred p]
    (hpiece : ∀ a, piece.backing a = if p a then vma.backing a else none)
    (hp : ∀ a, vma.start ≤ a → a < vma.endAddr → (p a ↔ ¬ (start ≤ a ∧ a < start + length))) :
    Unmaps start length [vma] [piece] := by
  refine Pulls.of_lookup (pairwise_singleton _ _) fun a => ?_
  rw [bind_unmapSource, lookup_singleton, backing_piece hpiece hp, ite_not]
  exact if_congr hr.mem_iff.symm rfl rfl

include hright hleft in
theorem pulls_within : Unmaps start length [vma] [left, right] := by
  have hlt := hr.lt
  refine Pulls.of_lookup ?_ fun a => ?_
  · refine pairwise_pair.mpr fun a => ?_
    rw [hleft, hright]
    by_cases habove : start + length ≤ a
    · exact .inr (if_neg (by bv_omega))
    · exact .inl (if_neg habove)
  · rw [bind_unmapSource, lookup_cons, lookup_singleton, hleft, hright]
    by_cases habove : start + length ≤ a
    · have hout : ¬ InRegion start length a := by rw [hr.mem_iff]; bv_omega
      rw [if_pos habove, if_neg (by bv_omega), if_neg hout, or_none]
    by_cases hbelow : a < start
    · have hout : ¬ InRegion start length a := by rw [hr.mem_iff]; bv_omega
      rw [if_neg habove, if_pos hbelow, if_neg hout, none_or]
    · have hin : InRegion start length a := by rw [hr.mem_iff]; bv_omega
      rw [if_neg habove, if_neg hbelow, if_pos hin, none_or]

/-- An area cut into its part in the region and what is left. -/
structure Cut (start : Addr) (length : BitVec 64) (vma inside : VMA P) (outs : List (VMA P)) :
    Prop where
  covered : Lies inside start (start + length) .covered
  inside_eq : ∀ a, inside.backing a = if InRegion start length a then vma.backing a else none
  outs : Unmaps start length [vma] outs

theorem cut_fromRight (h : Lies vma start (start + length) .fromRight) :
    ∃ clone inside, vma.sliceRegionRight start = some clone ∧
      vma.sliceRegionLeft start = some inside ∧ inside.start = start ∧
      Lies clone start (start + length) .apart ∧ Cut start length vma inside [clone] := by
  obtain ⟨hlow, hmid, hhigh⟩ := h
  obtain ⟨clone, hclone, -, hcloneEnd, hcloneBacking⟩ :=
    sliceRegionRight_backing hr.start_aligned hlow (BitVec.le_of_lt hmid)
  obtain ⟨inside, hinside, hstart, hend, hbacking⟩ :=
    sliceRegionLeft_backing hr.start_aligned (BitVec.le_of_lt hlow) hmid
  refine ⟨clone, inside, hclone, hinside, hstart, .inl ?_, ⟨?_, ?_, ?_⟩⟩
  · rw [hcloneEnd]
    exact BitVec.le_refl _
  · unfold Lies
    rw [hstart, hend]
    exact ⟨BitVec.le_refl _, hhigh⟩
  · exact backing_piece hbacking fun a _ _ => by rw [hr.mem_iff]; bv_omega
  · exact pulls_piece hr hcloneBacking fun a _ _ => by bv_omega

theorem cut_fromLeft (h : Lies vma start (start + length) .fromLeft) :
    ∃ clone inside, vma.sliceRegionLeft (start + length) = some clone ∧
      vma.sliceRegionRight (start + length) = some inside ∧
      Lies clone start (start + length) .apart ∧ Cut start length vma inside [clone] := by
  obtain ⟨hlow, hmid, hhigh⟩ := h
  obtain ⟨clone, hclone, hcloneStart, -, hcloneBacking⟩ :=
    sliceRegionLeft_backing hr.end_aligned (BitVec.le_of_lt hmid) hhigh
  obtain ⟨inside, hinside, hstart, hend, hbacking⟩ :=
    sliceRegionRight_backing hr.end_aligned hmid (BitVec.le_of_lt hhigh)
  refine ⟨clone, inside, hclone, hinside, .inr ?_, ⟨?_, ?_, ?_⟩⟩
  · rw [hcloneStart]
    exact BitVec.le_refl _
  · unfold Lies
    rw [hstart, hend]
    exact ⟨hlow, BitVec.le_refl _⟩
  · exact backing_piece hbacking fun a _ _ => by rw [hr.mem_iff]; bv_omega
  · exact pulls_piece hr hcloneBacking fun a _ _ => by bv_omega

/-- The middle of an area is cut out on both sides. -/
theorem cut_within (h : Lies vma start (start + length) .within) :
    ∃ right left upper inside, vma.sliceRegionRight start = some right ∧
      vma.sliceRegionLeft (start + length) = some left ∧ vma.sliceRegionLeft start = some upper ∧
      upper.sliceRegionRight (start + length) = some inside ∧ inside.start = start ∧
      Cut start length vma inside [left, right] := by
  have hlt := hr.lt
  obtain ⟨hlow, hhigh⟩ := h
  obtain ⟨right, hright, -, -, hrightBacking⟩ :=
    sliceRegionRight_backing hr.start_aligned hlow (by bv_omega)
  obtain ⟨left, hleft, -, -, hleftBacking⟩ :=
    sliceRegionLeft_backing hr.end_aligned (by bv_omega) hhigh
  obtain ⟨upper, hupper, hupperStart, hupperEnd, hupperBacking⟩ :=
    sliceRegionLeft_backing hr.start_aligned (BitVec.le_of_lt hlow) (by bv_omega)
  rw [← hupperEnd] at hhigh
  obtain ⟨inside, hinside, hstart, hend, hbacking⟩ :=
    sliceRegionRight_backing hr.end_aligned (by rwa [hupperStart]) (BitVec.le_of_lt hhigh)
  rw [hupperStart] at hstart
  refine ⟨right, left, upper, inside, hright, hleft, hupper, hinside, hstart, ⟨?_, ?_, ?_⟩⟩
  · unfold Lies
    rw [hstart, hend]
    exact ⟨BitVec.le_refl _, BitVec.le_refl _⟩
  · intro a
    rw [hbacking, hupperBacking]
    by_cases ha : InRegion start length a
    · rw [if_pos ha, if_pos (hr.mem_iff.mp ha).2, if_pos (hr.mem_iff.mp ha).1]
    · rw [if_neg ha]
      rw [hr.mem_iff] at ha
      split
      · exact if_neg (by bv_omega)
      · rfl
  · exact pulls_within hr hrightBacking hleftBacking

end Pieces

/-- The areas next to one that covers the region say nothing about it. -/
theorem lookup_of_within (hr : IsRegion P start length)
    (hrest : ∀ v ∈ rest, Apart VMA.backing vma v) (h : Lies vma start (start + length) .within)
    (ha : InRegion start length a) : lookup VMA.backing rest a = none := by
  unfold Lies at h
  rw [hr.mem_iff] at ha
  have hvma : vma.backing a ≠ none := by
    rw [backing_of_mem (by bv_omega)]
    exact some_ne_none _
  exact lookup_eq_none_iff.mpr fun v hv => (hrest v hv a).resolve_left hvma

/-- **The walk of `unmapRegion`** removes the backing of the region and nothing else. -/
theorem unmapLoop_pulls (hr : IsRegion P start length) :
    ∀ {l : List (VMA P)}, l.Pairwise (Apart VMA.backing) →
      ∃ l', unmapLoop (AddrRange.ofBounds start (start + length)) l = some l' ∧
        Unmaps start length l l' := by
  intro l
  induction l with
  | nil => exact fun _ => ⟨[], rfl, Pulls.nil⟩
  | cons vma rest ih =>
    intro hl
    obtain ⟨hvma, hrest⟩ := pairwise_cons.mp hl
    obtain ⟨l', hloop, hpulls⟩ := ih hrest
    obtain ⟨o, ho, hlies⟩ := overlap_spec vma hr.lt
    unfold unmapLoop
    rw [ho, hloop]
    simp only [Option.bind_eq_bind, Option.pure_def, start_ofBounds, endAddr_ofBounds]
    cases o with
    | within =>
      obtain ⟨right, left, _, _, hright, hleft, -, -, -, hcut⟩ := cut_within hr hlies
      refine ⟨left :: (rest ++ [right]), ?_, ?_⟩
      · simp [hright, hleft]
      -- the rest is not walked, and need not be
      have hunchanged : Unmaps start length rest rest := by
        refine Pulls.unchanged hrest fun a => ?_
        by_cases ha : InRegion start length a
        · exact .inr ⟨lookup_of_within hr hvma hlies ha, by rw [bind_unmapSource, if_pos ha]⟩
        · exact .inl (if_neg ha)
      apply (hcut.outs.cons hunchanged hvma).perm
      exact Perm.cons left (perm_append_singleton right rest).symm
    | covered => exact ⟨l', rfl, (pulls_covered hr hlies).cons hpulls hvma⟩
    | fromRight =>
      obtain ⟨right, _, hright, -, -, -, hcut⟩ := cut_fromRight hr hlies
      refine ⟨right :: l', ?_, hcut.outs.cons hpulls hvma⟩
      simp [hright]
    | fromLeft =>
      obtain ⟨left, _, hleft, -, -, hcut⟩ := cut_fromLeft hr hlies
      refine ⟨left :: l', ?_, hcut.outs.cons hpulls hvma⟩
      simp [hleft]
    | apart => exact ⟨vma :: l', rfl, (pulls_apart hr hlies).cons hpulls hvma⟩

section Remap

variable (hr : IsRegion P old length) (hnew : IsRegion P new length)
  (hdisjoint : ∀ a, InRegion new length a → ¬ InRegion old length a)

theorem inRegion_shift (hr : IsRegion P old length) (ha : InRegion new length a) :
    InRegion old length (a - new + old) := by
  have hfits := hr.fits
  unfold InRegion at ha ⊢
  bv_omega

include hr hnew in
/-- An area of the old region is shifted into the new one. -/
theorem remap_moved (hlies : Lies vma old (old + length) .covered) :
    ∃ vma', vma.remap (vma.start - old + new) = some vma' ∧
      ∀ a, vma'.backing a = if InRegion new length a then vma.backing (a - new + old) else none := by
  have hlt := vma.sane.lt
  have hfits := hnew.fits
  unfold Lies at hlies
  have haligned : P.Aligned (vma.start - old + new) :=
    (vma.sane.start_aligned.sub hr.start_aligned).add hnew.start_aligned
  have hroom : (vma.start - old + new).toNat + (vma.endAddr.toNat - vma.start.toNat) < 2 ^ 64 := by
    bv_omega
  obtain ⟨vma', hremap, hstart, hend', hbacking⟩ := remap_backing haligned hroom
  refine ⟨vma', hremap, ?_⟩
  intro a
  by_cases ha : InRegion new length a
  · rw [hbacking, show a - (vma.start - old + new) + vma.start = a - new + old by ring]
    split
    · rfl
    · unfold InRegion at ha
      rw [eq_comm, backing_eq_none_iff]
      bv_omega
  · rw [if_neg ha, backing_eq_none_iff, hstart, hend']
    unfold InRegion at ha
    bv_omega

/-- The areas after the region is moved. -/
abbrev Remaps (old new : Addr) (length : BitVec 64) (l l' : List (VMA P)) : Prop :=
  Pulls VMA.backing (remapSource old new length) l l'

theorem bind_remapSource (f : Addr → Option Backing) (a : Addr) :
    (remapSource old new length a).bind f =
      if InRegion new length a then f (a - new + old)
      else if InRegion old length a then none else f a := by
  unfold remapSource
  split
  · rfl
  · split <;> rfl

variable {outs : List (VMA P)}

/-- The moved part of an area, with what is left of it. -/
theorem pulls_moved {vma moved : VMA P} (hfree : ∀ a, InRegion new length a → vma.backing a = none)
    (hmoved : ∀ a, moved.backing a =
      if InRegion new length a then vma.backing (a - new + old) else none)
    (houts : Unmaps old length [vma] outs) : Remaps old new length [vma] (moved :: outs) := by
  have hlookup : ∀ a, lookup VMA.backing outs a =
      if InRegion old length a then none else vma.backing a := by
    intro a
    rw [houts.lookup_eq, pullback, bind_unmapSource, lookup_singleton]
  have hnone : ∀ a, InRegion new length a → lookup VMA.backing outs a = none := by
    intro a ha
    rw [hlookup, hfree a ha, ite_self]
  refine Pulls.of_lookup (pairwise_cons.mpr ⟨?_, houts.apart⟩) fun a => ?_
  · intro v hv a
    by_cases ha : InRegion new length a
    · exact .inr (lookup_eq_none_iff.mp (hnone a ha) v hv)
    · exact .inl (by rw [hmoved, if_neg ha])
  · rw [bind_remapSource, lookup_cons, hmoved]
    by_cases ha : InRegion new length a
    · rw [if_pos ha, if_pos ha, hnone a ha, or_none]
    · rw [if_neg ha, if_neg ha, none_or, hlookup]

/-- An area that is cut into its part of the old region and a clone of the rest, which
the walk comes to at the end of the list. -/
theorem pulls_clone {vma inside clone moved : VMA P} {rest l' : List (VMA P)}
    (hrest : ∀ v ∈ rest, Apart VMA.backing vma v)
    (hinside : ∀ a, inside.backing a = if InRegion old length a then vma.backing a else none)
    (hclone : ∀ a, clone.backing a = if InRegion old length a then none else vma.backing a)
    (hmoved : Remaps old new length [inside] [moved])
    (hl' : Remaps old new length (rest ++ [clone]) l') :
    Remaps old new length (vma :: rest) (moved :: l') := by
  have hapart : ∀ v ∈ rest ++ [clone], Apart VMA.backing inside v := by
    intro v hv a
    by_cases ha : InRegion old length a
    · rcases mem_append.mp hv with hv | hv
      · exact (hrest v hv a).imp_left fun h => by rw [hinside, if_pos ha, h]
      · obtain rfl := mem_singleton.mp hv
        exact .inr (by rw [hclone, if_pos ha])
    · exact .inl (by rw [hinside, if_neg ha])
  apply (hmoved.cons hl' hapart).congr
  funext a
  rw [lookup_cons, lookup_append, lookup_singleton, lookup_cons, hinside, hclone]
  by_cases ha : InRegion old length a
  · rw [if_pos ha, if_pos ha, or_none]
  · rw [if_neg ha, if_neg ha, none_or]
    -- only one of the two has a value
    cases hvma : vma.backing a with
    | none => rw [or_none, none_or]
    | some b =>
      have hnone : lookup VMA.backing rest a = none := lookup_eq_none_iff.mpr fun v hv =>
        (hrest v hv a).resolve_left (by simp [hvma])
      rw [hnone, none_or, or_none]

/-- The areas that the walk of `remapRegion` cuts or moves. -/
def meets (old : Addr) (length : BitVec 64) (vma : VMA P) : Bool :=
  vma.start < old + length && old < vma.endAddr

theorem meets_of_lies {o : Overlap} (hr : IsRegion P old length) (h : Lies vma old (old + length) o)
    : meets old length vma = true ↔ o ≠ .apart := by
  have hlt := hr.lt
  have hvma := vma.sane.lt
  rw [meets, Bool.and_eq_true, decide_eq_true_eq, decide_eq_true_eq]
  unfold Lies at h
  cases o <;> simp only [ne_eq, reduceCtorEq, not_false_eq_true, not_true_eq_false, iff_true,
    iff_false] <;> bv_omega

include hr hnew hdisjoint

/-- The part of an area in the old region, moved. -/
theorem pulls_inside {vma inside : VMA P} (hcut : Cut old length vma inside outs) :
    ∃ moved, inside.remap (inside.start - old + new) = some moved ∧
      (∀ a, moved.backing a = if InRegion new length a then vma.backing (a - new + old) else none) ∧
      Remaps old new length [inside] [moved] := by
  obtain ⟨moved, hremap, hmoved⟩ := remap_moved hr hnew hcut.covered
  refine ⟨moved, hremap, ?_, pulls_moved ?_ hmoved (pulls_covered hr hcut.covered)⟩
  · intro a
    rw [hmoved]
    by_cases ha : InRegion new length a
    · rw [if_pos ha, if_pos ha, hcut.inside_eq, if_pos (inRegion_shift hr ha)]
    · rw [if_neg ha, if_neg ha]
  · intro a ha
    rw [hcut.inside_eq, if_neg (hdisjoint a ha)]

omit hdisjoint hnew in
/-- Areas outside of both regions. -/
theorem pulls_unchanged {l : List (VMA P)} (hl : l.Pairwise (Apart VMA.backing))
    (hfree : ∀ v ∈ l, ∀ a, InRegion new length a → v.backing a = none)
    (hold : ∀ a, InRegion old length a → lookup VMA.backing l a = none) :
    Remaps old new length l l := by
  refine Pulls.unchanged hl fun a => ?_
  rw [bind_remapSource]
  by_cases ha : InRegion new length a
  · refine .inr ⟨lookup_eq_none_iff.mpr fun v hv => hfree v hv a ha, ?_⟩
    rw [if_pos ha, hold _ (inRegion_shift hr ha)]
  by_cases ha' : InRegion old length a
  · exact .inr ⟨hold a ha', by rw [if_neg ha, if_pos ha']⟩
  · exact .inl (by rw [remapSource, if_neg ha, if_neg ha'])

/-- The walk goes on with a clone of what is outside of the old region. -/
theorem walk_clone {fuel : ℕ} {vma inside clone : VMA P}
    (ih : ∀ {l : List (VMA P)}, l.length + l.countP (meets old length) ≤ fuel →
      l.Pairwise (Apart VMA.backing) → (∀ v ∈ l, ∀ a, InRegion new length a → v.backing a = none) →
      ∃ l', remapLoop (AddrRange.ofBounds old (old + length)) new fuel l = some l' ∧
        Remaps old new length l l')
    (hfuel : rest.length + 1 + rest.countP (meets old length) ≤ fuel)
    (hl : (vma :: rest).Pairwise (Apart VMA.backing))
    (hfree : ∀ v ∈ vma :: rest, ∀ a, InRegion new length a → v.backing a = none)
    (houtside : Lies clone old (old + length) .apart) (hcut : Cut old length vma inside [clone]) :
    ∃ moved l', inside.remap (inside.start - old + new) = some moved ∧
      remapLoop (AddrRange.ofBounds old (old + length)) new fuel (rest ++ [clone]) = some l' ∧
      Remaps old new length (vma :: rest) (moved :: l') := by
  obtain ⟨hvma, hrest⟩ := pairwise_cons.mp hl
  obtain ⟨hfreeVma, hfreeRest⟩ := forall_mem_cons.mp hfree
  have hclone : ∀ a, clone.backing a = if InRegion old length a then none else vma.backing a := by
    intro a
    have h := congrFun hcut.outs.lookup_eq a
    rwa [lookup_singleton, pullback, bind_unmapSource, lookup_singleton] at h
  have hpart : ∀ a, vma.backing a = none → clone.backing a = none := by
    intro a ha
    rw [hclone, ha, ite_self]
  have hcount : (rest ++ [clone]).countP (meets old length) = rest.countP (meets old length) := by
    have hmeets : ¬ meets old length clone = true := fun h => (meets_of_lies hr houtside).mp h rfl
    rw [countP_append, countP_singleton, if_neg hmeets, Nat.add_zero]
  have hfuel' : (rest ++ [clone]).length + (rest ++ [clone]).countP (meets old length) ≤ fuel := by
    rw [hcount, length_append]
    exact hfuel
  have happart : (rest ++ [clone]).Pairwise (Apart VMA.backing) := by
    refine pairwise_append.mpr ⟨hrest, pairwise_singleton _ _, ?_⟩
    intro v hv w hw
    obtain rfl := mem_singleton.mp hw
    exact fun a => ((hvma v hv a).imp_left (hpart a)).symm
  have hfree' : ∀ v ∈ rest ++ [clone], ∀ a, InRegion new length a → v.backing a = none := by
    intro v hv a ha
    rcases mem_append.mp hv with hv | hv
    · exact hfreeRest v hv a ha
    · obtain rfl := mem_singleton.mp hv
      exact hpart a (hfreeVma a ha)
  obtain ⟨l', hloop, hpulls⟩ := ih hfuel' happart hfree'
  obtain ⟨moved, hremap, -, hmoved⟩ := pulls_inside hr hnew hdisjoint hcut
  exact ⟨moved, l', hremap, hloop, pulls_clone hvma hcut.inside_eq hclone hmoved hpulls⟩

/-- **The walk of `remapRegion`** moves the backing of the old region and changes nothing
else.  Every area is walked once, and the clone of one that meets the region once more. -/
theorem remapLoop_pulls : ∀ (fuel : ℕ) {l : List (VMA P)},
    l.length + l.countP (meets old length) ≤ fuel → l.Pairwise (Apart VMA.backing) →
    (∀ v ∈ l, ∀ a, InRegion new length a → v.backing a = none) →
    ∃ l', remapLoop (AddrRange.ofBounds old (old + length)) new fuel l = some l' ∧
      Remaps old new length l l' := by
  intro fuel
  induction fuel with
  | zero =>
    intro l hfuel _ _
    obtain rfl : l = [] := length_eq_zero_iff.mp (by omega)
    exact ⟨[], rfl, Pulls.nil⟩
  | succ fuel ih =>
    intro l hfuel hl hfree
    cases l with
    | nil => exact ⟨[], rfl, Pulls.nil⟩
    | cons vma rest =>
      obtain ⟨hvma, hrest⟩ := pairwise_cons.mp hl
      obtain ⟨hfreeVma, hfreeRest⟩ := forall_mem_cons.mp hfree
      obtain ⟨o, ho, hlies⟩ := overlap_spec vma hr.lt
      have hmeets := meets_of_lies hr hlies
      rw [length_cons, countP_cons] at hfuel
      unfold remapLoop
      rw [ho]
      simp only [Option.bind_eq_bind, Option.pure_def, start_ofBounds, endAddr_ofBounds]
      cases o with
      | within =>
        obtain ⟨right, left, upper, inside, hright, hleft, hupper, hinside, hstart, hcut⟩ :=
          cut_within hr hlies
        obtain ⟨moved, hremap, hmoved, -⟩ := pulls_inside hr hnew hdisjoint hcut
        rw [hstart, sub_self, zero_add] at hremap
        refine ⟨moved :: (rest ++ [right, left]), ?_, ?_⟩
        · simp [hright, hleft, hupper, hinside, hremap]
        · have hvmaPulls := pulls_moved hfreeVma hmoved (hcut.outs.perm (Perm.swap right left []))
          have hrestPulls := pulls_unchanged hr hrest hfreeRest fun a ha =>
            lookup_of_within hr hvma hlies ha
          apply (hvmaPulls.cons hrestPulls hvma).perm
          exact Perm.cons moved perm_append_comm
      | covered =>
        obtain ⟨moved, hremap, hmoved⟩ := remap_moved hr hnew hlies
        obtain ⟨l', hloop, hpulls⟩ := ih (by omega) hrest hfreeRest
        refine ⟨moved :: l', ?_, ?_⟩
        · simp [hremap, hloop]
        · exact (pulls_moved hfreeVma hmoved (pulls_covered hr hlies)).cons hpulls hvma
      | fromRight =>
        obtain ⟨clone, inside, hclone, hinside, hstart, houtside, hcut⟩ := cut_fromRight hr hlies
        rw [if_pos (hmeets.mpr (by simp))] at hfuel
        obtain ⟨moved, l', hremap, hloop, hpulls⟩ :=
          walk_clone hr hnew hdisjoint ih (by omega) hl hfree houtside hcut
        rw [hstart, sub_self, zero_add] at hremap
        refine ⟨moved :: l', ?_, hpulls⟩
        simp [hclone, hinside, hremap, hloop]
      | fromLeft =>
        obtain ⟨clone, inside, hclone, hinside, houtside, hcut⟩ := cut_fromLeft hr hlies
        rw [if_pos (hmeets.mpr (by simp))] at hfuel
        obtain ⟨moved, l', hremap, hloop, hpulls⟩ :=
          walk_clone hr hnew hdisjoint ih (by omega) hl hfree houtside hcut
        rw [show inside.start - old + new = new + inside.start - old by ring] at hremap
        refine ⟨moved :: l', ?_, hpulls⟩
        simp [hclone, hinside, hremap, hloop]
      | apart =>
        obtain ⟨l', hloop, hpulls⟩ := ih (by omega) hrest hfreeRest
        refine ⟨vma :: l', by simp [hloop], ?_⟩
        refine Pulls.cons (pulls_unchanged hr (pairwise_singleton _ _) ?_ ?_) hpulls hvma
        · exact fun v hv => by rw [mem_singleton.mp hv]; exact hfreeVma
        · exact fun a ha => by rw [lookup_singleton]; exact backing_of_apart hr hlies ha

end Remap

end MemState
