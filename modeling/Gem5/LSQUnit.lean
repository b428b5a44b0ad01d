/-
# Loads in the load/store queue of the O3 CPU

`LSQUnit::read` of `cpu/o3/lsq_unit.cc`.  Before a load goes to memory the older stores that
are still in the store queue are searched, youngest first.

A circular queue is a function of the running number of its entries, and an iterator is
such a number: `storeWBIt` is the oldest store that is not written back, `sqIt` of a load
the first store that is younger than it.
-/
import Gem5.Bitfield

namespace LSQUnit

abbrev Byte := BitVec 8

/-- What `read` looks at in the main request of an access. -/
structure Request where
  vaddr : Addr
  size : ℕ
  isStrictlyOrdered : Bool
  isLLSC : Bool
  isLocalAccess : Bool
  isHTMCmd : Bool
  isCacheMaintenance : Bool
  byteEnable : List Bool

def Request.isMasked (req : Request) : Bool := req.byteEnable.contains false

/-- What `read` looks at in an instruction. -/
structure DynInst where
  seqNum : ℕ
  effAddr : Addr
  effAddrValid : Bool
  strictlyOrdered : Bool
  isAtomic : Bool
  isDataPrefetch : Bool
  isExecuted : Bool
  isIssued : Bool
  isAtCommit : Bool
  htmTransactionUid : Option ℕ
  memData : Option (List Byte)
  sqIt : ℕ

structure SQEntry where
  valid : Bool
  instruction : DynInst
  request : Option Request
  size : ℕ
  data : List Byte
  isAllZeros : Bool
  completed : Bool

structure LQEntry where
  instruction : DynInst
  request : Option Request

inductive AddrRangeCoverage
  | partialAddrRangeCoverage
  | fullAddrRangeCoverage
  | noAddrRangeCoverage
  deriving DecidableEq

open AddrRangeCoverage in
/-- How the bytes of a store cover those of a load. -/
def coverage (request : Request) (store : SQEntry) (storeReq : Request) : AddrRangeCoverage :=
  let reqS := request.vaddr
  let reqE := reqS + BitVec.ofNat 64 request.size
  let stS := store.instruction.effAddr
  let stE := stS + BitVec.ofNat 64 store.size
  let storeHasLowerLimit : Bool := stS ≤ reqS
  let storeHasUpperLimit : Bool := reqE ≤ stE
  let lowerLoadHasStorePart : Bool := reqS < stE
  let upperLoadHasStorePart : Bool := stS < reqE
  if !store.instruction.isAtomic && storeHasLowerLimit && storeHasUpperLimit &&
      !request.isLLSC then
    if storeReq.isMasked then partialAddrRangeCoverage else fullAddrRangeCoverage
  else if (!request.isLLSC &&
        ((storeHasLowerLimit && lowerLoadHasStorePart) ||
          (storeHasUpperLimit && upperLoadHasStorePart) ||
          (lowerLoadHasStorePart && upperLoadHasStorePart))) ||
      (request.isLLSC &&
        ((storeHasLowerLimit || upperLoadHasStorePart) &&
          (storeHasUpperLimit || lowerLoadHasStorePart))) ||
      (store.instruction.isAtomic &&
        ((storeHasLowerLimit || upperLoadHasStorePart) &&
          (storeHasUpperLimit || lowerLoadHasStorePart))) then
    partialAddrRangeCoverage
  else noAddrRangeCoverage

/-- What becomes of a load. -/
inductive Outcome
  | panicFault
  | localAccess
  | forward (memData : List Byte)
  | reschedule
  | memory
  deriving DecidableEq

end LSQUnit

/-- The queues of one thread, and the load that waits for a store. -/
structure LSQUnit where
  storeQueue : ℕ → LSQUnit.SQEntry
  storeWBIt : ℕ
  loadQueue : ℕ → LSQUnit.LQEntry
  loadHead : ℕ
  stalled : Bool
  stallingStoreIsn : ℕ
  stallingLoadIdx : ℕ

namespace LSQUnit

def setEntry (idx : ℕ) (entry : LQEntry) (u : LSQUnit) : LSQUnit :=
  { u with loadQueue := Function.update u.loadQueue idx entry }

/-- The load will be issued again; its request is discarded. -/
def reschedule (loadIdx : ℕ) (u : LSQUnit) : LSQUnit :=
  let load := (u.loadQueue loadIdx).instruction
  u.setEntry loadIdx ⟨{ load with isIssued := false, effAddrValid := false }, none⟩

/-- The oldest load that waits for a store is kept, with the store. -/
def stall (loadIdx : ℕ) (store : SQEntry) (u : LSQUnit) : LSQUnit :=
  if !u.stalled || decide ((u.loadQueue loadIdx).instruction.seqNum <
      (u.loadQueue u.stallingLoadIdx).instruction.seqNum) then
    { u with
      stalled := true
      stallingStoreIsn := store.instruction.seqNum
      stallingLoadIdx := loadIdx }
  else u

variable (request : Request)

/-- The load gets the bytes of a store; responses to packets that were sent for it before
will be discarded.  `none` where an assertion fails or bytes behind the data are read. -/
def forward (outstanding : Bool) (loadIdx : ℕ) (store : SQEntry)
    (u : LSQUnit) : Option (Outcome × LSQUnit) :=
  let entry := u.loadQueue loadIdx
  let load := entry.instruction
  let shiftAmt := (request.vaddr - store.instruction.effAddr).toNat
  if !store.isAllZeros && decide (store.data.length < shiftAmt + request.size) then none
  else if request.isHTMCmd then none
  else if load.htmTransactionUid.isSome && (store.completed ||
      decide (store.instruction.htmTransactionUid ≠ load.htmTransactionUid)) then none
  else
    let memData :=
      if store.isAllZeros then List.replicate request.size 0
      else (store.data.drop shiftAmt).take request.size
    some (.forward memData, u.setEntry loadIdx
      ⟨{ load with memData := some memData }, if outstanding then none else entry.request⟩)

/-- The loop over the stores, from `storeWBIt + n` down to `storeWBIt`. -/
def searchStores (request : Request) (outstanding : Bool) (loadIdx : ℕ) (u : LSQUnit) :
    ℕ → Option (Outcome × LSQUnit)
  | 0 => some (.memory, u)
  | n + 1 =>
    let store := u.storeQueue (u.storeWBIt + n)
    if !store.valid || decide ((u.loadQueue loadIdx).instruction.seqNum ≤
        store.instruction.seqNum) then none
    else if store.size ≠ 0 ∧ store.instruction.strictlyOrdered = false then
      store.request.bind fun storeReq =>
      if storeReq.isCacheMaintenance then searchStores request outstanding loadIdx u n
      else if !store.instruction.effAddrValid then none
      else
        match coverage request store storeReq with
        | .fullAddrRangeCoverage => u.forward request outstanding loadIdx store
        | .partialAddrRangeCoverage =>
          if store.completed then none
          else some (.reschedule, (u.stall loadIdx store).reschedule loadIdx)
        | .noAddrRangeCoverage => searchStores request outstanding loadIdx u n
    else searchStores request outstanding loadIdx u n

/-- `outstanding` says whether packets of the request are in flight already. -/
def read (outstanding : Bool) (loadIdx : ℕ) (u : LSQUnit) : Option (Outcome × LSQUnit) :=
  let load := (u.loadQueue loadIdx).instruction
  let u := u.setEntry loadIdx ⟨load, some request⟩
  if load.isExecuted then none
  else if request.isStrictlyOrdered && (decide (loadIdx ≠ u.loadHead) || !load.isAtCommit) then
    some (.panicFault, u.reschedule loadIdx)
  else if request.isLocalAccess then
    if load.memData.isSome then none else some (.localAccess, u)
  else if load.sqIt < u.storeWBIt then none
  else if load.isDataPrefetch then some (.memory, u)
  else searchStores request outstanding loadIdx u (load.sqIt - u.storeWBIt)

/-! ## What forwarding is for -/

/-- Stores that carry data of their own and are in order with the load. -/
structure Eligible (store : SQEntry) : Prop where
  size : store.size ≠ 0
  strictlyOrdered : store.instruction.strictlyOrdered = false
  cacheMaintenance : ∀ storeReq ∈ store.request, storeReq.isCacheMaintenance = false

/-- Byte `a` is one of the bytes that are accessed. -/
def Request.Touches (a : ℕ) : Prop :=
  request.vaddr.toNat ≤ a ∧ a < request.vaddr.toNat + request.size

variable (store : SQEntry)

def SQEntry.Touches (a : ℕ) : Prop :=
  store.instruction.effAddr.toNat ≤ a ∧ a < store.instruction.effAddr.toNat + store.size

def Overlaps : Prop :=
  ∃ a, request.Touches a ∧ store.Touches a

/-- A store the load can take its bytes from. -/
structure Qualifies (request : Request) (store : SQEntry) : Prop where
  notAtomic : store.instruction.isAtomic = false
  notMasked : ∀ storeReq ∈ store.request, storeReq.isMasked = false
  covers : ∀ a, request.Touches a → store.Touches a

/-- The byte the store writes at address `a`. -/
def SQEntry.byteAt (a : ℕ) : Byte :=
  if store.isAllZeros then 0 else store.data.getD (a - store.instruction.effAddr.toNat) 0

/-- A store of the queue that is older than the load and holds up its way to memory. -/
structure Hit (u : LSQUnit) (request : Request) (sqIt i : ℕ) : Prop where
  inQueue : u.storeWBIt ≤ i
  older : i < sqIt
  eligible : Eligible (u.storeQueue i)
  overlaps : Overlaps request (u.storeQueue i)

structure Youngest (u : LSQUnit) (request : Request) (sqIt i : ℕ) : Prop
    extends Hit u request sqIt i where
  youngest : ∀ j, i < j → ¬ Hit u request sqIt j

/-- What the search has to give. -/
inductive Exact (u : LSQUnit) (request : Request) (loadIdx sqIt : ℕ) : Outcome → LSQUnit → Prop
  | memory (hnone : ∀ i, ¬ Hit u request sqIt i) : Exact u request loadIdx sqIt .memory u
  | forward (i : ℕ) (hyoungest : Youngest u request sqIt i)
      (hqualifies : Qualifies request (u.storeQueue i)) (u' : LSQUnit) (memData : List Byte)
      (hdata : memData = (List.range request.size).map fun k =>
        (u.storeQueue i).byteAt (request.vaddr.toNat + k))
      (hload : (u'.loadQueue loadIdx).instruction.memData = some memData) :
      Exact u request loadIdx sqIt (.forward memData) u'
  | reschedule (i : ℕ) (hyoungest : Youngest u request sqIt i)
      (hnot : ¬ Qualifies request (u.storeQueue i)) (u' : LSQUnit) (hstalled : u'.stalled = true)
      (hload : (u'.loadQueue loadIdx).instruction.isIssued = false) :
      Exact u request loadIdx sqIt .reschedule u'

/-! ## Coverage -/

section Coverage

variable {request : Request} {store : SQEntry} {storeReq : Request}

/-- The ends of the two ranges as numbers. -/
structure NoWrap (request : Request) (store : SQEntry) : Prop where
  load : request.vaddr.toNat + request.size < 2 ^ 64
  store : store.instruction.effAddr.toNat + store.size < 2 ^ 64

theorem overlaps_iff (hsize : 0 < request.size) (hstore : store.size ≠ 0) : Overlaps request store ↔
      request.vaddr.toNat < store.instruction.effAddr.toNat + store.size ∧
        store.instruction.effAddr.toNat < request.vaddr.toNat + request.size := by
  constructor
  · rintro ⟨a, ⟨h1, h2⟩, h3, h4⟩
    omega
  · intro h
    refine ⟨max request.vaddr.toNat store.instruction.effAddr.toNat, ⟨?_, ?_⟩, ?_, ?_⟩ <;> omega

theorem covers_iff (hsize : 0 < request.size) : (∀ a, request.Touches a → store.Touches a) ↔
      store.instruction.effAddr.toNat ≤ request.vaddr.toNat ∧
        request.vaddr.toNat + request.size ≤ store.instruction.effAddr.toNat + store.size := by
  unfold Request.Touches SQEntry.Touches
  constructor
  · intro h
    have hfirst := h request.vaddr.toNat ⟨le_rfl, by omega⟩
    have hlast := h (request.vaddr.toNat + request.size - 1) ⟨by omega, by omega⟩
    omega
  · omega

theorem toNat_add_ofNat {a : Addr} {n : ℕ} (h : a.toNat + n < 2 ^ 64) :
    (a + BitVec.ofNat 64 n).toNat = a.toNat + n := by
  rw [BitVec.toNat_add, BitVec.toNat_ofNat, Nat.add_mod_mod, Nat.mod_eq_of_lt h]

/-- The four comparisons of a load that is not load-linked give the two ranges' overlap. -/
theorem coverage_spec (hsize : 0 < request.size) (hllsc : request.isLLSC = false)
    (hstore : store.size ≠ 0) (hreq : store.request = some storeReq) (hwrap : NoWrap request store) :
    (coverage request store storeReq = .fullAddrRangeCoverage →
      Overlaps request store ∧ Qualifies request store) ∧
    (coverage request store storeReq = .partialAddrRangeCoverage →
      Overlaps request store ∧ ¬ Qualifies request store) ∧
    (coverage request store storeReq = .noAddrRangeCoverage → ¬ Overlaps request store) := by
  have hqualifies : Qualifies request store ↔ store.instruction.isAtomic = false ∧
      storeReq.isMasked = false ∧ store.instruction.effAddr.toNat ≤ request.vaddr.toNat ∧
        request.vaddr.toNat + request.size ≤ store.instruction.effAddr.toNat + store.size := by
    rw [← covers_iff hsize]
    constructor
    · exact fun h => ⟨h.notAtomic, h.notMasked storeReq hreq, h.covers⟩
    · rintro ⟨hatomic, hmasked, hcovers⟩
      refine ⟨hatomic, ?_, hcovers⟩
      rw [hreq]
      rintro _ ⟨⟩
      exact hmasked
  rw [hqualifies, overlaps_iff hsize hstore]
  unfold coverage
  simp only [hllsc, BitVec.le_def, BitVec.lt_def, toNat_add_ofNat hwrap.load,
    toNat_add_ofNat hwrap.store]
  cases hatomic : store.instruction.isAtomic <;> cases hmasked : storeReq.isMasked <;>
    simp <;> split_ifs <;> simp <;> omega

end Coverage

end LSQUnit
