/-
# The MSHR queue of a cache

Model of the queue of miss status and handling registers: `Queue` (mem/cache/queue.hh),
`MSHRQueue` (mem/cache/mshr_queue.cc) and what they use of `MSHR` (mem/cache/mshr.cc,
mshr.hh).

Entries sit in a fixed array; the allocated, ready and free lists hold pointers to them,
and an entry keeps an iterator into the first two.  A step returns `none` where an assert
fails, where `addToReadyList` panics, or where a dangling iterator is used.  Besides the
operations of the queue, `Step` has those by which a cache changes the targets of an
entry in between.
-/
import Gem5.NodeList
import Gem5.Run

namespace MSHRQueue

/-! ## Targets -/

/-- What a target list asks a packet.  A write request needs a writable block or comes
from a cache (the attributes of the commands in mem/packet.cc). -/
structure Packet where
  isHardPFReq : Bool
  needsWritable : Bool
  /-- An upgrade, or a store conditional. -/
  isUpgrade : Bool
  fromCache : Bool
  isWrite : Bool
  isMaskedWrite : Bool
  /-- One of the flags that forbid merging is set. -/
  noMerge : Bool
  isCacheMaintenance : Bool
  offset : ℕ
  size : ℕ
  write_attributes : isWrite → needsWritable ∨ fromCache

/-- Where a target comes from. -/
inductive Source where
  | fromCPU
  | fromSnoop
  | fromPrefetcher
  deriving DecidableEq

/-- A packet that waits for the block. -/
structure Target where
  pkt : Packet
  readyTime : ℕ
  order : ℕ
  source : Source
  allocOnFill : Bool

/-- Targets with flags that sum them up. -/
structure TargetList where
  list : List Target
  needsWritable : Bool
  hasUpgrade : Bool
  allocOnFill : Bool
  hasFromCache : Bool
  canMergeWrites : Bool
  writesBitmap : List Bool

namespace TargetList

/-- `TargetList(name)`; `init` comes before the first use. -/
def new : TargetList := ⟨[], false, false, false, false, true, []⟩

variable (l : TargetList)

/-- No flag is set. -/
def resetFlags : TargetList :=
  { l with
    canMergeWrites := true
    writesBitmap := l.writesBitmap.map fun _ => false
    needsWritable := false
    hasUpgrade := false
    allocOnFill := false
    hasFromCache := false }

/-- The bitmap gets the size of a block. -/
def init (blkSize : ℕ) : TargetList :=
  resetFlags { l with writesBitmap := List.replicate blkSize false }

/-- The bitmap is not looked at. -/
def isReset : Bool :=
  !l.needsWritable && !l.hasUpgrade && !l.allocOnFill && !l.hasFromCache && l.canMergeWrites

/-- All bytes are written. -/
def isWholeLineWrite : Bool := l.writesBitmap.all id

/-- Mark the bytes of a write. -/
def updateWriteFlags (pkt : Packet) : TargetList :=
  if l.isWholeLineWrite then l
  else if l.canMergeWrites then
    if !pkt.isWrite then { l with canMergeWrites := false }
    else
      -- the first write may be a whole line write even if nothing can be merged with it
      let firstWrite := l.list.isEmpty
      let bitmap :=
        if !pkt.isMaskedWrite && (firstWrite || !pkt.noMerge) then
          l.writesBitmap.mapIdx fun k b => b || (pkt.offset ≤ k && k < pkt.offset + pkt.size)
        else l.writesBitmap
      { l with writesBitmap := bitmap, canMergeWrites := l.canMergeWrites && !pkt.noMerge }
  else l

/-- Add up the flags of one more target. -/
def updateFlags (pkt : Packet) (source : Source) (allocOnFill : Bool) : TargetList :=
  if source ≠ .fromSnoop then
    let l :=
      { l with
        needsWritable := l.needsWritable || pkt.needsWritable
        hasUpgrade := l.hasUpgrade || pkt.isUpgrade
        allocOnFill := l.allocOnFill || allocOnFill }
    if source ≠ .fromPrefetcher then
      updateWriteFlags { l with hasFromCache := l.hasFromCache || pkt.fromCache } pkt
    else l
  else l

/-- The flags of the list, anew. -/
def populateFlags : TargetList :=
  l.list.foldl (fun l t => l.updateFlags t.pkt t.source t.allocOnFill) l.resetFlags

/-- A target at the end. -/
def add (t : Target) : TargetList :=
  let l := l.updateFlags t.pkt t.source t.allocOnFill
  { l with list := l.list ++ [t] }

end TargetList

/-! ## Entries -/

/-- An entry of the queue. -/
structure MSHR where
  readyTime : ℕ
  order : ℕ
  inService : Bool
  allocIter : ℕ
  readyIter : ℕ
  targets : TargetList
  deferredTargets : TargetList

namespace MSHR

/-- An entry that is free. -/
def new : MSHR := ⟨0, 0, false, 0, 0, .new, .new⟩

variable (m : MSHR)

/-- Targets of both lists. -/
def getNumTargets : ℕ := m.targets.list.length + m.deferredTargets.list.length

/-- There is a target to serve. -/
def hasTargets : Bool := !m.targets.list.isEmpty

/-- The packet is the first target. -/
def allocate (blkSize : ℕ) (pkt : Packet) (whenReady order : ℕ) (allocOnFill : Bool) : MSHR :=
  { m with
    readyTime := whenReady
    order := order
    inService := false
    targets := (m.targets.init blkSize).add
      { pkt := pkt
        readyTime := whenReady
        order := order
        source := if pkt.isHardPFReq then .fromPrefetcher else .fromCPU
        allocOnFill := allocOnFill }
    deferredTargets := m.deferredTargets.init blkSize }

/-- Nothing may be left. -/
def deallocate : Option MSHR :=
  if m.targets.list = [] ∧ m.deferredTargets.isReset then
    some { m with targets := m.targets.resetFlags, inService := false }
  else none

/-- The request is sent. -/
def markInService : Option MSHR :=
  if m.inService then none else some { m with inService := true }

/-- Not before it is ready. -/
def delay (curTick delayTicks : ℕ) : Option MSHR :=
  if m.readyTime ≤ curTick then some { m with readyTime := curTick + delayTicks } else none

/-- The first target is done. -/
def popTarget : MSHR := { m with targets := { m.targets with list := m.targets.list.tail } }

/-- A target goes to one of the two lists.  Which one depends on the state of the request
(`allocateTarget`, mshr.cc:399-405), and is left open. -/
def allocateTarget (deferred : Bool) (t : Target) : MSHR :=
  if deferred then { m with deferredTargets := m.deferredTargets.add t }
  else { m with targets := m.targets.add t }

/-- `extractServiceableTargets` leaves some of the targets. -/
def extractServiceableTargets (rest : List Target) : MSHR :=
  { m with targets := TargetList.populateFlags { m.targets with list := rest } }

/-- The targets and the deferred targets after `promoteDeferredTargets`: deferred targets
go up to the first cache maintenance request, and that one goes alone. -/
def promoted (targets deferred : List Target) : List Target × List Target :=
  let first := deferred.takeWhile fun t => !t.pkt.isCacheMaintenance
  if !first.isEmpty then
    (targets ++ first, deferred.dropWhile fun t => !t.pkt.isCacheMaintenance)
  else if targets.isEmpty then (deferred.take 1, deferred.drop 1)
  else (targets, deferred)

/-- The result says if there was anything to promote. -/
def promoteDeferredTargets (curTick : ℕ) : Option (Bool × MSHR) :=
  if m.targets.list.isEmpty && m.deferredTargets.list.isEmpty then some (false, m)
  else
    let lists := promoted m.targets.list m.deferredTargets.list
    match lists.1 with
    | [] => none
    | front :: _ =>
      some (true,
        { m with
          targets := TargetList.populateFlags { m.targets with list := lists.1 }
          deferredTargets := TargetList.populateFlags { m.deferredTargets with list := lists.2 }
          order := front.order
          readyTime := max curTick front.readyTime })

end MSHR

/-! ## The queue -/

/-- A queue of `n` entries, the reserve among them, and the time. -/
structure Queue (n : ℕ) where
  numReserve : ℕ
  entries : Fin n → MSHR
  allocatedList : NodeList (Fin n)
  readyList : NodeList (Fin n)
  freeList : List (Fin n)
  numInService : ℤ
  allocated : ℤ
  curTick : ℕ

namespace Queue

variable {n : ℕ}

/-- `Queue(label, num_entries, reserve, name)` -/
def new (numEntries reserve : ℕ) : Queue (numEntries + reserve) where
  numReserve := reserve
  entries := fun _ => .new
  allocatedList := .empty
  readyList := .empty
  freeList := List.finRange (numEntries + reserve)
  numInService := 0
  allocated := 0
  curTick := 0

variable (q : Queue n)

/-- The reserve is not given out. -/
def isFull : Bool := (n : ℤ) - q.numReserve ≤ q.allocated

section

variable (i : Fin n)

/-- When an entry is ready. -/
def readyTime : ℕ := (q.entries i).readyTime

/-- Change an entry. -/
def setEntry (m : MSHR) : Queue n :=
  { q with entries := Function.update q.entries i m }

/-- The ready list with the entry; its iterator is the new node. -/
def addToReadyList : Option (NodeList (Fin n)) :=
  if q.readyList.items.getLast?.all fun back => q.readyTime back ≤ q.readyTime i then
    some (q.readyList.pushBack i)
  else if q.readyList.items.any fun j => q.readyTime i < q.readyTime j then
    some (q.readyList.insertWhere (fun node => q.readyTime i < q.readyTime node.2) i)
  else none

/-- The front of the ready list, if it is time. -/
def getNext : Option (Fin n) :=
  match q.readyList.items with
  | [] => none
  | front :: _ => if q.curTick < q.readyTime front then none else some front

/-- Take an entry from the free list. -/
def allocate (blkSize : ℕ) (pkt : Packet) (whenReady order : ℕ)
    (allocOnFill : Bool) : Option (Queue n × Fin n) :=
  match q.freeList with
  | [] => none
  | i :: freeList =>
    if (q.entries i).getNumTargets ≠ 0 then none
    else
      let m := (q.entries i).allocate blkSize pkt whenReady order allocOnFill
      let q := { q with freeList := freeList }.setEntry i
        { m with allocIter := q.allocatedList.fresh, readyIter := q.readyList.fresh }
      (q.addToReadyList i).map fun readyList =>
        ({ q with
            allocatedList := q.allocatedList.pushBack i
            readyList := readyList
            allocated := q.allocated + 1 }, i)

/-- The ready list without the entry; one in service is not on it. -/
def readyWithout : Option (NodeList (Fin n)) :=
  if (q.entries i).inService then some q.readyList
  else q.readyList.erase (q.entries i).readyIter

/-- The entry goes back to the free list. -/
def deallocate : Option (Queue n) := do
  let allocatedList ← q.allocatedList.erase (q.entries i).allocIter
  let readyList ← q.readyWithout i
  let m ← (q.entries i).deallocate
  some ({ q with
    allocatedList := allocatedList
    readyList := readyList
    freeList := i :: q.freeList
    allocated := q.allocated - 1
    numInService := if (q.entries i).inService then q.numInService - 1 else q.numInService
    }.setEntry i m)

/-- The entry is next. -/
def moveToFront : Option (Queue n) :=
  if (q.entries i).inService then some q
  else if q.readyList.deref (q.entries i).readyIter ≠ some i then none
  else do
    let readyList ← q.readyList.erase (q.entries i).readyIter
    some ({ q with readyList := readyList.pushFront i }.setEntry i
      { q.entries i with readyIter := readyList.fresh })

/-- The entry is put before the first one, from itself on, that is ready as early. -/
def delay (delayTicks : ℕ) : Option (Queue n) := do
  let m ← (q.entries i).delay q.curTick delayTicks
  let q := q.setEntry i m
  let pos ← q.readyList.findFrom m.readyIter fun j => q.readyTime j ≤ m.readyTime
  let readyList ← q.readyList.splice pos m.readyIter
  some { q with readyList := readyList }

/-- The entry leaves the ready list. -/
def markInService : Option (Queue n) := do
  let m ← (q.entries i).markInService
  let readyList ← q.readyList.erase m.readyIter
  some ({ q with readyList := readyList, numInService := q.numInService + 1 }.setEntry i m)

/-- The entry comes back to the ready list. -/
def markPending : Option (Queue n) :=
  if !(q.entries i).inService then none
  else
    let q := q.setEntry i { q.entries i with inService := false, readyIter := q.readyList.fresh }
    (q.addToReadyList i).map fun readyList =>
      { q with readyList := readyList, numInService := q.numInService - 1 }

/-- `forceDeallocateTarget` without its result. -/
def dropTarget : Option (Queue n) :=
  let m := (q.entries i).popTarget
  if m.hasTargets then some (q.setEntry i m)
  else
    (m.promoteDeferredTargets q.curTick).bind fun r =>
      if r.1 then some (q.setEntry i r.2) else (q.setEntry i r.2).deallocate i

/-- The result says if the queue is no longer full. -/
def forceDeallocateTarget : Option (Queue n × Bool) :=
  if !(q.entries i).hasTargets then none
  else (q.dropTarget i).map fun q' => (q', q.isFull && !q'.isFull)

end

end Queue

/-! ## Steps -/

/-- A call of the cache. -/
inductive Step (n : ℕ) where
  | allocate (blkSize : ℕ) (pkt : Packet) (whenReady order : ℕ) (allocOnFill : Bool)
  | deallocate (i : Fin n)
  | markInService (i : Fin n)
  | markPending (i : Fin n)
  | delay (i : Fin n) (delayTicks : ℕ)
  | moveToFront (i : Fin n)
  | forceDeallocateTarget (i : Fin n)
  /-- Time passes. -/
  | advance (ticks : ℕ)
  /-- The cache adds a target to an entry. -/
  | allocateTarget (i : Fin n) (deferred : Bool) (t : Target)
  /-- A response serves all targets of an entry but `rest`. -/
  | extractServiceableTargets (i : Fin n) (rest : List Target)
  /-- After a response the deferred targets are next. -/
  | promoteDeferredTargets (i : Fin n)

variable {n : ℕ}

/-- The queue after a call. -/
def Queue.step (q : Queue n) : Step n → Option (Queue n)
  | .allocate blkSize pkt whenReady order allocOnFill =>
    (q.allocate blkSize pkt whenReady order allocOnFill).map Prod.fst
  | .deallocate i => q.deallocate i
  | .markInService i => q.markInService i
  | .markPending i => q.markPending i
  | .delay i delayTicks => q.delay i delayTicks
  | .moveToFront i => q.moveToFront i
  | .forceDeallocateTarget i => (q.forceDeallocateTarget i).map Prod.fst
  | .advance ticks => some { q with curTick := q.curTick + ticks }
  | .allocateTarget i deferred t => some (q.setEntry i ((q.entries i).allocateTarget deferred t))
  | .extractServiceableTargets i rest =>
    some (q.setEntry i ((q.entries i).extractServiceableTargets rest))
  | .promoteDeferredTargets i =>
    ((q.entries i).promoteDeferredTargets q.curTick).map fun r => q.setEntry i r.2

/-- What a step takes for granted: the queue is not full, the entry is allocated, and it is
in the state that the operation asserts. -/
def Queue.Asserts (q : Queue n) : Step n → Prop
  | .allocate .. => q.isFull = false
  | .deallocate i => i ∈ q.allocatedList.items ∧ (q.entries i).targets.list = [] ∧
      (q.entries i).deferredTargets.isReset
  | .markInService i => i ∈ q.allocatedList.items ∧ (q.entries i).inService = false
  | .markPending i => i ∈ q.allocatedList.items ∧ (q.entries i).inService
  | .delay i _ => i ∈ q.allocatedList.items ∧ (q.entries i).readyTime ≤ q.curTick
  | .moveToFront i => i ∈ q.allocatedList.items
  | .forceDeallocateTarget i => i ∈ q.allocatedList.items ∧ (q.entries i).hasTargets
  | .advance _ => True
  | .allocateTarget i _ t => i ∈ q.allocatedList.items ∧ t.source = .fromCPU ∧
      (q.entries i).deferredTargets.writesBitmap ≠ []
  | .extractServiceableTargets i rest => i ∈ q.allocatedList.items ∧
      rest.Sublist (q.entries i).targets.list
  | .promoteDeferredTargets i => i ∈ q.allocatedList.items ∧ (q.entries i).inService

/-- Only an entry of the ready list is delayed. -/
def Queue.Allowed (q : Queue n) (a : Step n) : Prop :=
  q.Asserts a ∧ ∀ i ticks, a = .delay i ticks → (q.entries i).inService = false

end MSHRQueue
