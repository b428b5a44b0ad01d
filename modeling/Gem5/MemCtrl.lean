/-
# A memory controller

Model of `MemCtrl` (mem/mem_ctrl.cc, mem_ctrl.hh) with one memory interface, in timing
mode.  A packet of the system is split into bursts.  A write is answered at once and its
bursts wait in the write queue, one for each burst of the memory; a burst that is read is
served from the write queue if it can, and waits in the read queue otherwise.  A
`BurstHelper` counts how many bursts of a packet have been served.

The numbers of the system packets stand for their pointers.  Which burst is issued next is
an input: the direction of the bus and `chooseNext` depend on times, which are left out, as
are statistics, refreshes and draining.  A function returns `none` where the source panics,
where an assert fails, and where memory would be used that is not allocated.
-/
import Gem5.QoSMemCtrl
import Gem5.Store

namespace MemCtrl

open QoSMemCtrl

structure Packet where
  addr : Addr
  size : BitVec 32
  isRead : Bool
  isWrite : Bool
  cacheResponding : Bool
  requestorId : ℕ

structure BurstHelper where
  burstCount : ℕ
  burstsServiced : ℕ
  deriving DecidableEq

/-- The parameters of the controller and of its interface. -/
structure Params where
  /-- `bytesPerBurst()` -/
  burstSize : BitVec 32
  burstSize_pow : isPowerOf2 burstSize.toNat
  readBufferSize : ℕ
  writeBufferSize : ℕ
  /-- `getAddrRange().contains(addr)` -/
  contains : Addr → Bool
  qosSyncroScheduler : Bool
  qosPriorityEscalation : Bool

/-! ## Bursts -/

namespace Params

variable (P : Params)

/-- `burst_size - 1` -/
def burstMask : Addr := (P.burstSize - 1).setWidth 64

def burstAlign (addr : Addr) : Addr := addr &&& ~~~ P.burstMask

/-- Where the next burst starts. -/
def nextBurst (addr : Addr) : Addr := (addr ||| P.burstMask) + 1

/-- How much of a packet is in the burst that starts at an address. -/
def burstLen (pkt : Packet) (addr : Addr) : BitVec 32 :=
  let stop := pkt.addr + pkt.size.setWidth 64
  ((if stop < P.nextBurst addr then stop else P.nextBurst addr) - addr).setWidth 32

/-- `divCeil(offset + size, burst_size)`, all of them `unsigned` -/
def pktCount (pkt : Packet) : BitVec 32 :=
  let offset := (pkt.addr &&& P.burstMask).setWidth 32
  (offset + pkt.size + P.burstSize - 1) / P.burstSize

end Params

/-- `decodePacket(pkt, addr, size, is_read)`, without the rank, the bank and the row -/
def decodePacket {n : ℕ} (ptr : ℕ) (pkt : Packet) (prio : Fin n) (dir : BusState) (addr : Addr)
    (size : BitVec 32) : MemPacket n :=
  { pkt := ptr, dir := dir, requestorId := pkt.requestorId, addr := addr, size := size,
    burstHelper := none, qosValue := prio }

/-- Is a read subsumed in a write? -/
def subsumes {n : ℕ} (addr : Addr) (size : BitVec 32) (p : MemPacket n) : Bool :=
  p.addr ≤ addr && addr + size.setWidth 64 ≤ p.addr + p.size.setWidth 64

/-! ## The controller -/

structure State (n : ℕ) where
  queues : Queues n
  respQueue : List (MemPacket n)
  isInWriteQueue : Finset Addr
  /-- `readQueueSize` and `writeQueueSize` of the interface -/
  intrQueueSize : BusState → ℕ
  retryRdReq : Bool
  retryWrReq : Bool
  helpers : Store BurstHelper
  /-- The packets that were accepted. -/
  packets : List Packet
  /-- The packets that were answered. -/
  responded : List ℕ

namespace State

variable {n : ℕ}

def new : State n := ⟨Queues.new, [], ∅, fun _ => 0, false, false, ⟨[]⟩, [], []⟩

variable (P : Params) (s : State n)

def readQueueFull (neededEntries : ℕ) : Bool :=
  P.readBufferSize < s.queues.totalQueueSize .READ + s.respQueue.length + neededEntries

def writeQueueFull (neededEntries : ℕ) : Bool :=
  P.writeBufferSize < s.queues.totalQueueSize .WRITE + neededEntries

/-- The access is made and the packet becomes a response. -/
def accessAndRespond (ptr : ℕ) : Option (State n) :=
  (s.packets[ptr]?).bind fun pkt =>
    if P.contains pkt.addr then some { s with responded := s.responded ++ [ptr] } else none

/-- A burst is put into its queue. -/
def enqueue (m : MemPacket n) : State n :=
  { s with
    queues := s.queues.enqueue m
    intrQueueSize := Function.update s.intrQueueSize m.dir (s.intrQueueSize m.dir + 1) }

/-- How often a read is found in the write queues: the search stops in the queue of a
priority at the first match, and goes on with the queues of the other priorities. -/
def foundInWrQ (addr : Addr) (size : BitVec 32) : ℕ :=
  if P.burstAlign addr ∈ s.isInWriteQueue then
    (List.finRange n).countP fun i => (s.queues.queue (.WRITE, i)).any (subsumes addr size)
  else 0

end State

/-! ## Accepting packets -/

/-- The variables of the loop of `addToReadQueue`. -/
structure ReadLoop (n : ℕ) where
  ctrl : State n
  addr : Addr
  pktsServicedByWrQ : ℕ
  burstHelper : Option ℕ

/-- The helper for a packet that is split, made for its first burst that is not found. -/
def ReadLoop.makeHelper {n : ℕ} (l : ReadLoop n) (pktCount : ℕ) : ReadLoop n :=
  if 1 < pktCount ∧ l.burstHelper = none then
    { l with
      ctrl := { l.ctrl with helpers := (l.ctrl.helpers.alloc ⟨pktCount, 0⟩).1 }
      burstHelper := some (l.ctrl.helpers.alloc ⟨pktCount, 0⟩).2 }
  else l

namespace State

variable {n : ℕ} (P : Params) (pkt : Packet) (ptr : ℕ)

/-- One round of the loop of `addToReadQueue`. -/
def readBurst (prio : Fin n) (pktCount : ℕ) (l : ReadLoop n) (_cnt : ℕ) : Option (ReadLoop n) :=
  let size := P.burstLen pkt l.addr
  let found := l.ctrl.foundInWrQ P l.addr size
  if found ≠ 0 then
    some { l with
      pktsServicedByWrQ := l.pktsServicedByWrQ + found
      addr := P.nextBurst l.addr }
  else
    let l := l.makeHelper pktCount
    let m : MemPacket n :=
      { decodePacket ptr pkt prio .READ l.addr size with burstHelper := l.burstHelper }
    if l.ctrl.readQueueFull P 1 then none
    else some { l with ctrl := l.ctrl.enqueue m, addr := P.nextBurst l.addr }

variable (s : State n)

def addToReadQueue (ptr : ℕ) (pkt : Packet) (prio : Fin n) (pktCount : ℕ) : Option (State n) :=
  if pkt.isWrite then none
  else if pktCount = 0 then none
  else
    (runSteps (readBurst P pkt ptr prio pktCount) ⟨s, pkt.addr, 0, none⟩
        (List.range pktCount)).bind fun l =>
      if l.pktsServicedByWrQ = pktCount then l.ctrl.accessAndRespond P ptr
      else match l.burstHelper with
        | none => some l.ctrl
        | some h =>
          (l.ctrl.helpers.modify h fun b => { b with burstsServiced := l.pktsServicedByWrQ }).map
            fun helpers => { l.ctrl with helpers := helpers }

/-- One round of the loop of `addToWriteQueue`. -/
def writeBurst (prio : Fin n) (l : State n × Addr) (_cnt : ℕ) : Option (State n × Addr) :=
  let s := l.1
  if P.burstAlign l.2 ∈ s.isInWriteQueue then
    -- the burst is merged with the one that waits
    some (s, P.nextBurst l.2)
  else
    let m := decodePacket ptr pkt prio .WRITE l.2 (P.burstLen pkt l.2)
    if P.writeBufferSize ≤ s.queues.totalQueueSize .WRITE then none
    else
      let s : State n :=
        { s.enqueue m with isInWriteQueue := insert (P.burstAlign l.2) s.isInWriteQueue }
      if s.queues.totalQueueSize .WRITE ≠ s.isInWriteQueue.card then none
      else some (s, P.nextBurst l.2)

def addToWriteQueue (ptr : ℕ) (pkt : Packet) (prio : Fin n) (pktCount : ℕ) : Option (State n) :=
  if !pkt.isWrite then none
  else
    (runSteps (writeBurst P pkt ptr prio) (s, pkt.addr) (List.range pktCount)).bind fun l =>
      l.1.accessAndRespond P ptr

/-- The part of `recvTimingReq` behind the scheduling: a packet for which there is room in
the queues is accepted, another one has to be sent again. -/
def addOrRefuse (pkt : Packet) (prio : Fin n) : Option (State n × Bool) :=
  let pktCount := (P.pktCount pkt).toNat
  let accepted := { s with packets := s.packets ++ [pkt] }
  if pkt.size = 0 then none
  else if pkt.isWrite then
    if s.writeQueueFull P pktCount then some ({ s with retryWrReq := true }, false)
    else (accepted.addToWriteQueue P s.packets.length pkt prio pktCount).map (·, true)
  else
    if s.readQueueFull P pktCount then some ({ s with retryRdReq := true }, false)
    else (accepted.addToReadQueue P s.packets.length pkt prio pktCount).map (·, true)

/-- `recvTimingReq(pkt)`, with the priorities that the policy gives; returns whether the
packet was accepted. -/
def recvTimingReq (pkt : Packet) (prio : Fin n)
    (others : List (ℕ × Fin n)) : Option (State n × Bool) :=
  if pkt.cacheResponding then none
  else if !(pkt.isRead || pkt.isWrite) then none
  else if !P.contains pkt.addr then none
  else
    (s.queues.qosSchedule P.qosSyncroScheduler P.qosPriorityEscalation P.burstSize.toNat
        pkt.requestorId prio others).bind fun queues =>
      { s with queues := queues }.addOrRefuse P pkt prio

/-! ## Issuing bursts and answering reads -/

/-- A request that had to wait for room in the write queue is asked for again. -/
def retryWrite : State n :=
  if s.retryWrReq && s.intrQueueSize .WRITE < P.writeBufferSize then
    { s with retryWrReq := false }
  else s

/-- `processNextReqEvent()`, once the burst has been chosen: the direction of the bus, the
priority of the queue and the position in it. -/
def processNextReqEvent (dir : BusState) (prio : Fin n) (it : ℕ) : Option (State n) :=
  ((s.queues.queue (dir, prio))[it]?).bind fun m =>
    if P.burstSize < m.size then none
    else
      (s.queues.dequeue dir prio it m).map fun queues =>
        let s := { s with
          queues := queues
          intrQueueSize := Function.update s.intrQueueSize dir (s.intrQueueSize dir - 1) }
        retryWrite P (match dir with
          | .READ => { s with respQueue := s.respQueue ++ [m] }
          | .WRITE => { s with isInWriteQueue := s.isInWriteQueue.erase (P.burstAlign m.addr) })

/-- A burst of a packet has been served. -/
def serveBurst (m : MemPacket n) : Option (State n) :=
  match m.burstHelper with
  | none => s.accessAndRespond P m.pkt
  | some h =>
    (s.helpers.read h).bind fun b =>
      let b := { b with burstsServiced := b.burstsServiced + 1 }
      if b.burstsServiced = b.burstCount then
        (s.accessAndRespond P m.pkt).map fun s => { s with helpers := s.helpers.free h }
      else some { s with helpers := s.helpers.write h b }

def processRespondEvent : Option (State n) :=
  match s.respQueue with
  | [] => none
  | m :: rest =>
    (s.serveBurst P m).map fun s => { s with respQueue := rest, retryRdReq := false }

end State

end MemCtrl
