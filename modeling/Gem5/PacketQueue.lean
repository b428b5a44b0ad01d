/-
# Packet queues of ports

Model of `PacketQueue` (mem/packet_queue.cc, packet_queue.hh): packets wait in a list for
the tick at which they may be sent, and one event of the queue sends the front of the list.
If the other side refuses a packet, the queue waits for a retry.

A send is answered by the other side at once, and does not come back to the queue.  Ticks
do not wrap.  The packets that were put in and those that were sent are kept as a history;
a step returns `none` where an assert fails or the queue has grown too long.
-/
import Mathlib.Data.List.DropRight
import Gem5.Run

namespace PacketQueue

/-- A packet; `id` tells packets of the same address apart. -/
structure Packet where
  id : ℕ
  addr : BitVec 64
  isSecure : Bool
  isExpressSnoop : Bool
  deriving DecidableEq

/-- `matchAddr(pkt)`: the same address in the same address space. -/
def Packet.matchAddr (p pkt : Packet) : Bool := p.addr == pkt.addr && p.isSecure == pkt.isSecure

structure DeferredPacket where
  tick : ℕ
  pkt : Packet
  deriving DecidableEq

/-- `MaxTick` -/
def maxTick : ℕ := 2 ^ 64 - 1

/-- The parameters of a queue. -/
structure Params where
  forceOrder : Bool
  disableSanityCheck : Bool

variable (p : Params)

/-- The search for the place of a packet goes on over packets that are sent later, unless
they have to stay in front of it. -/
def passes (dp d : DeferredPacket) : Bool :=
  !((p.forceOrder && d.pkt.matchAddr dp.pkt) || d.tick ≤ dp.tick)

structure Queue where
  transmitList : List DeferredPacket
  /-- When the send event is scheduled. -/
  sendEvent : Option ℕ
  waitingOnRetry : Bool
  curTick : ℕ
  enqueued : List Packet
  sent : List Packet

namespace Queue

def new : Queue := ⟨[], none, false, 0, [], []⟩

variable (q : Queue)

def deferredPacketReadyTime : ℕ := (q.transmitList.head?.map DeferredPacket.tick).getD maxTick

def schedSendEvent (tick : ℕ) : Option Queue :=
  if q.waitingOnRetry then
    if q.sendEvent.isSome then none else some q
  else if tick ≠ maxTick then
    -- one tick in the future at least
    let tick := max tick (q.curTick + 1)
    match q.sendEvent with
    | none => some { q with sendEvent := some tick }
    | some w => some (if tick < w then { q with sendEvent := some tick } else q)
  else some q

/-- A packet is put in behind the last one that it does not pass. -/
def schedSendTiming (p : Params) (q : Queue) (pkt : Packet) (tick : ℕ) : Option Queue :=
  if tick < q.curTick then none
  else if pkt.isExpressSnoop then none
  else if !p.disableSanityCheck && 1024 < q.transmitList.length then none
  else
    let dp : DeferredPacket := ⟨tick, pkt⟩
    let before := q.transmitList.rdropWhile (passes p dp)
    let q := { q with
      transmitList := before ++ dp :: q.transmitList.rtakeWhile (passes p dp)
      enqueued := q.enqueued ++ [pkt] }
    if before.isEmpty then q.schedSendEvent tick else some q

/-- `sendDeferredPacket()`, with the answer of the other side. -/
def sendDeferredPacket (accepted : Bool) : Option Queue :=
  if q.waitingOnRetry then none
  else
    match q.transmitList with
    | [] => none
    | dp :: rest =>
      if q.curTick < dp.tick then none
      else if accepted then
        let q := { q with transmitList := rest, sent := q.sent ++ [dp.pkt] }
        q.schedSendEvent q.deferredPacketReadyTime
      else
        -- the packet goes back to the front of the list
        some { q with waitingOnRetry := true }

/-- The send event is taken from the event queue and processed. -/
def processSendEvent (accepted : Bool) : Option Queue :=
  if q.waitingOnRetry then none else { q with sendEvent := none }.sendDeferredPacket accepted

def retry (accepted : Bool) : Option Queue :=
  if !q.waitingOnRetry then none
  else { q with waitingOnRetry := false }.sendDeferredPacket accepted

end Queue

/-! ## Steps -/

inductive Step where
  | schedSendTiming (pkt : Packet) (tick : ℕ)
  | processSendEvent (accepted : Bool)
  | retry (accepted : Bool)
  | advance (tick : ℕ)

def Queue.step (q : Queue) : Step → Option Queue
  | .schedSendTiming pkt tick => q.schedSendTiming p pkt tick
  | .processSendEvent accepted => q.processSendEvent accepted
  | .retry accepted => q.retry accepted
  | .advance tick => some { q with curTick := tick }

/-- A packet is not scheduled in the past, is no express snoop, and the queue has not
grown too long; the event is processed at its tick, a retry comes when the queue waits for
one, and time does not pass a scheduled event. -/
def Queue.Asserts (q : Queue) : Step → Prop
  | .schedSendTiming pkt tick => q.curTick ≤ tick ∧ tick ≤ maxTick ∧ pkt.isExpressSnoop = false ∧
      (p.disableSanityCheck = false → q.transmitList.length ≤ 1024)
  | .processSendEvent _ => q.sendEvent = some q.curTick
  | .retry _ => q.waitingOnRetry
  | .advance tick => q.curTick ≤ tick ∧ tick < maxTick ∧ ∀ w, q.sendEvent = some w → tick ≤ w

/-- And no packet is scheduled at `MaxTick`, which means never. -/
def Queue.Allowed (q : Queue) (a : Step) : Prop :=
  q.Asserts p a ∧ ∀ pkt, a ≠ .schedSendTiming pkt maxTick

end PacketQueue
