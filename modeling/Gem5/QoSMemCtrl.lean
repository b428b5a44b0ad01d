/-
# The queues of a memory controller

Model of `qos::MemCtrl` (mem/qos/mem_ctrl.cc, mem_ctrl.hh), the base class of memory
controllers, together with the read and write queues that its functions are given.

The priorities that a policy gives are inputs.  Of the request times only their number is
kept.  A function returns `none` where the source panics or does not come to an end.
-/
import Gem5.Bitfield
import Gem5.QueueBank
import Gem5.Run

open Function List

namespace QoSMemCtrl

open scoped List

inductive BusState where
  | READ
  | WRITE
  deriving DecidableEq

/-- What does not change when a `MemPacket` gets another priority. -/
structure Burst where
  /-- The number of the packet of the system that it is part of. -/
  pkt : ℕ
  /-- `isRead()` or `isWrite()` -/
  dir : BusState
  requestorId : ℕ
  addr : Addr
  size : BitVec 32
  burstHelper : Option ℕ
  deriving DecidableEq

structure MemPacket (n : ℕ) extends Burst where
  qosValue : Fin n
  deriving DecidableEq

/-- `readQueue` and `writeQueue`, with the counters of `qos::MemCtrl`. -/
structure Queues (n : ℕ) where
  queue : BusState × Fin n → List (MemPacket n)
  queueSizes : BusState × Fin n → ℕ
  totalQueueSize : BusState → ℕ
  packetPriorities : ℕ × Fin n → ℕ
  requestTimes : ℕ × Addr → ℕ
  requestors : Finset ℕ

/-- `divCeil(a, b)` of base/intmath.hh, where nothing wraps around. -/
def divCeil (a b : ℕ) : ℕ := (a + b - 1) / b

namespace Queues

variable {n : ℕ} {b : Burst}

def new : Queues n := ⟨fun _ => [], fun _ => 0, fun _ => 0, fun _ => 0, fun _ => 0, ∅⟩

variable (q : Queues n)

def addRequestor (id : ℕ) : Queues n :=
  { q with requestors := insert id q.requestors }

variable (dir : BusState)

def logRequest (id : ℕ) (qos : Fin n) (addr : Addr) (entries : ℕ) : Queues n :=
  { q.addRequestor id with
    queueSizes := update q.queueSizes (dir, qos) (q.queueSizes (dir, qos) + entries)
    totalQueueSize := update q.totalQueueSize dir (q.totalQueueSize dir + entries)
    packetPriorities :=
      update q.packetPriorities (id, qos) (q.packetPriorities (id, qos) + entries)
    requestTimes := update q.requestTimes (id, addr) (q.requestTimes (id, addr) + entries) }

def logResponse (id : ℕ) (qos : Fin n) (addr : Addr) (entries : ℕ) : Option (Queues n) :=
  if id ∉ q.requestors then none
  else if q.packetPriorities (id, qos) = 0 then none
  else if q.requestTimes (id, addr) < entries then none
  else some { q with
    queueSizes := update q.queueSizes (dir, qos) (q.queueSizes (dir, qos) - entries)
    totalQueueSize := update q.totalQueueSize dir (q.totalQueueSize dir - entries)
    packetPriorities :=
      update q.packetPriorities (id, qos) (q.packetPriorities (id, qos) - entries)
    requestTimes := update q.requestTimes (id, addr) (q.requestTimes (id, addr) - entries) }

/-- `queues[m->qosValue()].push_back(m)` -/
def pushBack (m : MemPacket n) : Queues n :=
  { q with queue :=
      update q.queue (m.dir, m.qosValue) (q.queue (m.dir, m.qosValue) ++ [m]) }

/-- `queues[m->qosValue()].erase(it)`, for the iterator to a position in the queue of a
priority: an iterator into another queue must not be erased. -/
def erase (prio : Fin n) (it : ℕ) (m : MemPacket n) : Option (Queues n) :=
  if m.qosValue ≠ prio then none
  else some { q with
    queue := update q.queue (dir, prio) ((q.queue (dir, prio)).eraseIdx it) }

/-! ## Escalation -/

/-- A packet between `before` and `after` in its queue moves to another priority. -/
def moveTo (id : ℕ) (curr tgt : Fin n) (moved : ℕ)
    (before after : List (MemPacket n)) (m : MemPacket n) : Option (Queues n) :=
  if q.queueSizes (m.dir, curr) < moved then none
  else if q.packetPriorities (id, curr) < moved then none
  else
    let sizes :=
      update q.queueSizes (m.dir, curr) (q.queueSizes (m.dir, curr) - moved)
    let priorities :=
      update q.packetPriorities (id, curr) (q.packetPriorities (id, curr) - moved)
    some { q with
      queue := update (update q.queue (dir, curr) (before ++ after)) (dir, tgt)
        (q.queue (dir, tgt) ++ [{ m with qosValue := tgt }])
      queueSizes := update sizes (m.dir, tgt) (sizes (m.dir, tgt) + moved)
      packetPriorities := update priorities (id, tgt) (priorities (id, tgt) + moved) }

/-- The loop of `escalateQueues`, with the queue of `curr` as the packets before the
iterator and those from it on. -/
def escalateFrom (entrySize : ℕ) (dir : BusState) (id : ℕ) (curr tgt : Fin n) :
    Queues n → (before after : List (MemPacket n)) → Option (Queues n)
  | q, _, [] => some q
  | q, before, m :: after =>
    if q.packetPriorities (id, curr) = 0 then some q
    else if m.requestorId = id then
      (q.moveTo dir id curr tgt (divCeil m.size.toNat entrySize) before after m).bind fun q =>
        escalateFrom entrySize dir id curr tgt q before after
    else escalateFrom entrySize dir id curr tgt q (before ++ [m]) after

variable (entrySize : ℕ)

def escalateQueues (q : Queues n) (dir : BusState) (id : ℕ) (curr tgt : Fin n) :
    Option (Queues n) :=
  escalateFrom entrySize dir id curr tgt q [] (q.queue (dir, curr))

/-- `while (packetPriorities[id][curr_prio] > 0)`: both queues are looked through.  With as
much fuel as there are packets, fuel runs out only in a loop that does not end. -/
def escalateWhile (entrySize : ℕ) (id : ℕ) (curr tgt : Fin n) : ℕ → Queues n → Option (Queues n)
  | 0, q => if q.packetPriorities (id, curr) = 0 then some q else none
  | fuel + 1, q =>
    if q.packetPriorities (id, curr) = 0 then some q
    else
      (q.escalateQueues entrySize .READ id curr tgt).bind fun q =>
        (q.escalateQueues entrySize .WRITE id curr tgt).bind fun q =>
          escalateWhile entrySize id curr tgt fuel q

def escalatePrio (id : ℕ) (tgt : Fin n) (q : Queues n) (curr : Fin n) : Option (Queues n) :=
  if curr = tgt then some q
  else escalateWhile entrySize id curr tgt (q.packetPriorities (id, curr)) q

def escalate (q : Queues n) (id : ℕ) (tgt : Fin n) : Option (Queues n) :=
  runSteps (escalatePrio entrySize id tgt) (q.addRequestor id) (List.finRange n)

/-- `qosSchedule(queues, queue_entry_size, pkt)`: the priority of the packet, and the other
requestors with the priorities that they get, are given by the policy. -/
def qosSchedule (syncroScheduler priorityEscalation : Bool) (entrySize : ℕ) (q : Queues n)
    (id : ℕ) (prio : Fin n) (others : List (ℕ × Fin n)) : Option (Queues n) :=
  if !priorityEscalation then some q
  else
    let others := if syncroScheduler then others else []
    runSteps (fun q other => escalate entrySize q other.1 other.2) q (others ++ [(id, prio)])

/-! ## What waits in the queues -/

def lanes (n : ℕ) (dir : BusState) : List (BusState × Fin n) := (List.finRange n).map (dir, ·)

theorem mem_lanes {dir d : BusState} {i : Fin n} : (d, i) ∈ lanes n dir ↔ d = dir := by
  simp [lanes, eq_comm]

def packets : List (MemPacket n) := gather (lanes n dir) q.queue

/-- The bursts that wait to be read or written. -/
def bursts : List Burst := (q.packets dir).map MemPacket.toBurst

theorem mem_packets {q : Queues n} {dir : BusState} {m : MemPacket n} :
    m ∈ q.packets dir ↔ ∃ i, m ∈ q.queue (dir, i) := by
  simp [packets, mem_gather, lanes]

theorem mem_bursts {q : Queues n} {dir : BusState} :
    b ∈ q.bursts dir ↔ ∃ i, ∃ m ∈ q.queue (dir, i), m.toBurst = b := by
  rw [bursts, mem_map]
  constructor
  · rintro ⟨m, hm, rfl⟩
    obtain ⟨i, hi⟩ := mem_packets.mp hm
    exact ⟨i, m, hi, rfl⟩
  · rintro ⟨i, m, hm, rfl⟩
    exact ⟨m, mem_packets.mpr ⟨i, hm⟩, rfl⟩

/-- How many packets of a requestor wait with a priority. -/
def heldBy (queue : BusState × Fin n → List (MemPacket n)) (id : ℕ) (i : Fin n) : ℕ :=
  (queue (.READ, i)).countP (·.requestorId = id) + (queue (.WRITE, i)).countP (·.requestorId = id)

/-- The counters count the packets in the queues, each of which waits where its direction
and its priority say, with at least one and at most `entrySize` bytes. -/
structure Counted (entrySize : ℕ) (q : Queues n) : Prop where
  queueSizes : ∀ lane, q.queueSizes lane = (q.queue lane).length
  total : ∀ d, q.totalQueueSize d = (q.bursts d).length
  priorities : ∀ id i, q.packetPriorities (id, i) = heldBy q.queue id i
  times : ∀ id a, q.requestTimes (id, a) =
    (q.bursts .READ ++ q.bursts .WRITE).countP fun b => b.requestorId = id ∧ b.addr = a
  requestors : ∀ d, ∀ b ∈ q.bursts d, b.requestorId ∈ q.requestors
  place : ∀ d i, ∀ m ∈ q.queue (d, i), m.dir = d ∧ m.qosValue = i
  size : ∀ d, ∀ b ∈ q.bursts d, 0 < b.size.toNat ∧ b.size.toNat ≤ entrySize

theorem counted_new : Counted entrySize (new : Queues n) := by
  have hbursts : ∀ d, (new : Queues n).bursts d = [] := by
    simp [bursts, packets, gather, new]
  refine ⟨fun _ => rfl, ?_, fun _ _ => rfl, ?_, ?_, by simp [new], ?_⟩
  · intro d
    rw [hbursts]
    rfl
  · intro id a
    rw [hbursts, hbursts]
    rfl
  · simp [hbursts]
  · simp [hbursts]

/-! ## Queues that change -/

section Change

variable {entrySize : ℕ} {q q' : Queues n} {m : MemPacket n} {d : BusState} {i : Fin n} {κ : Type*}

/-- `q'` holds one packet more than `q`, and counts it. -/
structure Put (m : MemPacket n) (q q' : Queues n) : Prop where
  queue : q'.queue (m.dir, m.qosValue) ~ m :: q.queue (m.dir, m.qosValue)
  other : ∀ lane, lane ≠ (m.dir, m.qosValue) → q'.queue lane = q.queue lane
  queueSizes : ∀ lane, q'.queueSizes lane =
    q.queueSizes lane + if lane = (m.dir, m.qosValue) then 1 else 0
  total : ∀ d, q'.totalQueueSize d = q.totalQueueSize d + if d = m.dir then 1 else 0
  priorities : ∀ key, q'.packetPriorities key =
    q.packetPriorities key + if key = (m.requestorId, m.qosValue) then 1 else 0
  times : ∀ key, q'.requestTimes key =
    q.requestTimes key + if key = (m.requestorId, m.addr) then 1 else 0

namespace Put

variable (h : Put m q q')

include h

variable (lane : BusState × Fin n)

theorem queue_perm :
    q'.queue lane ~ if lane = (m.dir, m.qosValue) then m :: q.queue lane else q.queue lane := by
  by_cases hlane : lane = (m.dir, m.qosValue)
  · rw [if_pos hlane, hlane]
    exact h.queue
  · rw [if_neg hlane, h.other lane hlane]

theorem countP_queue (p : MemPacket n → Bool) : (q'.queue lane).countP p =
      (q.queue lane).countP p + if lane = (m.dir, m.qosValue) ∧ p m then 1 else 0 := by
  rw [(h.queue_perm lane).countP_eq]
  by_cases hlane : lane = (m.dir, m.qosValue) <;> simp [hlane, countP_cons]

theorem length_queue : (q'.queue lane).length =
    (q.queue lane).length + if lane = (m.dir, m.qosValue) then 1 else 0 := by
  simpa using h.countP_queue lane fun _ => true

theorem heldBy_eq (id : ℕ) (j : Fin n) : heldBy q'.queue id j =
    heldBy q.queue id j + if (id, j) = (m.requestorId, m.qosValue) then 1 else 0 := by
  rw [heldBy, h.countP_queue, h.countP_queue, heldBy]
  simp only [eq_comm]
  by_cases hj : j = m.qosValue
  · cases hd : m.dir <;> simp [hj] <;> omega
  · simp [hj]

theorem bursts : q'.bursts m.dir ~ m.toBurst :: q.bursts m.dir :=
  (gather_cons_perm ((nodup_finRange n).map (Prod.mk_right_injective _)) (mem_lanes.mpr rfl)
    h.queue h.other).map MemPacket.toBurst

theorem bursts_of_ne (hd : m.dir ≠ d) : q'.bursts d = q.bursts d :=
  congrArg (map MemPacket.toBurst)
    (gather_congr fun lane hl => h.other lane fun heq => hd (mem_lanes.mp (heq ▸ hl)))

theorem length_bursts (d : BusState) :
    (q'.bursts d).length = (q.bursts d).length + if d = m.dir then 1 else 0 := by
  by_cases hd : m.dir = d
  · subst hd
    rw [h.bursts.length_eq, length_cons, if_pos rfl]
  · rw [h.bursts_of_ne hd, if_neg (Ne.symm hd), Nat.add_zero]

theorem mem_bursts : b ∈ q'.bursts d ↔ d = m.dir ∧ b = m.toBurst ∨ b ∈ q.bursts d := by
  by_cases hd : m.dir = d
  · subst hd
    simp [h.bursts.mem_iff]
  · simp [h.bursts_of_ne hd, Ne.symm hd]

theorem countP_bursts (p : Burst → Bool) : (q'.bursts .READ ++ q'.bursts .WRITE).countP p =
      (q.bursts .READ ++ q.bursts .WRITE).countP p + if p m.toBurst then 1 else 0 := by
  have hcount := h.bursts.countP_eq p
  rw [countP_cons] at hcount
  rw [countP_append, countP_append]
  cases hd : m.dir with
  | READ =>
    rw [hd] at hcount
    rw [h.bursts_of_ne (d := .WRITE) (by rw [hd]; exact nofun)]
    omega
  | WRITE =>
    rw [hd] at hcount
    rw [h.bursts_of_ne (by rw [hd]; exact nofun)]
    omega

theorem times_eq (id : ℕ) (a : Addr) : q'.requestTimes (id, a) =
    q.requestTimes (id, a) + if decide (m.requestorId = id ∧ m.addr = a) then 1 else 0 := by
  rw [h.times]
  simp only [Prod.mk.injEq, decide_eq_true_eq, eq_comm (a := id), eq_comm (a := a)]

end Put

theorem Counted.put (hq : q.Counted entrySize) (h : Put m q q') (hpos : 0 < m.size.toNat)
    (hle : m.size.toNat ≤ entrySize) (hnew : m.requestorId ∈ q'.requestors)
    (hold : q.requestors ⊆ q'.requestors) : q'.Counted entrySize where
  queueSizes lane := by rw [h.queueSizes, h.length_queue, hq.queueSizes]
  total d := by rw [h.total, h.length_bursts, hq.total]
  priorities id j := by rw [h.priorities, h.heldBy_eq, hq.priorities]
  times id a := by rw [h.times_eq, h.countP_bursts, hq.times]
  requestors d b hb := by
    rcases h.mem_bursts.mp hb with ⟨-, rfl⟩ | hb
    · exact hnew
    · exact hold (hq.requestors d b hb)
  place d j m' hm' := by
    rw [(h.queue_perm _).mem_iff] at hm'
    split at hm'
    case isTrue hlane =>
      rcases mem_cons.mp hm' with rfl | hm'
      · exact ⟨(Prod.mk.inj hlane).1.symm, (Prod.mk.inj hlane).2.symm⟩
      · exact hq.place d j m' hm'
    · exact hq.place d j m' hm'
  size d b hb := by
    rcases h.mem_bursts.mp hb with ⟨-, rfl⟩ | hb
    · exact ⟨hpos, hle⟩
    · exact hq.size d b hb

theorem Counted.take (hq : q'.Counted entrySize) (h : Put m q q')
    (hold : q'.requestors ⊆ q.requestors) : q.Counted entrySize where
  queueSizes lane := Nat.add_right_cancel <| by
    rw [← h.queueSizes, ← h.length_queue, hq.queueSizes]
  total d := Nat.add_right_cancel <| by rw [← h.total, ← h.length_bursts, hq.total]
  priorities id j := Nat.add_right_cancel <| by rw [← h.priorities, ← h.heldBy_eq, hq.priorities]
  times id a := Nat.add_right_cancel <| by rw [← h.times_eq, ← h.countP_bursts, hq.times]
  requestors d b hb := hold (hq.requestors d b (h.mem_bursts.mpr (.inr hb)))
  place d j m' hm' := by
    refine hq.place d j m' ((h.queue_perm _).mem_iff.mpr ?_)
    split
    · exact mem_cons_of_mem _ hm'
    · exact hm'
  size d b hb := hq.size d b (h.mem_bursts.mpr (.inr hb))

theorem update_add_one_apply [DecidableEq κ] (f : κ → ℕ) (a k : κ) :
    update f a (f a + 1) k = f k + if k = a then 1 else 0 := by
  by_cases hk : k = a <;> simp [hk]

theorem update_sub_one_apply [DecidableEq κ] {f : κ → ℕ} {a : κ} (h : f a ≠ 0)
    (k : κ) : f k = update f a (f a - 1) k + if k = a then 1 else 0 := by
  by_cases hk : k = a
  · subst hk
    simp
    omega
  · simp [hk]

/-- A packet is put into its queue and logged. -/
def enqueue (q : Queues n) (m : MemPacket n) : Queues n :=
  (q.pushBack m).logRequest m.dir m.requestorId m.qosValue m.addr 1

theorem put_enqueue (q : Queues n) (m : MemPacket n) : Put m q (q.enqueue m) where
  queue := by
    show update q.queue _ _ _ ~ _
    rw [update_self]
    exact perm_append_singleton m _
  other _ hlane := update_of_ne hlane ..
  queueSizes := update_add_one_apply _ _
  total := update_add_one_apply _ _
  priorities := update_add_one_apply _ _
  times := update_add_one_apply _ _

/-- A packet that comes is counted. -/
theorem Counted.enqueue (hq : q.Counted entrySize) (hpos : 0 < m.size.toNat)
    (hle : m.size.toNat ≤ entrySize) : (q.enqueue m).Counted entrySize :=
  hq.put (put_enqueue q m) hpos hle (Finset.mem_insert_self _ _) (Finset.subset_insert _ _)

/-- A packet is logged and taken out of its queue. -/
def dequeue (q : Queues n) (dir : BusState) (prio : Fin n) (it : ℕ) (m : MemPacket n) :
    Option (Queues n) :=
  (q.logResponse dir m.requestorId m.qosValue m.addr 1).bind fun q => q.erase dir prio it m

/-- What is left when a packet has been taken out. -/
structure Dequeued (q q' : Queues n) (m : MemPacket n) : Prop where
  perm : q.bursts m.dir ~ m.toBurst :: q'.bursts m.dir
  other : ∀ d, d ≠ m.dir → q'.bursts d = q.bursts d

/-- What is left without the packet at a position. -/
def without (q : Queues n) (m : MemPacket n) (it : ℕ) : Queues n :=
  { q with
    queue := update q.queue (m.dir, m.qosValue) ((q.queue (m.dir, m.qosValue)).eraseIdx it)
    queueSizes := update q.queueSizes (m.dir, m.qosValue) (q.queueSizes (m.dir, m.qosValue) - 1)
    totalQueueSize := update q.totalQueueSize m.dir (q.totalQueueSize m.dir - 1)
    packetPriorities := update q.packetPriorities (m.requestorId, m.qosValue)
      (q.packetPriorities (m.requestorId, m.qosValue) - 1)
    requestTimes := update q.requestTimes (m.requestorId, m.addr)
      (q.requestTimes (m.requestorId, m.addr) - 1) }

section Without

variable {it : ℕ} (hm : (q.queue (m.dir, m.qosValue))[it]? = some m)
include hm

theorem burst_mem : m.toBurst ∈ q.bursts m.dir :=
  mem_bursts.mpr ⟨_, m, mem_of_getElem? hm, rfl⟩

variable (hq : q.Counted entrySize)
include hq

theorem Counted.queueSizes_ne_zero : q.queueSizes (m.dir, m.qosValue) ≠ 0 := by
  rw [hq.queueSizes]
  exact length_pos_of_mem (mem_of_getElem? hm) |>.ne'

theorem Counted.priorities_ne_zero : q.packetPriorities (m.requestorId, m.qosValue) ≠ 0 := by
  have hcount : 0 < (q.queue (m.dir, m.qosValue)).countP (·.requestorId = m.requestorId) :=
    countP_pos_iff.mpr ⟨m, mem_of_getElem? hm, by simp⟩
  rw [hq.priorities, heldBy]
  cases hd : m.dir <;> rw [hd] at hcount <;> omega

theorem Counted.times_ne_zero : q.requestTimes (m.requestorId, m.addr) ≠ 0 := by
  rw [hq.times]
  refine (countP_pos_iff.mpr ⟨m.toBurst, ?_, by simp⟩).ne'
  have hmem := burst_mem hm
  cases hd : m.dir with
  | READ => exact mem_append_left _ (hd ▸ hmem)
  | WRITE => exact mem_append_right _ (hd ▸ hmem)

theorem Counted.put_without : Put m (q.without m it) q where
  queue := by
    obtain ⟨hit, heq⟩ := List.getElem?_eq_some_iff.mp hm
    have hperm := getElem_cons_eraseIdx_perm hit
    rw [heq] at hperm
    simpa [without] using hperm.symm
  other _ hlane := (update_of_ne hlane ..).symm
  queueSizes := update_sub_one_apply (hq.queueSizes_ne_zero hm)
  total := by
    apply update_sub_one_apply
    rw [hq.total]
    exact (length_pos_of_mem (burst_mem hm)).ne'
  priorities := update_sub_one_apply (hq.priorities_ne_zero hm)
  times := update_sub_one_apply (hq.times_ne_zero hm)

end Without

/-- One that leaves is not. -/
theorem Counted.dequeue {it : ℕ} (hq : q.Counted entrySize) (hm : (q.queue (d, i))[it]? = some m) :
    ∃ q', q.dequeue d i it m = some q' ∧ q'.Counted entrySize ∧ Dequeued q q' m := by
  obtain ⟨rfl, rfl⟩ := hq.place d i m (mem_of_getElem? hm)
  have hput := hq.put_without hm
  refine ⟨q.without m it, ?_, hq.take hput (Finset.Subset.refl _), hput.bursts,
    fun d hd => (hput.bursts_of_ne hd.symm).symm⟩
  -- the checks of `logResponse`
  have hrequestor : ¬ m.requestorId ∉ q.requestors :=
    not_not_intro (hq.requestors _ _ (burst_mem hm))
  have htimes : ¬ q.requestTimes (m.requestorId, m.addr) < 1 := by
    have hne := hq.times_ne_zero hm
    omega
  simp only [Queues.dequeue, logResponse, if_neg hrequestor, if_neg (hq.priorities_ne_zero hm),
    if_neg htimes, Option.bind_some, erase, ne_eq, not_true, if_false, without]

/-! ## Packets that change their priority -/

/-- The counters still count, and the same bursts wait. -/
structure Reordered (entrySize : ℕ) (q q' : Queues n) : Prop where
  counted : q'.Counted entrySize
  perm : ∀ d, q'.bursts d ~ q.bursts d

theorem Reordered.trans {q1 q2 q3 : Queues n} (h : Reordered entrySize q1 q2)
    (h' : Reordered entrySize q2 q3) : Reordered entrySize q1 q3 :=
  ⟨h'.counted, fun d => (h'.perm d).trans (h.perm d)⟩

theorem Counted.addRequestor (hq : q.Counted entrySize) (id : ℕ) :
    Reordered entrySize q (q.addRequestor id) :=
  ⟨⟨hq.queueSizes, hq.total, hq.priorities, hq.times,
    fun d b hb => Finset.mem_insert_of_mem (hq.requestors d b hb), hq.place, hq.size⟩,
    fun _ => .refl _⟩

/-- Every packet takes one entry of its queue. -/
theorem divCeil_size {size : ℕ} (hpos : 0 < size) (hle : size ≤ entrySize) :
    divCeil size entrySize = 1 := by
  rw [divCeil, Nat.div_eq_iff (by omega)]
  omega

section Move

variable {id : ℕ} {curr tgt : Fin n} {before after : List (MemPacket n)}

theorem Counted.moveTo (hq : q.Counted entrySize) (hne : curr ≠ tgt)
    (hqueue : q.queue (d, curr) = before ++ m :: after) :
    ∃ q', q.moveTo d m.requestorId curr tgt 1 before after m = some q' ∧
      Reordered entrySize q q' ∧ q'.queue = update
        (update q.queue (d, curr) (before ++ after)) (d, tgt)
        (q.queue (d, tgt) ++ [{ m with qosValue := tgt }]) := by
  obtain ⟨rfl, rfl⟩ := hq.place d curr m (by rw [hqueue]; simp)
  have hm : (q.queue (m.dir, m.qosValue))[before.length]? = some m := by simp [hqueue]
  have hsizes := hq.queueSizes_ne_zero hm
  have hpriorities := hq.priorities_ne_zero hm
  refine ⟨_, by rw [Queues.moveTo, if_neg (by omega), if_neg (by omega)], ?_, rfl⟩
  generalize hq' : (Queues.mk _ _ _ _ _ _ : Queues n) = q'
  have hlanes : (m.dir, tgt) ≠ (m.dir, m.qosValue) := fun h => hne (Prod.mk.inj h).2.symm
  -- the packet is taken out and put back with its new priority
  have hout := hq.put_without hm
  have hin : Put { m with qosValue := tgt } (q.without m before.length) q' := by
    rw [← hq']
    constructor
    · simp [without, update_of_ne hlanes]
    · intro lane hlane
      apply (update_of_ne hlane ..).trans
      simp [without, hqueue, eraseIdx_append_of_length_le]
    · exact update_add_one_apply _ _
    · exact hout.total
    · exact update_add_one_apply _ _
    · exact hout.times
  have hburst := burst_mem hm
  obtain ⟨hpos, hle⟩ := hq.size _ _ hburst
  have hrequestors : q'.requestors = q.requestors := by rw [← hq']
  refine ⟨(hq.take hout (Finset.Subset.refl _)).put hin hpos hle ?_ hrequestors.ge, fun d => ?_⟩
  · rw [hrequestors]
    exact hq.requestors _ _ hburst
  · by_cases hd : m.dir = d
    · subst hd
      exact hin.bursts.trans hout.bursts.symm
    · rw [hin.bursts_of_ne hd, hout.bursts_of_ne hd]

/-- One look through a queue moves all the packets of the requestor. -/
theorem Counted.escalateFrom (hne : curr ≠ tgt) (after : List (MemPacket n)) :
    ∀ {q : Queues n} {before : List (MemPacket n)}, q.Counted entrySize →
      q.queue (d, curr) = before ++ after → (∀ m ∈ before, m.requestorId ≠ id) →
      ∃ q', escalateFrom entrySize d id curr tgt q before after = some q' ∧
        Reordered entrySize q q' ∧ (∀ m ∈ q'.queue (d, curr), m.requestorId ≠ id) ∧
        ∀ d', d' ≠ d → q'.queue (d', curr) = q.queue (d', curr) := by
  induction after with
  | nil =>
    intro q before hq hqueue hbefore
    refine ⟨q, rfl, ⟨hq, fun _ => .refl _⟩, ?_, fun _ _ => rfl⟩
    rw [hqueue, append_nil]
    exact hbefore
  | cons m after ih =>
    intro q before hq hqueue hbefore
    rw [Queues.escalateFrom]
    by_cases hzero : q.packetPriorities (id, curr) = 0
    · -- no packet of the requestor has this priority
      rw [if_pos hzero]
      refine ⟨q, rfl, ⟨hq, fun _ => .refl _⟩, ?_, fun _ _ => rfl⟩
      rw [hq.priorities, heldBy, Nat.add_eq_zero_iff, countP_eq_zero, countP_eq_zero] at hzero
      intro m' hm'
      cases d with
      | READ => simpa using hzero.1 m' hm'
      | WRITE => simpa using hzero.2 m' hm'
    rw [if_neg hzero]
    by_cases hid : m.requestorId = id
    · subst hid
      have hmem : m.toBurst ∈ q.bursts d := mem_bursts.mpr ⟨curr, m, by rw [hqueue]; simp, rfl⟩
      obtain ⟨hpos, hle⟩ := hq.size d _ hmem
      obtain ⟨q1, hmove, hkeep, hqueue1⟩ := hq.moveTo hne hqueue
      have hcurr : q1.queue (d, curr) = before ++ after := by
        rw [hqueue1, update_of_ne (fun h => hne (Prod.mk.inj h).2), update_self]
      obtain ⟨q2, hrest, hkeep2, hnone, hother⟩ := ih hkeep.counted hcurr hbefore
      refine ⟨q2, ?_, hkeep.trans hkeep2, hnone, ?_⟩
      · rw [if_pos rfl, divCeil_size hpos hle, hmove, Option.bind_some, hrest]
      · intro d' hd'
        rw [hother d' hd', hqueue1, update_of_ne (fun h => hd' (Prod.mk.inj h).1),
          update_of_ne (fun h => hd' (Prod.mk.inj h).1)]
    · rw [if_neg hid]
      apply ih hq (by rw [hqueue, append_assoc]; rfl)
      exact forall_mem_append.mpr ⟨hbefore, forall_mem_singleton.mpr hid⟩

theorem escalateWhile_done {fuel : ℕ} (hzero : q.packetPriorities (id, curr) = 0) :
    escalateWhile entrySize id curr tgt fuel q = some q := by
  cases fuel <;> rw [Queues.escalateWhile, if_pos hzero]

theorem Counted.escalateWhile (hq : q.Counted entrySize) (id : ℕ) (hne : curr ≠ tgt) :
    ∃ q', escalateWhile entrySize id curr tgt (q.packetPriorities (id, curr)) q = some q' ∧
      Reordered entrySize q q' := by
  cases hfuel : q.packetPriorities (id, curr) with
  | zero => exact ⟨q, escalateWhile_done hfuel, hq, fun _ => .refl _⟩
  | succ fuel =>
    obtain ⟨q1, hread, hkeep1, hnone1, -⟩ :=
      Counted.escalateFrom hne _ hq (nil_append _).symm (by simp)
    obtain ⟨q2, hwrite, hkeep2, hnone2, hother2⟩ :=
      Counted.escalateFrom (d := .WRITE) hne _ hkeep1.counted (nil_append _).symm (by simp)
    -- nothing is left, the loop ends
    have hzero : q2.packetPriorities (id, curr) = 0 := by
      rw [hkeep2.counted.priorities, heldBy, hother2 .READ nofun, Nat.add_eq_zero_iff,
        countP_eq_zero, countP_eq_zero]
      constructor
      · intro m hm
        simpa using hnone1 m hm
      · intro m hm
        simpa using hnone2 m hm
    refine ⟨q2, ?_, hkeep1.trans hkeep2⟩
    rw [Queues.escalateWhile, if_neg (by rw [hfuel]; exact Nat.succ_ne_zero _)]
    simp only [escalateQueues, hread, hwrite, Option.bind_some]
    exact escalateWhile_done hzero

end Move

theorem Counted.escalate (hq : q.Counted entrySize) (id : ℕ) (tgt : Fin n) :
    ∃ q', q.escalate entrySize id tgt = some q' ∧ Reordered entrySize q q' := by
  refine runSteps_total ?_ _ (hq.addRequestor id)
  intro q1 curr hkeep
  rw [escalatePrio]
  by_cases hcurr : curr = tgt
  · rw [if_pos hcurr]
    exact ⟨q1, rfl, hkeep⟩
  · rw [if_neg hcurr]
    obtain ⟨q2, hrun, hkeep2⟩ := hkeep.counted.escalateWhile id hcurr
    exact ⟨q2, hrun, hkeep.trans hkeep2⟩

/-- **Scheduling reorders**: no packet is lost, and no check of the counters fails. -/
theorem Counted.qosSchedule (hq : q.Counted entrySize) (syncroScheduler priorityEscalation : Bool)
    (id : ℕ) (prio : Fin n) (others : List (ℕ × Fin n)) :
    ∃ q', q.qosSchedule syncroScheduler priorityEscalation entrySize id prio others = some q' ∧
      Reordered entrySize q q' := by
  rw [Queues.qosSchedule]
  split
  · exact ⟨q, rfl, hq, fun _ => .refl _⟩
  · refine runSteps_total ?_ _ ⟨hq, fun _ => .refl _⟩
    intro q1 other hkeep
    obtain ⟨q2, hrun, hkeep2⟩ := hkeep.counted.escalate other.1 other.2
    exact ⟨q2, hrun, hkeep.trans hkeep2⟩

end Change

end Queues

end QoSMemCtrl
