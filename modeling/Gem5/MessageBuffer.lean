/-
# Message buffers of Ruby

`mem/ruby/network/MessageBuffer.cc`.  A buffer of finite size keeps its messages in a
priority heap, and those that cannot be handled yet in a map of stalled messages by address.
A producer asks with `areNSlotsAvailable` before it enqueues.  What is taken out in a cycle
must not be visible to the producer before the next one, so the answer is computed from
the sizes at the first pop of the cycle (`visibleSize`).

The heap is a list in the order of its comparison.
-/
import Gem5.Ruby

namespace MessageBuffer

structure Message where
  lastEnqueueTime : ℕ
  delayedTicks : ℕ
  msgCounter : ℕ
  deriving DecidableEq

/-- The order of the heap. -/
def Message.gt (l r : Message) : Bool :=
  if l.lastEnqueueTime = r.lastEnqueueTime then r.msgCounter < l.msgCounter
  else r.lastEnqueueTime < l.lastEnqueueTime

def Message.updateDelayedTicks (curTime : ℕ) (m : Message) : Message :=
  { m with delayedTicks := m.delayedTicks + (curTime - m.lastEnqueueTime) }

/-- `push_heap`. -/
def pushHeap (m : Message) : List Message → List Message
  | [] => [m]
  | x :: heap => if x.gt m then m :: x :: heap else x :: pushHeap m heap

inductive Randomization
  | disabled
  | enabled
  | rubySystem
  deriving DecidableEq

structure Params where
  maxSize : ℕ
  maxDequeueRate : ℕ
  strictFifo : Bool
  randomization : Randomization
  allowZeroLatency : Bool

/-- The assertions and panics of a call. -/
inductive Abort
  | zeroLatency
  | fifoViolated
  | dequeuedEarly
  | overflow
  | popInTheFuture
  | notReady
  | notStalled
  | stallMapSize
  deriving DecidableEq

/-- The arguments of `enqueue`, and the time `random_time` gives. -/
structure Enqueue where
  message : Message
  delta : ℕ
  randomTime : ℕ
  rubyIsRandom : Bool
  rubyWarmup : Bool
  bypassStrictFIFO : Bool

end MessageBuffer

structure MessageBuffer where
  prioHeap : List MessageBuffer.Message
  stallMsgMap : List (Addr × List MessageBuffer.Message)
  stallMapSize : ℤ
  dequeuesThisCy : ℕ
  timeLastTimeEnqueue : ℕ
  timeLastTimePop : ℕ
  lastArrivalTime : ℕ
  sizeAtCycleStart : ℕ
  stalledAtCycleStart : ℕ
  msgsThisCycle : ℕ
  msgCounter : ℕ
  lastMessageStrictFifoBypassed : Bool

namespace MessageBuffer

def new : MessageBuffer where
  prioHeap := []
  stallMsgMap := []
  stallMapSize := 0
  dequeuesThisCy := 0
  timeLastTimeEnqueue := 0
  timeLastTimePop := 0
  lastArrivalTime := 0
  sizeAtCycleStart := 0
  stalledAtCycleStart := 0
  msgsThisCycle := 0
  msgCounter := 0
  lastMessageStrictFifoBypassed := false

/-- The number of messages the producer sees in the buffer. -/
def visibleSize (currentTime : ℕ) (b : MessageBuffer) : ℕ :=
  if b.timeLastTimePop < currentTime then b.prioHeap.length + b.stallMapSize.toNat
  else
    (if b.timeLastTimeEnqueue < currentTime then b.sizeAtCycleStart
      else b.sizeAtCycleStart + b.msgsThisCycle) + b.stalledAtCycleStart

variable (P : Params)

/-- The comparison is one of `unsigned int`. -/
def areNSlotsAvailable (n currentTime : ℕ) (b : MessageBuffer) : Bool :=
  P.maxSize = 0 || (b.visibleSize currentTime + n) % 2 ^ 32 ≤ P.maxSize

/-- The first cycle the message can be dequeued, and the last arrival time it is put after. -/
def arrivalTime (e : Enqueue) (currentTime : ℕ) (b : MessageBuffer) : ℕ × ℕ :=
  if P.randomization = .disabled ∨ (P.randomization = .rubySystem ∧ e.rubyIsRandom = false) then
    (currentTime + e.delta, b.lastArrivalTime)
  else if P.strictFifo then
    let last := if b.lastArrivalTime < currentTime then currentTime else b.lastArrivalTime
    (last + e.randomTime, last)
  else (currentTime + e.randomTime, b.lastArrivalTime)

def enqueue (e : Enqueue) (currentTime : ℕ) (b : MessageBuffer) : Except Abort MessageBuffer :=
  let msgsThisCycle := if b.timeLastTimeEnqueue < currentTime then 0 else b.msgsThisCycle
  let arrival := b.arrivalTime P e currentTime
  let message := { e.message.updateDelayedTicks currentTime with
    lastEnqueueTime := arrival.1, msgCounter := b.msgCounter + 1 }
  let heap := pushHeap message b.prioHeap
  if e.delta = 0 ∧ P.allowZeroLatency = false then .error .zeroLatency
  else if P.strictFifo && !(e.bypassStrictFIFO || b.lastMessageStrictFifoBypassed) &&
      decide (arrival.1 < arrival.2) then .error .fifoViolated
  else if currentTime < e.message.lastEnqueueTime then .error .dequeuedEarly
  else if ¬ (P.maxSize = 0 ∨ heap.length + b.stallMapSize ≤ P.maxSize) then .error .overflow
  else .ok
    { b with
      prioHeap := heap
      timeLastTimeEnqueue := max b.timeLastTimeEnqueue currentTime
      lastArrivalTime := if e.rubyWarmup then arrival.2 else arrival.1
      msgsThisCycle := msgsThisCycle + 1
      msgCounter := b.msgCounter + 1
      lastMessageStrictFifoBypassed := e.bypassStrictFIFO }

def isReady (currentTime : ℕ) (b : MessageBuffer) : Except Abort Bool :=
  if currentTime < b.timeLastTimePop then .error .popInTheFuture
  else
    let canDequeue := P.maxDequeueRate = 0 || decide (b.timeLastTimePop < currentTime) ||
      decide (b.dequeuesThisCy < P.maxDequeueRate)
    let ready := match b.prioHeap with
      | [] => false
      | front :: _ => decide (front.lastEnqueueTime ≤ currentTime)
    .ok (canDequeue && ready)

/-- The body of `dequeue`, with the message that is taken out. -/
def popFront (currentTime : ℕ) (b : MessageBuffer) : Except Abort (Message × MessageBuffer) :=
  match b.isReady P currentTime, b.prioHeap with
  | .error abort, _ => .error abort
  | .ok true, front :: rest =>
    let b' :=
      if b.timeLastTimePop < currentTime then
        { b with
          sizeAtCycleStart := b.prioHeap.length
          stalledAtCycleStart := b.stallMapSize.toNat
          timeLastTimePop := currentTime
          dequeuesThisCy := 0 }
      else b
    .ok (front.updateDelayedTicks currentTime,
      { b' with dequeuesThisCy := b'.dequeuesThisCy + 1, prioHeap := rest })
  | .ok _, _ => .error .notReady

/-- The delay of the message, and the buffer without it. -/
def dequeue (currentTime : ℕ) (b : MessageBuffer) : Except Abort (ℕ × MessageBuffer) :=
  (b.popFront P currentTime).map fun (message, b) => (message.delayedTicks, b)

def recycle (currentTime recycleLatency : ℕ) (b : MessageBuffer) : Except Abort MessageBuffer :=
  match b.isReady P currentTime, b.prioHeap with
  | .error abort, _ => .error abort
  | .ok true, front :: rest =>
    .ok { b with
      prioHeap := pushHeap { front with lastEnqueueTime := currentTime + recycleLatency } rest }
  | .ok _, _ => .error .notReady

/-- `m_stall_msg_map[addr].push_back(message)`. -/
def pushStalled (addr : Addr) (message : Message) :
    List (Addr × List Message) → List (Addr × List Message)
  | [] => [(addr, [message])]
  | (a, messages) :: l =>
    if addr < a then (addr, [message]) :: (a, messages) :: l
    else if addr = a then (a, messages ++ [message]) :: l
    else (a, messages) :: pushStalled addr message l

def stallMessage (addr : Addr) (currentTime : ℕ) (b : MessageBuffer) : Except Abort MessageBuffer :=
  (b.popFront P currentTime).map fun (message, b) =>
    { b with
      stallMsgMap := pushStalled addr message b.stallMsgMap
      stallMapSize := b.stallMapSize + 1 }

/-- The stalled messages go back to the heap, oldest first. -/
def reanalyzeList (schdTick : ℕ) : List Message → List Message → Except Abort (List Message)
  | [], heap => .ok heap
  | m :: messages, heap =>
    if schdTick < m.lastEnqueueTime then .error .dequeuedEarly
    else reanalyzeList schdTick messages (pushHeap m heap)

def reanalyzeMessages (addr : Addr) (currentTime : ℕ) (b : MessageBuffer) :
    Except Abort MessageBuffer :=
  match b.stallMsgMap.find? fun x => x.1 = addr with
  | none => .error .notStalled
  | some (_, messages) =>
    if b.stallMapSize - messages.length < 0 then .error .stallMapSize
    else
      (reanalyzeList currentTime messages b.prioHeap).map fun heap =>
        { b with
          prioHeap := heap
          stallMsgMap := b.stallMsgMap.filter fun x => x.1 ≠ addr
          stallMapSize := b.stallMapSize - messages.length }

/-- The loop of `reanalyzeAllMessages`: the number of stalled messages and the heap. -/
def reanalyzeMap (currentTime : ℕ) :
    List (Addr × List Message) → ℤ × List Message → Except Abort (ℤ × List Message)
  | [], sizes => .ok sizes
  | (_, messages) :: l, (stallMapSize, heap) =>
    if stallMapSize - messages.length < 0 then .error .stallMapSize
    else
      match reanalyzeList currentTime messages heap with
      | .error abort => .error abort
      | .ok heap => reanalyzeMap currentTime l (stallMapSize - messages.length, heap)

def reanalyzeAllMessages (currentTime : ℕ) (b : MessageBuffer) : Except Abort MessageBuffer :=
  (reanalyzeMap currentTime b.stallMsgMap (b.stallMapSize, b.prioHeap)).map fun (size, heap) =>
    { b with prioHeap := heap, stallMsgMap := [], stallMapSize := size }

/-! ## Producer and consumer -/

inductive Call
  | enqueue (e : Enqueue)
  | dequeue
  | recycle (recycleLatency : ℕ)
  | stallMessage (addr : Addr)
  | reanalyzeMessages (addr : Addr)
  | reanalyzeAllMessages
  | areNSlotsAvailable (n : ℕ)

/-- A call with its time. -/
structure Action where
  call : Call
  time : ℕ

def step (b : MessageBuffer) (a : Action) : Except Abort MessageBuffer :=
  match a.call with
  | .enqueue e => b.enqueue P e a.time
  | .dequeue => (b.dequeue P a.time).map Prod.snd
  | .recycle recycleLatency => b.recycle P a.time recycleLatency
  | .stallMessage addr => b.stallMessage P addr a.time
  | .reanalyzeMessages addr => b.reanalyzeMessages addr a.time
  | .reanalyzeAllMessages => b.reanalyzeAllMessages a.time
  | .areNSlotsAvailable _ => .ok b

/-- The buffer, the time of the last call, and the number of messages for which the
producer has been told at that time that there is room. -/
structure Observed where
  buffer : MessageBuffer
  now : ℕ
  promised : ℕ

namespace Observed

def new : Observed := ⟨MessageBuffer.new, 0, 0⟩

/-- Promises are for the time they are given at. -/
def promisedAt (o : Observed) (time : ℕ) : ℕ := if o.now = time then o.promised else 0

def step (P : Params) (o : Observed) (a : Action) : Option Observed :=
  (o.buffer.step P a).toOption.map fun buffer =>
    { buffer := buffer
      now := a.time
      promised :=
        match a.call with
        | .enqueue _ => o.promisedAt a.time - 1
        | .areNSlotsAvailable n =>
          if o.buffer.areNSlotsAvailable P n a.time then max (o.promisedAt a.time) n
          else o.promisedAt a.time
        | _ => o.promisedAt a.time }

/-- Time does not go back, and the producer enqueues only what it has been promised. -/
def Allowed (o : Observed) (a : Action) : Prop :=
  o.now ≤ a.time ∧
    match a.call with
    | .enqueue _ => 0 < o.promisedAt a.time
    | .areNSlotsAvailable n => n < 2 ^ 32
    | _ => True

/-- The sum of the sizes does not wrap around. -/
def NoWrap (o : Observed) (a : Action) : Prop :=
  match a.call with
  | .areNSlotsAvailable n => o.buffer.visibleSize a.time + n < 2 ^ 32
  | _ => True

instance (o : Observed) : DecidablePred o.Allowed := fun a =>
  have : Decidable (match a.call with
    | .enqueue _ => 0 < o.promisedAt a.time
    | .areNSlotsAvailable n => n < 2 ^ 32
    | _ => True) := by cases a.call <;> infer_instance
  inferInstanceAs (Decidable (_ ∧ _))

instance (o : Observed) : DecidablePred o.NoWrap := fun a => by
  unfold NoWrap
  cases a.call <;> infer_instance

end Observed

/-! ## Sizes -/

/-- The number of messages in the heap and in the stall map. -/
def occupancy (b : MessageBuffer) : ℕ := b.prioHeap.length + b.stallMapSize.toNat

theorem length_pushHeap (m : Message) (heap : List Message) :
    (pushHeap m heap).length = heap.length + 1 := by
  induction heap with
  | nil => rfl
  | cons x heap ih =>
    unfold pushHeap
    split
    · rfl
    · rw [List.length_cons, ih, List.length_cons]

theorem length_of_reanalyzeList {schdTick : ℕ} {messages heap heap' : List Message}
    (h : reanalyzeList schdTick messages heap = .ok heap') :
    heap'.length = heap.length + messages.length := by
  induction messages generalizing heap with
  | nil =>
    cases h
    rfl
  | cons m messages ih =>
    unfold reanalyzeList at h
    split at h
    · cases h
    · rw [ih h, length_pushHeap, List.length_cons]
      omega

theorem size_of_reanalyzeMap {currentTime : ℕ} {l : List (Addr × List Message)} {size size' : ℤ}
    {heap heap' : List Message} (hsize : 0 ≤ size)
    (h : reanalyzeMap currentTime l (size, heap) = .ok (size', heap')) :
    0 ≤ size' ∧ heap'.length + size' = heap.length + size := by
  induction l generalizing size heap with
  | nil =>
    cases h
    exact ⟨hsize, rfl⟩
  | cons x l ih =>
    unfold reanalyzeMap at h
    split at h
    · cases h
    · next hnot =>
      split at h
      · cases h
      · next heap1 hlist =>
        have hlength := length_of_reanalyzeList hlist
        obtain ⟨hpos, hsum⟩ := ih (by omega) h
        refine ⟨hpos, ?_⟩
        omega

/-! ## The room that is promised -/

/-- What the producer sees bounds what is in the buffer, and what it has been promised fits. -/
structure Inv (P : Params) (o : Observed) : Prop where
  stalled : 0 ≤ o.buffer.stallMapSize
  room : o.buffer.occupancy + o.promised ≤ P.maxSize
  popTime : o.buffer.timeLastTimePop ≤ o.now
  enqueueTime : o.buffer.timeLastTimeEnqueue ≤ o.now
  visible : o.buffer.timeLastTimePop = o.now → o.buffer.occupancy ≤
    o.buffer.sizeAtCycleStart + o.buffer.stalledAtCycleStart +
      if o.buffer.timeLastTimeEnqueue = o.now then o.buffer.msgsThisCycle else 0

section Steps

variable {P : Params} {o : Observed} {b : MessageBuffer} {time : ℕ} {e : Enqueue} {m : Message}

theorem inv_new (P : Params) : Inv P Observed.new where
  stalled := le_rfl
  room := Nat.zero_le _
  popTime := le_rfl
  enqueueTime := le_rfl
  visible := fun _ => Nat.zero_le _

theorem Inv.room_at (h : Inv P o) (time : ℕ) :
    o.buffer.occupancy + o.promisedAt time ≤ P.maxSize := by
  have hroom := h.room
  unfold Observed.promisedAt
  split <;> omega

/-- Whatever was popped in this cycle, the producer sees at least what is there. -/
theorem Inv.occupancy_le_visibleSize (h : Inv P o) (htime : o.now ≤ time) :
    o.buffer.occupancy ≤ o.buffer.visibleSize time := by
  unfold visibleSize
  by_cases hpop : o.buffer.timeLastTimePop < time
  · rw [if_pos hpop]
    exact le_rfl
  · have hpopTime := h.popTime
    have hnow : o.buffer.timeLastTimePop = o.now := by omega
    have hvisible := h.visible hnow
    rw [if_neg hpop]
    by_cases henqueue : o.buffer.timeLastTimeEnqueue < time
    · rw [if_neg (by omega)] at hvisible
      rw [if_pos henqueue]
      omega
    · rw [if_pos (by have := h.enqueueTime; omega)] at hvisible
      rw [if_neg henqueue]
      omega

/-- A call that neither enqueues nor pops may move messages between the heap and the map. -/
theorem Inv.move (h : Inv P o) (htime : o.now ≤ time) {heap : List Message}
    {map : List (Addr × List Message)} {size : ℤ} (hsize : 0 ≤ size)
    (hsum : heap.length + size = o.buffer.prioHeap.length + o.buffer.stallMapSize) {promised : ℕ}
    (hroom : o.buffer.occupancy + promised ≤ P.maxSize) :
    Inv P ⟨{ o.buffer with prioHeap := heap, stallMsgMap := map, stallMapSize := size },
      time, promised⟩ := by
  have hstalled := h.stalled
  have hpopTime := h.popTime
  have hoccupancy : heap.length + size.toNat = o.buffer.occupancy := by
    unfold occupancy
    omega
  refine ⟨hsize, ?_, hpopTime.trans htime, h.enqueueTime.trans htime, ?_⟩
  · exact (congrArg (· + promised) hoccupancy).trans_le hroom
  · intro hnow
    simp only at hnow
    obtain rfl : o.now = time := by omega
    exact hoccupancy.trans_le (h.visible hnow)

/-- A promised message fits. -/
theorem Inv.enqueue_ne_overflow (h : Inv P o) (hpromised : 0 < o.promisedAt time) :
    o.buffer.enqueue P e time ≠ .error .overflow := by
  have hroom := h.room_at time
  unfold occupancy at hroom
  unfold enqueue
  simp only [length_pushHeap]
  intro hfull
  split_ifs at hfull with _ _ _ hover
  all_goals cases hfull
  exact hover (.inr (by omega))

theorem Inv.enqueue (h : Inv P o) (htime : o.now ≤ time) (hpromised : 0 < o.promisedAt time)
    (hb : o.buffer.enqueue P e time = .ok b) : Inv P ⟨b, time, o.promisedAt time - 1⟩ := by
  obtain rfl : o.now = time := by
    by_contra hne
    rw [Observed.promisedAt, if_neg hne] at hpromised
    exact absurd hpromised (lt_irrefl _)
  have hroom := h.room_at o.now
  have henqueueTime := h.enqueueTime
  unfold MessageBuffer.enqueue at hb
  simp only at hb
  iterate 4
    split at hb
    · cases hb
  cases hb
  refine ⟨h.stalled, ?_, h.popTime, ?_, ?_⟩
  · simp only [occupancy, length_pushHeap] at hroom ⊢
    omega
  · simp only
    omega
  · intro hnow
    have hvisible := h.visible hnow
    simp only [occupancy, length_pushHeap, max_eq_right henqueueTime, if_true] at hvisible ⊢
    by_cases hlast : o.buffer.timeLastTimeEnqueue = o.now
    · rw [if_pos hlast] at hvisible
      rw [if_neg (by omega)]
      omega
    · rw [if_neg hlast] at hvisible
      omega

theorem popFront_cases (h : o.buffer.popFront P time = .ok (m, b)) :
    ∃ front, o.buffer.prioHeap = front :: b.prioHeap ∧ b.stallMapSize = o.buffer.stallMapSize ∧
      b.timeLastTimeEnqueue = o.buffer.timeLastTimeEnqueue ∧
      b.msgsThisCycle = o.buffer.msgsThisCycle ∧
      if o.buffer.timeLastTimePop < time then
        b.timeLastTimePop = time ∧ b.sizeAtCycleStart = o.buffer.prioHeap.length ∧
          b.stalledAtCycleStart = o.buffer.stallMapSize.toNat
      else
        b.timeLastTimePop = o.buffer.timeLastTimePop ∧
          b.sizeAtCycleStart = o.buffer.sizeAtCycleStart ∧
          b.stalledAtCycleStart = o.buffer.stalledAtCycleStart := by
  unfold popFront at h
  split at h
  · cases h
  · next front rest _ hheap =>
    cases h
    refine ⟨front, hheap, ?_⟩
    split <;> simp_all
  · cases h

/-- What is popped, and perhaps stalled, stays visible until the next cycle. -/
theorem Inv.pop (h : Inv P o) (htime : o.now ≤ time)
    (hb : o.buffer.popFront P time = .ok (m, b)) {b' : MessageBuffer}
    (hsize : b.stallMapSize ≤ b'.stallMapSize ∧ b'.stallMapSize ≤ b.stallMapSize + 1)
    (hheap : b'.prioHeap = b.prioHeap) (hsame : b'.timeLastTimePop = b.timeLastTimePop ∧
      b'.timeLastTimeEnqueue = b.timeLastTimeEnqueue ∧ b'.msgsThisCycle = b.msgsThisCycle ∧
      b'.sizeAtCycleStart = b.sizeAtCycleStart ∧ b'.stalledAtCycleStart = b.stalledAtCycleStart) :
    Inv P ⟨b', time, o.promisedAt time⟩ := by
  obtain ⟨front, hfront, hstalled, henqueue, hmsgs, hpop⟩ := popFront_cases hb
  obtain ⟨hpop', henqueue', hmsgs', hstart', hstalledStart'⟩ := hsame
  have hstalledPos := h.stalled
  have hlength := congrArg List.length hfront
  have hroom := h.room_at time
  have hpopTime := h.popTime
  have henqueueTime := h.enqueueTime
  rw [List.length_cons] at hlength
  have hoccupancy : b'.occupancy ≤ o.buffer.occupancy := by
    unfold occupancy
    rw [hheap]
    omega
  refine ⟨by simp only; omega, by simp only; omega, ?_, ?_, ?_⟩
  · simp only [hpop']
    split at hpop <;> omega
  · dsimp only
    omega
  · intro hnow
    simp only [hstart', hstalledStart', henqueue', hmsgs', henqueue, hmsgs]
    by_cases hfirst : o.buffer.timeLastTimePop < time
    · rw [if_pos hfirst] at hpop
      unfold occupancy at hoccupancy ⊢
      omega
    · rw [if_neg hfirst] at hpop
      obtain rfl : o.now = time := by omega
      rw [hpop.2.1, hpop.2.2]
      exact hoccupancy.trans (h.visible (by omega))

theorem Inv.recycle (h : Inv P o) (htime : o.now ≤ time) {recycleLatency : ℕ}
    (hb : o.buffer.recycle P time recycleLatency = .ok b) : Inv P ⟨b, time, o.promisedAt time⟩ := by
  unfold MessageBuffer.recycle at hb
  split at hb
  · cases hb
  · next front rest _ hheap =>
    cases hb
    exact h.move htime h.stalled (by rw [length_pushHeap, hheap, List.length_cons]) (h.room_at time)
  · cases hb

theorem Inv.reanalyzeMessages (h : Inv P o) (htime : o.now ≤ time) {addr : Addr}
    (hb : o.buffer.reanalyzeMessages addr time = .ok b) : Inv P ⟨b, time, o.promisedAt time⟩ := by
  unfold MessageBuffer.reanalyzeMessages at hb
  split at hb
  · cases hb
  · split at hb
    · cases hb
    · obtain ⟨heap, hlist, rfl⟩ := Ruby.exists_of_map_ok hb
      have hlength := length_of_reanalyzeList hlist
      exact h.move htime (by omega) (by omega) (h.room_at time)

theorem Inv.reanalyzeAllMessages (h : Inv P o) (htime : o.now ≤ time)
    (hb : o.buffer.reanalyzeAllMessages time = .ok b) : Inv P ⟨b, time, o.promisedAt time⟩ := by
  obtain ⟨sizes, hmap, rfl⟩ := Ruby.exists_of_map_ok hb
  obtain ⟨hpos, hsum⟩ := size_of_reanalyzeMap h.stalled hmap
  exact h.move htime hpos hsum (h.room_at time)

theorem Inv.step (h : Inv P o) (hmax : 0 < P.maxSize) {a : Action} (hallowed : o.Allowed a)
    (hwrap : o.NoWrap a) {o' : Observed} (hstep : o.step P a = some o') : Inv P o' := by
  obtain ⟨call, time⟩ := a
  obtain ⟨htime, hallowed⟩ := hallowed
  unfold Observed.step at hstep
  cases hb : o.buffer.step P ⟨call, time⟩ with
  | error abort =>
    rw [hb] at hstep
    cases hstep
  | ok b =>
    rw [hb] at hstep
    cases hstep
    have hroom := h.room_at time
    cases call with
    | enqueue e => exact h.enqueue htime hallowed hb
    | dequeue =>
      obtain ⟨_, hpopped, rfl⟩ := Ruby.exists_of_map_ok hb
      obtain ⟨_, hpop, rfl⟩ := Ruby.exists_of_map_ok hpopped
      exact h.pop htime hpop ⟨le_rfl, by simp⟩ rfl ⟨rfl, rfl, rfl, rfl, rfl⟩
    | recycle recycleLatency => exact h.recycle htime hb
    | stallMessage addr =>
      obtain ⟨_, hpop, rfl⟩ := Ruby.exists_of_map_ok hb
      exact h.pop htime hpop ⟨by simp, le_rfl⟩ rfl ⟨rfl, rfl, rfl, rfl, rfl⟩
    | reanalyzeMessages addr => exact h.reanalyzeMessages htime hb
    | reanalyzeAllMessages => exact h.reanalyzeAllMessages htime hb
    | areNSlotsAvailable n =>
      cases hb
      apply h.move htime h.stalled rfl
      simp only
      split
      · next hslots =>
        unfold areNSlotsAvailable at hslots
        have hnowrap : o.buffer.visibleSize time + n < 2 ^ 32 := hwrap
        have hvisible : o.buffer.occupancy ≤ o.buffer.visibleSize time :=
          h.occupancy_le_visibleSize htime
        rw [Bool.or_eq_true, decide_eq_true_eq, decide_eq_true_eq] at hslots
        omega
      · exact hroom

end Steps

def fifoOf (maxSize : ℕ) : Params := ⟨maxSize, 0, true, .disabled, false⟩

/-- A message made at time 1 that arrives one tick later. -/
def oneTick : Enqueue := ⟨⟨1, 0, 0⟩, 1, 0, false, false, false⟩

end MessageBuffer
