/-
# The event queue

Model of `Event` and `EventQueue` (sim/eventq.hh, sim/eventq.cc) and of the
`Flags` helper they use (base/flags.hh).

The queue is a linked list of linked lists: `nextBin` leads from the top event
of one bin to the top event of the next, `nextInBin` runs down the stack of
events of one bin, and the `nextBin` field of an event that is not on top of
its bin is allowed to be stale.  Event objects live in a `Store`; a pointer is
the address of an event.

Every operation returns `none` where the source panics, fails an assertion,
or dereferences a null or deleted event; the field `queue` of debug builds and the
assertion of `remove` on it are left out.  The loops follow pointers with the
size of the store as fuel.  `inParallelMode` is false.
-/
import Gem5.Store

/-! ## Flags -/

/-- `Flags<T>` over a 16-bit container. -/
abbrev Flags := BitVec 16

namespace Flags

/-- Some bit of the mask is set. -/
def isSet (f mask : Flags) : Bool := f &&& mask != 0

/-- Set the bits of the mask. -/
def set (f mask : Flags) : Flags := f ||| mask

/-- Clear the bits of the mask. -/
def clear (f mask : Flags) : Flags := f &&& ~~~mask

theorem isSet_set (f m m' : Flags) : isSet (set f m) m' = (isSet f m' || isSet m m') := by
  rw [Bool.eq_iff_iff]
  simp only [isSet, set, BitVec.and_or_distrib_right, bne_iff_ne, Bool.or_eq_true,
    BitVec.ofNat_eq_ofNat, Ne, BitVec.or_eq_zero_iff]
  tauto

/-- Clearing bits outside a mask does not touch the mask. -/
theorem isSet_clear_of_disjoint {m m' : Flags} (h : ~~~m &&& m' = m') (f : Flags) :
    isSet (clear f m) m' = isSet f m' := by
  rw [isSet, isSet, clear, BitVec.and_assoc, h]

/-- Clearing bits that cover a mask clears it. -/
theorem isSet_clear_of_covers {m m' : Flags} (h : ~~~m &&& m' = 0) (f : Flags) :
    isSet (clear f m) m' = false := by
  rw [isSet, clear, BitVec.and_assoc, h]
  simp

end Flags

/-! ## Events -/

abbrev Tick := ℕ
abbrev Priority := ℤ
abbrev EventPtr := ℕ

/-- The fields of an `Event` object. -/
structure Event where
  nextBin : Option EventPtr
  nextInBin : Option EventPtr
  when : Tick
  priority : Priority
  flags : Flags
  deriving DecidableEq, Repr

namespace Event

def Squashed : Flags := 0x0001
def Scheduled : Flags := 0x0002
def Managed : Flags := 0x0004
def IsExitEvent : Flags := 0x0010
def IsMainQueue : Flags := 0x0020
def Initialized : Flags := 0x7a40
def InitMask : Flags := 0xffc0
def PublicWrite : Flags := 0x001d

/-- `Event(Priority p, Flags f)`: the caller may only pass publicly writable
flags. -/
def new (p : Priority) (f : Flags) : Option Event :=
  if Flags.isSet f (~~~PublicWrite) then none
  else some
    { nextBin := none, nextInBin := none, when := 0, priority := p,
      flags := Initialized ||| f }

variable (e : Event)

def initialized : Bool := e.flags &&& InitMask == Initialized
def scheduled : Bool := Flags.isSet e.flags Scheduled
def squashed : Bool := Flags.isSet e.flags Squashed
def isExitEvent : Bool := Flags.isSet e.flags IsExitEvent
def isManaged : Bool := Flags.isSet e.flags Managed
def isMainQueue : Bool := Flags.isSet e.flags IsMainQueue

variable (l r : Event)

/-- `operator<`. -/
def lt : Bool :=
  l.when < r.when || (l.when == r.when && l.priority < r.priority)

/-- `operator<=`. -/
def le : Bool :=
  l.when < r.when || (l.when == r.when && l.priority ≤ r.priority)

/-- `operator==`. -/
def eq : Bool :=
  l.when == r.when && l.priority == r.priority

/-- `operator!=`. -/
def ne : Bool :=
  l.when != r.when || l.priority != r.priority

/-- `setWhen`; the owning queue it also records is the only queue here. -/
def setWhen (when : Tick) : Event := { e with when := when }

def setFlag (mask : Flags) : Event := { e with flags := Flags.set e.flags mask }
def clearFlag (mask : Flags) : Event :=
  { e with flags := Flags.clear e.flags mask }

/-! Flag updates, seen through the flag tests. -/

@[simp] theorem scheduled_setFlag_Scheduled : (e.setFlag Scheduled).scheduled = true := by
  rw [scheduled, setFlag, Flags.isSet_set]
  simp [Flags.isSet, Scheduled]

@[simp] theorem scheduled_setFlag_Squashed : (e.setFlag Squashed).scheduled = e.scheduled := by
  rw [scheduled, setFlag, Flags.isSet_set]
  simp [scheduled, Flags.isSet, Scheduled, Squashed]

@[simp] theorem scheduled_clearFlag_Scheduled : (e.clearFlag Scheduled).scheduled = false :=
  Flags.isSet_clear_of_covers (by decide) _

@[simp] theorem scheduled_clearFlag_Squashed : (e.clearFlag Squashed).scheduled = e.scheduled :=
  Flags.isSet_clear_of_disjoint (by decide) _

@[simp] theorem squashed_clearFlag_Scheduled : (e.clearFlag Scheduled).squashed = e.squashed :=
  Flags.isSet_clear_of_disjoint (by decide) _

theorem initialized_setFlag {m : Flags} (h : m &&& InitMask = 0) (e : Event) :
    (e.setFlag m).initialized = e.initialized := by
  simp only [initialized, setFlag, Flags.set, BitVec.and_or_distrib_right, h]
  simp

theorem initialized_clearFlag {m : Flags} (h : ~~~m &&& InitMask = InitMask) (e : Event) :
    (e.clearFlag m).initialized = e.initialized := by
  simp only [initialized, clearFlag, Flags.clear, BitVec.and_assoc, h]

/-- A fresh event is initialised and not scheduled. -/
theorem new_spec {p : Priority} {f : Flags} {e : Event} (h : new p f = some e) :
    e.scheduled = false ∧ e.initialized = true := by
  unfold new at h
  split at h
  · simp at h
  · next hf =>
      cases h
      have hf' : f &&& ~~~PublicWrite = 0 := by simpa [Flags.isSet] using hf
      constructor
      · have hs : f &&& Scheduled = 0 := by
          rw [show Scheduled = ~~~PublicWrite &&& Scheduled by decide, ← BitVec.and_assoc, hf']
          decide
        simp only [scheduled, Flags.isSet, BitVec.and_or_distrib_right, hs]
        decide
      · have hi : f &&& InitMask = 0 := by
          rw [show InitMask = ~~~PublicWrite &&& InitMask by decide, ← BitVec.and_assoc, hf']
          decide
        simp only [initialized, BitVec.and_or_distrib_right, hi]
        decide

variable (s : Store Event)

/-- `Event::insertBefore`: link `event` in front of the bin `curr`, or on top
of it.  Returns the new top, which is always `event`. -/
def insertBefore (event : EventPtr) (curr : Option EventPtr) : Option (Store Event × EventPtr) := do
  let e ← s.read event
  match curr with
  | none => return (s.write event { e with nextBin := none, nextInBin := none }, event)
  | some c =>
    let ce ← s.read c
    if e.lt ce then
      -- a bin of its own, since it comes before the current one
      return (s.write event { e with nextBin := some c, nextInBin := none }, event)
    else
      -- on top of the current bin, whose own `nextBin` can now become stale
      return (s.write event { e with nextBin := ce.nextBin, nextInBin := some c }, event)

/-- The search loop of `Event::removeItem` below the top of a bin: find the
element that links to `event`, and unlink it. -/
def unlinkInBin (s : Store Event) (event : EventPtr) :
    ℕ → EventPtr → Option EventPtr → Option (Store Event)
  | 0, _, _ => none
  | _ + 1, _, none => none  -- panic: event not found
  | n + 1, curr, some next => do
    let ne ← s.read next
    if event = next then
      s.modify curr fun ce => { ce with nextInBin := ne.nextInBin }
    else
      unlinkInBin s event n next ne.nextInBin

/-- `Event::removeItem`: take `event` out of the bin with top `top`; returns
the new top, or the next bin when the bin gets empty. -/
def removeItem (event top : EventPtr) : Option (Store Event × Option EventPtr) := do
  let te ← s.read top
  if event = top then
    match te.nextInBin with
    | none => return (s, te.nextBin)
    | some next =>
      -- the new top's `nextBin` could be stale
      let s ← s.modify next fun ne => { ne with nextBin := te.nextBin }
      return (s, some next)
  else
    let s ← unlinkInBin s event s.size top te.nextInBin
    return (s, some top)

end Event

/-! ## The queue -/

/-- An `EventQueue` with the store its events live in. -/
structure EventQueue where
  store : Store Event
  head : Option EventPtr
  curTick : Tick
  deriving DecidableEq, Repr

namespace EventQueue

/-- The loop `while (curr && *curr < *event)` shared by `insert` and `remove`:
the last bin below `event`'s key, and what follows it. -/
def findBin (s : Store Event) (e : Event) :
    ℕ → EventPtr → Option EventPtr → Option (EventPtr × Option EventPtr)
  | 0, _, _ => none
  | _ + 1, prev, none => some (prev, none)
  | n + 1, prev, some curr => do
    let ce ← s.read curr
    if ce.lt e then findBin s e n curr ce.nextBin else some (prev, some curr)

variable (q : EventQueue) (event : EventPtr)

/-- `EventQueue::insert`. -/
def insert : Option EventQueue := do
  let e ← q.store.read event
  match q.head with
  | none =>
    let (s, top) ← Event.insertBefore q.store event none
    return { q with store := s, head := some top }
  | some hd =>
    let he ← q.store.read hd
    if e.le he then
      let (s, top) ← Event.insertBefore q.store event (some hd)
      return { q with store := s, head := some top }
    else
      let (prev, curr) ← findBin q.store e (q.store.size + 1) hd he.nextBin
      let (s, top) ← Event.insertBefore q.store event curr
      -- this may render all `nextBin` pointers below `prev` stale
      let s ← s.modify prev fun pe => { pe with nextBin := some top }
      return { q with store := s }

/-- `EventQueue::remove`. -/
def remove : Option EventQueue := do
  match q.head with
  | none => none  -- panic: event not found
  | some hd =>
    let e ← q.store.read event
    let he ← q.store.read hd
    if he.eq e then
      let (s, top) ← Event.removeItem q.store event hd
      return { q with store := s, head := top }
    else
      let (prev, curr) ← findBin q.store e (q.store.size + 1) hd he.nextBin
      match curr with
      | none => none  -- panic: event not found
      | some c =>
        let ce ← q.store.read c
        if ce.ne e then none  -- panic: event not found
        else
          let (s, top) ← Event.removeItem q.store event c
          let s ← s.modify prev fun pe => { pe with nextBin := top }
          return { q with store := s }

/-- `Event::release`: a managed event that is not scheduled deletes itself.
`acquire` does nothing for the default memory manager. -/
def release : Option EventQueue := do
  let e ← q.store.read event
  if e.isManaged && !e.scheduled then return { q with store := q.store.free event }
  else return q

/-- Update one event in place. -/
def update (f : Event → Event) : Option EventQueue := do
  let s ← q.store.modify event f
  return { q with store := s }

/-- `EventQueue::schedule`. -/
def schedule (when : Tick) : Option EventQueue := do
  let e ← q.store.read event
  if when < q.curTick || e.scheduled || !e.initialized then none
  else
    let q ← q.update event fun e => e.setWhen when
    let q ← q.insert event
    q.update event fun e => e.setFlag Event.Scheduled

/-- `EventQueue::deschedule`. -/
def deschedule : Option EventQueue := do
  let e ← q.store.read event
  if !e.scheduled || !e.initialized then none
  else
    let q ← q.remove event
    let q ← q.update event fun e => (e.clearFlag Event.Squashed).clearFlag Event.Scheduled
    q.release event

/-- `EventQueue::reschedule`. -/
def reschedule (when : Tick) (always : Bool) : Option EventQueue := do
  let e ← q.store.read event
  if when < q.curTick || !(always || e.scheduled) || !e.initialized then none
  else
    let q ← if e.scheduled then q.remove event else some q
    let q ← q.update event fun e => e.setWhen when
    let q ← q.insert event
    q.update event fun e => (e.clearFlag Event.Squashed).setFlag Event.Scheduled

/-- `Event::squash`. -/
def squash : Option EventQueue :=
  q.update event fun e => e.setFlag Event.Squashed

/-- The pop of `EventQueue::serviceOne`: `e` is the event at the head. -/
def popHead (e : Event) : Option EventQueue :=
  match e.nextInBin with
  | some next => do
    -- the new top's `nextBin` could be stale
    let s ← q.store.modify next fun ne => { ne with nextBin := e.nextBin }
    return { q with store := s, head := some next }
  | none => some { q with head := e.nextBin }

/-- The first half of `EventQueue::serviceOne`: pop the head and, unless it is
squashed, forward the current tick to it.  Returns the popped event when its
`process()` is to run. -/
def serviceBegin : Option (EventQueue × EventPtr × Bool) := do
  let event ← q.head
  let q ← q.update event fun e => e.clearFlag Event.Scheduled
  let e ← q.store.read event
  let q ← q.popHead e
  if e.squashed then
    let q ← q.update event fun e => e.clearFlag Event.Squashed
    let q ← q.release event
    return (q, event, false)
  else
    return ({ q with curTick := e.when }, event, true)

/-- The second half of `EventQueue::serviceOne`, after `event->process()`: an
exit event is handed back to the caller, any other is released. -/
def serviceEnd : Option (EventQueue × Option EventPtr) := do
  let e ← q.store.read event
  if e.isExitEvent then
    if e.isManaged && e.isMainQueue then none  -- assertion: would be silly
    else return (q, some event)
  else
    let q ← q.release event
    return (q, none)

/-- `EventQueue::serviceOne`, for the handler `process` of the served event. -/
def serviceOne (process : EventPtr → EventQueue → Option EventQueue) :
    Option (EventQueue × Option EventPtr) := do
  let (q, event, live) ← q.serviceBegin
  if live then
    let q ← process event q
    q.serviceEnd event
  else
    return (q, none)

/-- Walk `nextBin` over the bin tops, listing each bin by `nextInBin`: the
order in which `EventQueue::dump` visits the events. -/
def walkBins (s : Store Event) : ℕ → Option EventPtr → Option (List (List EventPtr))
  | _, none => some []
  | 0, some _ => none
  | n + 1, some top => do
    let te ← s.read top
    let bin ← s.walk Event.nextInBin s.size (some top)
    let bins ← walkBins s n te.nextBin
    return bin :: bins

/-- The bins of the queue, each top first. -/
def walk : Option (List (List EventPtr)) :=
  walkBins q.store q.store.size q.head

end EventQueue
