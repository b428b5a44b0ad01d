/-
# Checkpoints of events

Model of `Event::serialize`, `Event::unserialize` and `EventQueue::checkpointReschedule`
(sim/eventq.cc).  Reading an event that was scheduled and not squashed clears the flag that
`checkpointReschedule` asks for, so such an event does not come back; one that was squashed does.
-/
import Gem5.EventQueueRep

namespace Event

/-- What the checkpoint has of an event. -/
structure Checkpoint where
  when : Tick
  priority : Priority
  flags : Flags

-- the flags of an initialized event are not negative as a `short`
def serialize (e : Event) : Checkpoint := ⟨e.when, e.priority, e.flags⟩

def unserialize (e : Event) (cp : Checkpoint) : Option Event :=
  if e.scheduled || !e.initialized then none
  else
    let e := { e with when := cp.when, priority := cp.priority, flags := cp.flags }
    let e := e.setFlag Initialized
    some (if e.scheduled && !e.squashed then e.clearFlag (Squashed ||| Scheduled) else e)

theorem unserialize_spec {fresh : Event} (hs : fresh.scheduled = false) (hi : fresh.initialized)
    (e : Event) : ∃ e', fresh.unserialize e.serialize = some e' ∧
      (e'.scheduled ↔ e.scheduled ∧ e.squashed) := by
  have hflags : ∀ m, Flags.isSet Initialized m = false →
      Flags.isSet (Flags.set e.flags Initialized) m = Flags.isSet e.flags m := by
    intro m hm
    rw [Flags.isSet_set, hm, Bool.or_false]
  set e1 : Event := ⟨fresh.nextBin, fresh.nextInBin, e.when, e.priority, e.flags.set Initialized⟩
  have hscheduled : e1.scheduled = e.scheduled := hflags _ rfl
  have hsquashed : e1.squashed = e.squashed := hflags _ rfl
  refine ⟨if e1.scheduled && !e1.squashed then e1.clearFlag (Squashed ||| Scheduled) else e1,
    by rw [unserialize, hs, hi]; rfl, ?_⟩
  split_ifs with hlost
  · have hclear : (e1.clearFlag (Squashed ||| Scheduled)).scheduled = false :=
      Flags.isSet_clear_of_covers (by decide) _
    simp_all
  · simp_all

end Event

namespace EventQueue

variable (q : EventQueue)

section

variable (event : EventPtr)

def checkpointReschedule : Option EventQueue := do
  let e ← q.store.read event
  if e.scheduled then q.insert event else some q

/-- An event is read from a checkpoint and scheduled again. -/
def restore (cp : Event.Checkpoint) : Option EventQueue := do
  let e ← q.store.read event
  let e ← e.unserialize cp
  checkpointReschedule { q with store := q.store.write event e } event

/-- The event is found in the queue. -/
def Holds : Prop :=
  ∃ bins, q.walk = some bins ∧ event ∈ bins.flatten

/-- The event is as `e` was: in the queue if it was scheduled and not squashed. -/
def Restored (e : Event) : Prop :=
  if e.scheduled ∧ ¬ e.squashed then
    q.Holds event ∧ ∃ e', q.store.read event = some e' ∧ e'.when = e.when ∧
      e'.priority = e.priority ∧ e'.scheduled
  else ¬ q.Holds event

end

variable {q : EventQueue} {ref : List EventPtr} {event : EventPtr} {fresh : Event}

theorem holds_iff (h : Queued q ref) : q.Holds event ↔ event ∈ ref := by
  obtain ⟨b, hwalk, htr⟩ := h.walk
  simp only [Holds, hwalk, Option.some.injEq, exists_eq_left']
  exact htr.mem_elems

/-- **A scheduled event is not restored**, whether it was squashed or not; any other is. -/
theorem restored_iff (h : Queued q ref) (hnot : event ∉ ref)
    (hread : q.store.read event = some fresh) (hs : fresh.scheduled = false)
    (hi : fresh.initialized) (e : Event) :
    ∃ q', q.restore event e.serialize = some q' ∧ (q'.Restored event e ↔ ¬ e.scheduled) := by
  obtain ⟨e', he', hscheduled⟩ := Event.unserialize_spec hs hi e
  have hread' := Store.read_write_self (w := e') hread
  have hq : Queued { q with store := q.store.write event e' } ref := by
    refine h.congr rfl fun p hp => ?_
    rw [Store.read_write_ne (ne_of_mem_of_not_mem hp hnot)]
  simp only [restore, hread, he', checkpointReschedule, hread', Option.bind_eq_bind,
    Option.bind_some, hscheduled]
  by_cases hboth : e.scheduled ∧ e.squashed
  · obtain ⟨q', hinsert, -, hq', -⟩ := hq.insert hread' hnot
    refine ⟨q', by rw [if_pos hboth, hinsert], iff_of_false ?_ (not_not.mpr hboth.1)⟩
    simpa [Restored, hboth] using (holds_iff hq').mpr List.mem_cons_self
  · refine ⟨_, if_neg hboth, ?_⟩
    have hlost := (holds_iff hq).not.mpr hnot
    rw [Restored]
    split_ifs with hwas
    · exact iff_of_false (fun hr => hlost hr.1) (not_not.mpr hwas.1)
    · exact iff_of_true hlost fun hs => hwas ⟨hs, fun hsq => hboth ⟨hs, hsq⟩⟩

/-- A queue without events, and one event that was just constructed. -/
def constructed : EventQueue := ⟨⟨[some ⟨none, none, 0, 0, Event.Initialized⟩]⟩, none, 0⟩

theorem restored_iff_constructed :
    ∃ q, constructed.restore 0 (Event.serialize ⟨none, none, 5, 0, Event.Initialized⟩) = some q ∧
      (q.Restored 0 ⟨none, none, 5, 0, Event.Initialized⟩ ↔
        ¬ Event.scheduled ⟨none, none, 5, 0, Event.Initialized⟩) :=
  restored_iff (Queued.empty rfl) nofun rfl rfl rfl _

/-- An event scheduled for tick 5 is lost, and one that was also squashed comes back. -/
theorem scheduled_lost : ∃ q q',
    constructed.restore 0 ⟨5, 0, Event.Initialized ||| Event.Scheduled⟩ = some q ∧
      q.walk = some [] ∧
    constructed.restore 0 ⟨5, 0, Event.Initialized ||| Event.Scheduled ||| Event.Squashed⟩
      = some q' ∧ q'.walk = some [[0]] :=
  ⟨_, _, rfl, rfl, rfl, rfl⟩

end EventQueue
