/-
# Runs of the event queue

`schedule`, `deschedule`, `reschedule`, `squash` and `serviceOne` over whole
runs.  Handlers are re-entrant: between the pop of an event and the return of
its `process()` any number of further operations may run, so `serviceOne` is
split into the steps `service` and `finish` (`serviceOne_eq_run`).

A run keeps a log of what happened to each event.
-/
import Gem5.EventQueueRep

open List Option EventQueue Event Store

/-! ## The log -/

/-- What happened to an event. -/
inductive Obs where
  /-- Entered the queue, by `schedule` or `reschedule`. -/
  | inserted (event : EventPtr)
  | descheduled (event : EventPtr)
  /-- Served, and its `process()` called. -/
  | processed (event : EventPtr)
  /-- Dequeued without processing, because it was squashed. -/
  | dropped (event : EventPtr)
  deriving DecidableEq, Repr

/-- The event leaves the queue. -/
def Obs.Removes (p : EventPtr) : Obs → Prop
  | inserted _ => False
  | descheduled q => q = p
  | processed q => q = p
  | dropped q => q = p

/-- The scheduled events according to the log (latest entry first), most
recently inserted first. -/
def pending : List Obs → List EventPtr
  | [] => []
  | .inserted p :: l => p :: (pending l).erase p
  | .descheduled p :: l => (pending l).erase p
  | .processed p :: l => (pending l).erase p
  | .dropped p :: l => (pending l).erase p

theorem pending_nodup (l : List Obs) : (pending l).Nodup := by
  induction l with
  | nil => exact nodup_nil
  | cons o l ih =>
    cases o with
    | inserted p => exact nodup_cons.mpr ⟨ih.not_mem_erase, ih.erase p⟩
    | descheduled p | processed p | dropped p => exact ih.erase p

variable {p : EventPtr} {l : List Obs}

/-- A pending event has been inserted and has not left the queue since. -/
theorem exists_inserted_of_mem_pending (h : p ∈ pending l) :
    ∃ a b, l = a ++ .inserted p :: b ∧ ∀ o ∈ a, ¬ o.Removes p := by
  induction l with
  | nil => simp [pending] at h
  | cons o l ih =>
    -- an entry about another event, or an insertion: look further back
    have hback : p ∈ pending l → ¬ o.Removes p →
        ∃ a b, o :: l = a ++ .inserted p :: b ∧ ∀ o ∈ a, ¬ o.Removes p := by
      intro hp ho
      obtain ⟨a, b, rfl, ha⟩ := ih hp
      exact ⟨o :: a, b, rfl, forall_mem_cons.mpr ⟨ho, ha⟩⟩
    have hne : ∀ q, p ∈ (pending l).erase q → q ≠ p := by
      rintro q hq rfl
      exact (pending_nodup l).not_mem_erase hq
    cases o with
    | inserted q =>
      by_cases hq : q = p
      · subst hq
        exact ⟨[], l, rfl, by simp⟩
      · rcases mem_cons.mp h with h | h
        · exact absurd h.symm hq
        · exact hback (mem_of_mem_erase h) (fun hr => hr)
    | descheduled q | processed q | dropped q => exact hback (mem_of_mem_erase h) (hne q h)

/-- The pending list is ordered by the latest insertion. -/
theorem pending_pairwise (l : List Obs) :
    (pending l).Pairwise fun p p' => l.idxOf (.inserted p) < l.idxOf (.inserted p') := by
  induction l with
  | nil => exact .nil
  | cons o l ih =>
    have hskip : ∀ q, (∀ p, o ≠ .inserted p) → ((pending l).erase q).Pairwise fun p p' =>
        (o :: l).idxOf (.inserted p) < (o :: l).idxOf (.inserted p') := by
      intro q ho
      apply (ih.sublist erase_sublist).imp
      intro p p' hlt
      rw [idxOf_cons_ne _ (ho p), idxOf_cons_ne _ (ho p')]
      omega
    cases o with
    | inserted q =>
      have hne : ∀ p ∈ (pending l).erase q, Obs.inserted q ≠ .inserted p := by
        rintro p hp ⟨rfl⟩
        exact (pending_nodup l).not_mem_erase hp
      refine pairwise_cons.mpr ⟨?_, ?_⟩
      · intro p hp
        rw [idxOf_cons_self, idxOf_cons_ne _ (hne p hp)]
        omega
      · apply (ih.sublist erase_sublist).imp_of_mem
        intro p p' hp hp' hlt
        rw [idxOf_cons_ne _ (hne p hp), idxOf_cons_ne _ (hne p' hp')]
        omega
    | descheduled q | processed q | dropped q => exact hskip q (by simp)

/-- The first match of a sorted list is related to every other match. -/
theorem rel_of_find?_eq_some {α : Type*} {R : α → α → Prop} {f : α → Bool} {l : List α}
    (hl : l.Pairwise R) {a b : α} (ha : l.find? f = some a) (hb : b ∈ l) (hfb : f b = true)
    (hne : b ≠ a) : R a b := by
  obtain ⟨-, as, bs, rfl, has⟩ := find?_eq_some_iff_append.mp ha
  rw [pairwise_append, pairwise_cons] at hl
  rcases mem_append.mp hb with hb | hb
  · have hnot := has b hb
    rw [hfb] at hnot
    simp at hnot
  · rcases mem_cons.mp hb with hb | hb
    · exact absurd hb hne
    · exact hl.2.1.1 b hb

/-! ## Flags and times -/

/-- The `Scheduled` flags mark exactly the events `ref`, which lie in the
future; every event is initialised. -/
def Flagged (s : Store Event) (t : Tick) (ref : List EventPtr) : Prop :=
  ∀ p e, s.read p = some e →
    (e.scheduled = true ↔ p ∈ ref) ∧ e.initialized = true ∧ (p ∈ ref → t ≤ e.when)

namespace Flagged

variable {s s' : Store Event} {t : Tick} {ref ref' : List EventPtr}

/-- What `Flagged` says of one event. -/
def At (t : Tick) (ref : List EventPtr) (p : EventPtr) (e : Event) : Prop :=
  (e.scheduled = true ↔ p ∈ ref) ∧ e.initialized = true ∧ (p ∈ ref → t ≤ e.when)

theorem At.of_core {e e' : Event} (h : At t ref p e) (hcore : e.core = e'.core) :
    At t ref p e' := by
  show At t ref p e'.core
  rw [← hcore]
  exact h

theorem links (h : Flagged s t ref) (hl : LinksOnly s s') : Flagged s' t ref := by
  intro p e' he'
  obtain ⟨e, he, hcore⟩ := hl.read_back he'
  exact At.of_core (h p e he) hcore

/-- One event changes, and with it its place in `ref`. -/
theorem write {e e' : Event} (he : s.read p = some e)
    (h : ∀ q, q ≠ p → ∀ x, s.read q = some x → At t ref q x) (hp : At t ref' p e')
    (hother : ∀ q, q ≠ p → (q ∈ ref' ↔ q ∈ ref)) : Flagged (s.write p e') t ref' := by
  intro q x hx
  by_cases hq : q = p
  · subst hq
    rw [read_write_self he] at hx
    cases hx
    exact hp
  · rw [read_write_ne hq] at hx
    rw [hother q hq]
    exact h q hq x hx

/-- One event is no longer scheduled. -/
theorem unschedule (h : Flagged s t ref) (hnd : ref.Nodup) {e e' : Event} (he : s.read p = some e)
    (hs : e'.scheduled = false) (hi : e'.initialized = e.initialized) :
    Flagged (s.write p e') t (ref.erase p) := by
  have hnot : p ∉ ref.erase p := hnd.not_mem_erase
  refine write he (fun q _ => h q) ⟨by simp [hs, hnot], hi.trans (h p e he).2.1, ?_⟩ ?_
  · exact fun hm => absurd hm hnot
  · exact fun q hq => mem_erase_of_ne hq

theorem free (h : Flagged s t ref) (p : EventPtr) : Flagged (s.free p) t ref := by
  intro q x hx
  by_cases hq : q = p
  · subst hq
    simp at hx
  · rw [read_free_ne hq] at hx
    exact h q x hx

theorem tick {t' : Tick} (h : Flagged s t ref)
    (ht : ∀ p ∈ ref, ∀ e, s.read p = some e → t' ≤ e.when) : Flagged s t' ref := by
  intro p e he
  obtain ⟨h1, h2, -⟩ := h p e he
  exact ⟨h1, h2, fun hp => ht p hp e he⟩

end Flagged

/-- The queue, the flags and the current tick agree on the scheduled events. -/
structure Consistent (q : EventQueue) (ref : List EventPtr) : Prop where
  queued : Queued q ref
  flagged : Flagged q.store q.curTick ref

/-! ## One operation -/

variable {e : Event}

theorem Event.when_le_of_key_le {e' : Event} (h : e.key ≤ e'.key) : e.when ≤ e'.when := by
  rw [key, Prod.Lex.le_iff] at h
  rcases h with h | ⟨h, -⟩
  · exact le_of_lt h
  · exact le_of_eq h

variable {q : EventQueue}

/-- Updating an event in place. -/
theorem EventQueue.update_eq (he : q.store.read p = some e) (f : Event → Event) :
    q.update p f = some { q with store := q.store.write p (f e) } := by
  simp [update, modify_eq he]

variable {ref : List EventPtr} {always : Bool}

/-- Changing flags keeps the queue. -/
theorem Queued.writeFlags (h : Queued q ref) (he : q.store.read p = some e) (f : Flags) :
    Queued { q with store := q.store.write p { e with flags := f } } ref := by
  exact h.congr rfl fun x _ => map_read_write he (by rfl) x

theorem Queued.read_head
    (h : Queued q ref) (hhd : q.head = some p) : ∃ e, q.store.read p = some e := by
  obtain ⟨b, hrep, -⟩ := h.rep
  cases b with
  | nil =>
    have hnone : q.head = none := hrep
    rw [hhd] at hnone
    cases hnone
  | cons x b =>
    obtain ⟨next, hbin, -⟩ := hrep
    rw [hhd] at hbin
    obtain ⟨e, he, -⟩ := hbin.read_top
    exact ⟨e, he⟩

/-- The pop of `serviceOne` takes out the head, which is a scheduled event of
least key and the most recent one with that key. -/
theorem Queued.popHead (h : Queued q ref) (hhd : q.head = some p) (he : q.store.read p = some e) :
    Bins.Next (keyOf q.store) ref p ∧
      ∃ q', q.popHead e = some q' ∧ q'.curTick = q.curTick ∧ Queued q' (ref.erase p) ∧
        LinksOnly q.store q'.store := by
  obtain ⟨b, hrep, htr⟩ := h.rep
  cases b with
  | nil =>
    have hnone : q.head = none := hrep
    rw [hhd] at hnone
    simp at hnone
  | cons x b =>
    obtain ⟨k, stack⟩ := x
    obtain ⟨next, hbin, hrest⟩ := hrep
    obtain ⟨top, below, rfl, htop⟩ := hbin.stack_cons
    rw [hhd] at htop hbin
    cases htop
    obtain ⟨hkey, hnext⟩ := htr.head
    obtain ⟨s', r, hrem, hrep', -, hlinks⟩ :=
      removeItem_rep hbin hrest (htr.elems_nodup h.nodup) (mem_cons_self)
    have hpop : q.popHead e = some { q with store := s', head := r } := by
      unfold EventQueue.popHead
      unfold removeItem at hrem
      cases hin : e.nextInBin with
      | none =>
        simp only [he, hin, Option.bind_eq_bind, Option.bind_some, if_true, Option.pure_def] at hrem
        obtain ⟨rfl, rfl⟩ := hrem
        rfl
      | some nx =>
        simp only [he, hin, Option.bind_eq_bind, Option.bind_some, if_true, Option.pure_def,
          bind_eq_some_iff] at hrem
        obtain ⟨s1, hs1, rfl, rfl⟩ := hrem
        simp [hs1]
    refine ⟨hnext, _, hpop, rfl, ⟨h.nodup.erase p, _, hrep', ?_⟩, hlinks⟩
    show Bins.Tracks (keyOf s') _ _
    rw [hlinks.keyOf_eq]
    have herase := htr.erase h.nodup p
    rw [hkey] at herase
    exact herase

namespace Consistent

theorem scheduled_iff (h : Consistent q ref) (he : q.store.read p = some e) :
    e.scheduled = true ↔ p ∈ ref := (h.flagged p e he).1

variable {w : Tick} {f : Flags}

/-- Give an event outside the queue its time, insert it and mark it: the
common tail of `schedule` and `reschedule`.  The event's own flag may still
say that it is scheduled. -/
theorem enqueue (hq : Queued q ref)
    (hfl : ∀ x, x ≠ p → ∀ e, q.store.read x = some e → Flagged.At q.curTick ref x e)
    (he : q.store.read p = some e) (hi : e.initialized = true) (hnot : p ∉ ref)
    (hw : q.curTick ≤ w) (f : Flags → Flags)
    (hf : ∀ x : Event, ({ x with flags := f x.flags } : Event).scheduled = true ∧
      ({ x with flags := f x.flags } : Event).initialized = x.initialized) :
    ∃ q1 q2 q3, q.update p (fun e => e.setWhen w) = some q1 ∧ q1.insert p = some q2 ∧
      q2.update p (fun e => { e with flags := f e.flags }) = some q3 ∧
      q3.curTick = q.curTick ∧ Consistent q3 (p :: ref) := by
  have hself : (q.store.write p (e.setWhen w)).read p = some (e.setWhen w) :=
    read_write_self he
  have hq1 : Queued { q with store := q.store.write p (e.setWhen w) } ref := by
    refine hq.congr rfl ?_
    intro x hx
    rw [read_write_ne (fun heq : x = p => hnot (heq ▸ hx))]
  obtain ⟨q2, hins, htick, hq2, hlinks⟩ := hq1.insert hself hnot
  obtain ⟨e2, he2, hcore⟩ := hlinks.read hself
  refine ⟨_, q2, _, update_eq he _, hins, update_eq he2 _, htick, hq2.writeFlags he2 _, ?_⟩
  rw [← htick] at hw hfl
  have hold : ∀ x, x ≠ p → ∀ y, q2.store.read x = some y → Flagged.At q2.curTick ref x y := by
    intro x hx y hy
    obtain ⟨z, hz, hzcore⟩ := hlinks.read_back hy
    have hz' : (q.store.write p (e.setWhen w)).read x = some z := hz
    rw [read_write_ne hx] at hz'
    exact (hfl x hx z hz').of_core hzcore
  refine Flagged.write he2 hold ⟨by simp [(hf e2).1], ?_, fun _ => ?_⟩ fun x hx => by simp [hx]
  · exact (hf e2).2.trans ((congrArg initialized hcore).trans hi)
  · exact hw.trans (congrArg when hcore).ge

variable (h : Consistent q ref)

include h

section

variable (he : q.store.read p = some e)

include he

theorem schedule (hs : e.scheduled = false) (hw : q.curTick ≤ w) :
    ∃ q', q.schedule p w = some q' ∧ q'.curTick = q.curTick ∧ Consistent q' (p :: ref) := by
  have hi := (h.flagged p e he).2.1
  have hnot : p ∉ ref := by
    rw [← h.scheduled_iff he, hs]
    simp
  obtain ⟨q1, q2, q3, h1, h2, h3, htick, hc⟩ := enqueue h.queued
    (fun x _ y hy => h.flagged x y hy) he hi hnot hw (fun f => Flags.set f Scheduled)
    (fun x => ⟨scheduled_setFlag_Scheduled x, initialized_setFlag (by decide) x⟩)
  refine ⟨q3, ?_, htick, hc⟩
  have h3' : q2.update p (fun e => e.setFlag Scheduled) = some q3 := h3
  simp [EventQueue.schedule, he, hs, hi, not_lt.mpr hw, h1, h2, h3']

/-- A managed event that is not scheduled is deleted; no other cell changes. -/
theorem release : ∃ q', q.release p = some q' ∧ q'.curTick = q.curTick ∧ Consistent q' ref := by
  by_cases hdel : (e.isManaged && !e.scheduled) = true
  · have hnot : p ∉ ref := by
      rw [← h.scheduled_iff he]
      simp at hdel
      simp [hdel.2]
    refine ⟨{ q with store := q.store.free p }, ?_, rfl, h.queued.congr rfl ?_, h.flagged.free p⟩
    · simp only [EventQueue.release, he, Option.bind_eq_bind, Option.bind_some, if_pos hdel,
        Option.pure_def]
    · intro x hx
      rw [read_free_ne (fun heq : x = p => hnot (heq ▸ hx))]
  · refine ⟨q, ?_, rfl, h⟩
    simp only [EventQueue.release, he, Option.bind_eq_bind, Option.bind_some, if_neg hdel,
      Option.pure_def]

omit he in
theorem deschedule (hmem : p ∈ ref) : ∃ q', q.deschedule p = some q' ∧ q'.curTick = q.curTick ∧
      Consistent q' (ref.erase p) := by
  obtain ⟨e, he⟩ := h.queued.read hmem
  obtain ⟨hsch, hi, -⟩ := h.flagged p e he
  obtain ⟨q1, hrem, htick, hq1, hlinks⟩ := h.queued.remove hmem
  obtain ⟨e1, he1, hcore⟩ := hlinks.read he
  set e2 := (e1.clearFlag Squashed).clearFlag Scheduled with he2
  have hinit : e2.initialized = e1.initialized := by
    rw [initialized_clearFlag (by decide), initialized_clearFlag (by decide)]
  have hc : Consistent { q1 with store := q1.store.write p e2 } (ref.erase p) := by
    refine ⟨hq1.writeFlags he1 _, ?_⟩
    have hfl : Flagged q1.store q1.curTick ref := by
      rw [htick]
      exact h.flagged.links hlinks
    exact hfl.unschedule h.queued.nodup he1 (scheduled_clearFlag_Scheduled _) hinit
  obtain ⟨q', hrel, htick', hc'⟩ := hc.release (read_write_self he1)
  refine ⟨q', ?_, htick'.trans htick, hc'⟩
  simp [EventQueue.deschedule, he, hsch.mpr hmem, hi, hrem, EventQueue.update_eq he1, ← he2, hrel]

theorem reschedule (hw : q.curTick ≤ w) (hs : (always || e.scheduled) = true) :
    ∃ q', q.reschedule p w always = some q' ∧ q'.curTick = q.curTick ∧
      Consistent q' (p :: ref.erase p) := by
  obtain ⟨hsch, hi, -⟩ := h.flagged p e he
  have hflags : ∀ x : Event, ((x.clearFlag Squashed).setFlag Scheduled).scheduled = true ∧
      ((x.clearFlag Squashed).setFlag Scheduled).initialized = x.initialized := by
    intro x
    refine ⟨by simp, ?_⟩
    rw [initialized_setFlag (by decide), initialized_clearFlag (by decide)]
  -- out of its old bin first, with its `Scheduled` flag still up
  obtain ⟨q0, hrem, htick, hq0, hlinks⟩ : ∃ q0,
      (if e.scheduled = true then q.remove p else some q) = some q0 ∧ q0.curTick = q.curTick ∧
        Queued q0 (ref.erase p) ∧ LinksOnly q.store q0.store := by
    by_cases hsc : e.scheduled = true
    · rw [if_pos hsc]
      exact h.queued.remove (hsch.mp hsc)
    · rw [if_neg hsc, erase_of_not_mem fun hm => hsc (hsch.mpr hm)]
      exact ⟨q, rfl, rfl, h.queued, LinksOnly.refl _⟩
  obtain ⟨e0, he0, hcore⟩ := hlinks.read he
  have hfl := h.flagged.links hlinks
  obtain ⟨q1, q2, q3, h1, h2, h3, htick', hc⟩ := enqueue hq0
    (fun x hx y hy => by
      rw [Flagged.At, mem_erase_of_ne hx, htick]
      exact hfl x y hy)
    he0 ((congrArg initialized hcore).trans hi) h.queued.nodup.not_mem_erase (htick ▸ hw)
    (fun f => Flags.set (Flags.clear f Squashed) Scheduled) hflags
  refine ⟨q3, ?_, htick'.trans htick, hc⟩
  have h3' : q2.update p (fun e => (e.clearFlag Squashed).setFlag Scheduled) = some q3 := h3
  split at hrem
  · next hsc => simp [EventQueue.reschedule, he, hsc, hi, not_lt.mpr hw, hrem, h1, h2, h3']
  · next hsc =>
      cases hrem
      have halways : always = true := by simpa [hsc] using hs
      simp [EventQueue.reschedule, he, halways, hsc, hi, not_lt.mpr hw, h1, h2, h3']

/-- Other flags than `Scheduled` and `Initialized` do not matter. -/
theorem setFlags (hs : scheduled { e with flags := f } = e.scheduled)
    (hi : initialized { e with flags := f } = e.initialized) :
    Consistent { q with store := q.store.write p { e with flags := f } } ref := by
  obtain ⟨hsch, hinit, hw⟩ := h.flagged p e he
  exact ⟨h.queued.writeFlags he _, Flagged.write he (fun x _ => h.flagged x)
    ⟨hs ▸ hsch, hi ▸ hinit, hw⟩ (fun _ _ => .rfl)⟩

theorem squash : ∃ q', q.squash p = some q' ∧ q'.curTick = q.curTick ∧ Consistent q' ref :=
  ⟨_, update_eq he _, rfl, h.setFlags he e.scheduled_setFlag_Squashed
    (initialized_setFlag (m := Squashed) (by decide) e)⟩

end

/-- Constructing an event leaves the queue alone. -/
theorem alloc {pri : Priority} (hnew : new pri f = some e) :
    Consistent { q with store := (q.store.alloc e).1 } ref := by
  have hsize : q.store.size ∉ ref := by
    intro hm
    obtain ⟨y, hy⟩ := h.queued.read hm
    rw [read_size] at hy
    simp at hy
  obtain ⟨hs, hi⟩ := new_spec hnew
  refine ⟨h.queued.congr rfl ?_, ?_⟩
  · intro x hx
    rw [read_alloc_ne _ _ (fun heq : x = q.store.size => hsize (heq ▸ hx))]
  · intro x y hy
    by_cases hx : x = q.store.size
    · subst hx
      have hy' : (q.store.alloc e).1.read q.store.size = some y := hy
      rw [read_alloc_self] at hy'
      cases hy'
      exact ⟨by simp [hs, hsize], hi, fun hm => absurd hm hsize⟩
    · have hy' : (q.store.alloc e).1.read x = some y := hy
      rw [read_alloc_ne _ _ hx] at hy'
      exact h.flagged x y hy'

/-- The pop of `serviceOne`, with the `Scheduled` flag of the head taken down
first. -/
theorem popHead (hhd : q.head = some p) (he : q.store.read p = some e) :
    Bins.Next (keyOf q.store) ref p ∧
      ∃ q' e', popHead { q with store := q.store.write p (e.clearFlag Scheduled) }
          (e.clearFlag Scheduled) = some q' ∧
        q'.curTick = q.curTick ∧ Consistent q' (ref.erase p) ∧ keyOf q'.store = keyOf q.store ∧
        q'.store.read p = some e' ∧ e'.when = e.when := by
  set e1 := e.clearFlag Scheduled with he1
  set q1 : EventQueue := { q with store := q.store.write p e1 } with hq1
  have hself : q1.store.read p = some e1 := read_write_self he
  have hkeys : keyOf q1.store = keyOf q.store :=
    funext fun x => congrArg (Option.getD · _) (map_read_write he (show e1.key = e.key from rfl) x)
  have hqd1 : Queued q1 ref := h.queued.writeFlags he _
  obtain ⟨hnext, q', hpop, htick, hqd, hlinks⟩ := hqd1.popHead hhd hself
  rw [hkeys] at hnext
  have hfl : Flagged q1.store q.curTick (ref.erase p) :=
    h.flagged.unschedule h.queued.nodup he (scheduled_clearFlag_Scheduled e)
      (initialized_clearFlag (by decide) e)
  obtain ⟨e', he', hcore⟩ := hlinks.read hself
  have hwhen : e'.when = e.when := (congrArg when hcore).trans rfl
  refine ⟨hnext, q', e', hpop, htick, ⟨hqd, ?_⟩, hlinks.keyOf_eq.trans hkeys, he', hwhen⟩
  rw [htick]
  exact hfl.links hlinks

/-- **One `serviceOne`, up to the call of the handler.**  The head is popped;
unless it is squashed the current tick moves to its time. -/
theorem serviceBegin (hhd : q.head = some p) :
    ∃ e q', q.store.read p = some e ∧ Bins.Next (keyOf q.store) ref p ∧
      q.serviceBegin = some (q', p, !e.squashed) ∧ Consistent q' (ref.erase p) ∧
      q'.curTick = if e.squashed then q.curTick else e.when := by
  obtain ⟨e, he⟩ := h.queued.read_head hhd
  obtain ⟨hnext, q2, e2, hpop, htick2, hc2, hkeys, he2, hwhen⟩ := h.popHead hhd he
  set e1 := e.clearFlag Scheduled with he1
  set q1 : EventQueue := { q with store := q.store.write p e1 } with hq1
  have hupd : q.update p (fun e => e.clearFlag Scheduled) = some q1 :=
    update_eq he _
  have hself : q1.store.read p = some e1 := read_write_self he
  have hsq : e1.squashed = e.squashed := e.squashed_clearFlag_Scheduled
  cases hcase : e.squashed with
  | true =>
    have hc3 : Consistent { q2 with store := q2.store.write p (e2.clearFlag Squashed) }
        (ref.erase p) :=
      hc2.setFlags he2 e2.scheduled_clearFlag_Squashed
        (initialized_clearFlag (by decide) e2)
    obtain ⟨q3, hrel, htick3, hc4⟩ := hc3.release (read_write_self he2)
    refine ⟨e, q3, he, hnext, ?_, hc4, ?_⟩
    · simp [EventQueue.serviceBegin, hhd, hupd, hself, hpop, hsq, hcase,
        EventQueue.update_eq he2, hrel]
    · simp only [hcase]
      exact htick3.trans htick2
  | false =>
    refine ⟨e, { q2 with curTick := e.when }, he, hnext, ?_, ⟨?_, ?_⟩, ?_⟩
    · simp [EventQueue.serviceBegin, hhd, hupd, hself, hpop, hsq, hcase]
      rfl
    · exact hc2.queued.congr rfl (fun _ _ => rfl)
    · -- no event left in the queue is earlier than the head
      apply hc2.flagged.tick
      intro x hx y hy
      have hle := hnext.least x (mem_of_mem_erase hx)
      rw [← hkeys, keyOf_of_read hy, keyOf_of_read he2] at hle
      rw [← hwhen]
      exact when_le_of_key_le hle
    · simp [hcase]

theorem serviceEnd {q' : EventQueue} {r : Option EventPtr} (hend : q.serviceEnd p = some (q', r)) :
    Consistent q' ref ∧ q'.curTick = q.curTick := by
  unfold EventQueue.serviceEnd at hend
  rw [bind_eq_bind, bind_eq_some_iff] at hend
  obtain ⟨e, he, hend⟩ := hend
  split at hend
  · split at hend
    · simp at hend
    · cases hend
      exact ⟨h, rfl⟩
  · obtain ⟨q1, hrel, htick, hc⟩ := h.release he
    rw [hrel, bind_eq_bind] at hend
    cases hend
    exact ⟨hc, htick⟩

end Consistent

/-! ## Runs -/

/-- An operation a handler, or anyone else, may perform. -/
inductive Op where
  | new (priority : Priority) (flags : Flags)
  | schedule (event : EventPtr) (when : Tick)
  | deschedule (event : EventPtr)
  | reschedule (event : EventPtr) (when : Tick) (always : Bool)
  | squash (event : EventPtr)
  deriving DecidableEq, Repr

namespace Op

def exec (q : EventQueue) : Op → Option EventQueue
  | new priority flags => do
    let e ← Event.new priority flags
    return { q with store := (q.store.alloc e).1 }
  | schedule event when => q.schedule event when
  | deschedule event => q.deschedule event
  | reschedule event when always => q.reschedule event when always
  | squash event => q.squash event

def obs : Op → List Obs
  | new _ _ => []
  | schedule event _ => [.inserted event]
  | deschedule event => [.descheduled event]
  | reschedule event _ _ => [.inserted event]
  | squash _ => []

end Op

/-- A step of a run: an operation, the pop of `serviceOne`, or the return of
the handler it called. -/
inductive Step where
  | op (o : Op)
  | service
  | finish
  deriving DecidableEq, Repr

/-- The queue, the event whose handler is running, and the log so far. -/
structure Sim where
  queue : EventQueue
  running : Option EventPtr
  log : List Obs
  deriving DecidableEq, Repr

namespace Sim

/-- A new queue: no events, at tick 0. -/
def init : Sim := ⟨⟨⟨[]⟩, none, 0⟩, none, []⟩

def step (m : Sim) : Step → Option Sim
  | .op o => (o.exec m.queue).map fun q => { m with queue := q, log := o.obs ++ m.log }
  | .service =>
    match m.running with
    | some _ => none  -- `process()` does not serve events itself
    | none => m.queue.serviceBegin.map fun (q, event, live) =>
      if live then ⟨q, some event, .processed event :: m.log⟩
      else ⟨q, none, .dropped event :: m.log⟩
  | .finish => do
    let event ← m.running
    let (q, _) ← m.queue.serviceEnd event
    return { m with queue := q, running := none }

def run (m : Sim) (steps : List Step) : Option Sim := runSteps step m steps

/-- The operations of a handler only touch the queue and the log. -/
theorem run_ops (m : Sim) (ops : List Op) :
    runSteps step m (ops.map .op) = (runSteps Op.exec m.queue ops).map fun q =>
      { m with queue := q, log := (ops.map Op.obs).reverse.flatten ++ m.log } := by
  induction ops generalizing m with
  | nil => rfl
  | cons o ops ih =>
    rw [map_cons, runSteps_cons, runSteps_cons]
    cases hq : o.exec m.queue with
    | none => simp [step, hq]
    | some q =>
      simp only [step, hq, map_some, bind_some]
      rw [ih]
      simp

variable {event : EventPtr} {m : Sim}

/-- **`serviceOne` with a live event** is the pop, the handler's operations
and the return of the handler. -/
theorem serviceOne_eq_run (hm : m.running = none)
    (hbegin : m.queue.serviceBegin = some (q, event, true)) (ops : List Op) :
    (m.queue.serviceOne fun _ q => runSteps Op.exec q ops).map Prod.fst =
      (m.run (.service :: (ops.map .op ++ [.finish]))).map queue := by
  rw [run, runSteps_cons]
  simp only [step, hm, hbegin, map_some, bind_some]
  rw [runSteps_concat, run_ops]
  simp only [serviceOne, hbegin, bind_eq_bind, bind_some, if_true]
  cases runSteps Op.exec q ops with
  | none => rfl
  | some q' =>
    simp only [bind_some, map_some, step, bind_eq_bind]
    cases q'.serviceEnd event <;> rfl

/-- The invariant of runs. -/
def Inv (m : Sim) : Prop := Consistent m.queue (pending m.log)

theorem inv_init : init.Inv := by
  refine ⟨Queued.empty rfl, ?_⟩
  intro p e he
  simp [init, Store.read] at he

end Sim

variable {q' : EventQueue}

/-- What the assertions of `schedule` check. -/
theorem EventQueue.schedule_pre {w : Tick} (h : q.schedule p w = some q') :
    ∃ e, q.store.read p = some e ∧ q.curTick ≤ w ∧ e.scheduled = false := by
  unfold schedule at h
  rw [bind_eq_bind, bind_eq_some_iff] at h
  obtain ⟨e, he, h⟩ := h
  split at h
  · simp at h
  · next hpre =>
      simp at hpre
      exact ⟨e, he, hpre.1.1, hpre.1.2⟩

theorem EventQueue.deschedule_pre
    (h : q.deschedule p = some q') : ∃ e, q.store.read p = some e ∧ e.scheduled = true := by
  unfold deschedule at h
  rw [bind_eq_bind, bind_eq_some_iff] at h
  obtain ⟨e, he, h⟩ := h
  split at h
  · simp at h
  · next hpre =>
      simp at hpre
      exact ⟨e, he, hpre.1⟩

theorem EventQueue.reschedule_pre {w : Tick} (h : q.reschedule p w always = some q') :
    ∃ e, q.store.read p = some e ∧ q.curTick ≤ w ∧ (always || e.scheduled) = true := by
  unfold reschedule at h
  rw [bind_eq_bind, bind_eq_some_iff] at h
  obtain ⟨e, he, h⟩ := h
  split at h
  · simp at h
  · next hpre =>
      simp at hpre
      refine ⟨e, he, hpre.1.1, ?_⟩
      cases always <;> simp_all

/-- One operation keeps the invariant and the current tick. -/
theorem Op.exec_spec {log : List Obs} {o : Op}
    (h : Consistent q (pending log)) (hex : o.exec q = some q') :
    Consistent q' (pending (o.obs ++ log)) ∧ q'.curTick = q.curTick := by
  cases o with
  | new pri f =>
    simp only [exec, bind_eq_bind, bind_eq_some_iff] at hex
    obtain ⟨e, hnew, hq⟩ := hex
    cases hq
    exact ⟨h.alloc hnew, rfl⟩
  | schedule p w =>
    obtain ⟨e, he, hw, hs⟩ := schedule_pre hex
    obtain ⟨q1, hq1, htick, hc⟩ := h.schedule he hs hw
    obtain rfl := mem_unique hq1 hex
    have hnot : p ∉ pending log := by
      rw [← h.scheduled_iff he, hs]
      simp
    refine ⟨?_, htick⟩
    show Consistent q1 (p :: (pending log).erase p)
    rw [erase_of_not_mem hnot]
    exact hc
  | deschedule p =>
    obtain ⟨e, he, hs⟩ := deschedule_pre hex
    obtain ⟨q1, hq1, htick, hc⟩ := h.deschedule ((h.scheduled_iff he).mp hs)
    obtain rfl := mem_unique hq1 hex
    exact ⟨hc, htick⟩
  | reschedule p w always =>
    obtain ⟨e, he, hw, hs⟩ := reschedule_pre hex
    obtain ⟨q1, hq1, htick, hc⟩ := h.reschedule he hw hs
    obtain rfl := mem_unique hq1 hex
    exact ⟨hc, htick⟩
  | squash p =>
    cases he : q.store.read p with
    | none => simp [exec, EventQueue.squash, EventQueue.update, Store.modify, he] at hex
    | some e =>
      obtain ⟨q1, hq1, htick, hc⟩ := h.squash he
      obtain rfl := mem_unique hq1 hex
      exact ⟨hc, htick⟩

namespace Sim

variable {m m' : Sim} {st : Step}

/-- What the service of an event does. -/
theorem step_service (h : m.Inv) (hm : m.running = none) (hhd : m.queue.head = some p) :
    ∃ e m', m.queue.store.read p = some e ∧ m.step .service = some m' ∧ m'.Inv ∧
      Bins.Next (keyOf m.queue.store) (pending m.log) p ∧
      m'.queue.curTick = (if e.squashed then m.queue.curTick else e.when) ∧
      m'.running = (if e.squashed then none else some p) ∧
      m'.log = (if e.squashed then .dropped p else .processed p) :: m.log := by
  obtain ⟨e, q', he, hnext, hbegin, hc, htick⟩ := Consistent.serviceBegin h hhd
  cases hsq : e.squashed with
  | true =>
    rw [hsq] at hbegin
    refine ⟨e, ⟨q', none, .dropped p :: m.log⟩, he, ?_, hc, hnext, htick, ?_⟩
    · simp [step, hm, hbegin]
    · simp [hsq]
  | false =>
    rw [hsq] at hbegin
    refine ⟨e, ⟨q', some p, .processed p :: m.log⟩, he, ?_, hc, hnext, htick, ?_⟩
    · simp [step, hm, hbegin]
    · simp [hsq]

/-- A service step needs an idle queue with an event in it. -/
theorem service_pre (hs : m.step .service = some m') :
    m.running = none ∧ ∃ p, m.queue.head = some p := by
  simp only [step] at hs
  split at hs
  · simp at hs
  · next hm =>
      refine ⟨hm, ?_⟩
      cases hhd : m.queue.head with
      | none => simp [serviceBegin, hhd] at hs
      | some p => exact ⟨p, rfl⟩

/-- **One step** keeps the invariant, and the current tick never decreases. -/
theorem step_inv (h : m.Inv) (hs : m.step st = some m') :
    m'.Inv ∧ m.queue.curTick ≤ m'.queue.curTick := by
  cases st with
  | op o =>
    simp only [step, map_eq_some_iff] at hs
    obtain ⟨q, hex, rfl⟩ := hs
    obtain ⟨hc, htick⟩ := Op.exec_spec h hex
    exact ⟨hc, le_of_eq htick.symm⟩
  | service =>
    obtain ⟨hm, p, hhd⟩ := service_pre hs
    obtain ⟨e, m1, he, hm1, hinv, hnext, htick, -, -⟩ := step_service h hm hhd
    rw [hm1] at hs
    cases hs
    refine ⟨hinv, ?_⟩
    rw [htick]
    split
    · exact le_rfl
    · exact (h.flagged p e he).2.2 hnext.mem
  | finish =>
    simp only [step, bind_eq_bind, bind_eq_some_iff] at hs
    obtain ⟨p, -, ⟨q, r⟩, hend, hq⟩ := hs
    cases hq
    obtain ⟨hc, htick⟩ := Consistent.serviceEnd h hend
    exact ⟨hc, le_of_eq htick.symm⟩

/-- Every processed event was pending when it was served. -/
def LogOk (l : List Obs) : Prop :=
  ∀ l₁ p l₂, l = l₁ ++ .processed p :: l₂ → p ∈ pending l₂

theorem LogOk.cons {o : Obs} (h : LogOk l)
    (ho : ∀ p, o = .processed p → p ∈ pending l) : LogOk (o :: l) := by
  intro l1 p l2 heq
  cases l1 with
  | nil =>
    simp only [nil_append, cons.injEq] at heq
    rw [← heq.2]
    exact ho p heq.1
  | cons o' l1 =>
    simp only [cons_append, cons.injEq] at heq
    exact h l1 p l2 heq.2

theorem step_logOk (h : m.Inv) (hl : LogOk m.log) (hs : m.step st = some m') : LogOk m'.log := by
  cases st with
  | op o =>
    simp only [step, map_eq_some_iff] at hs
    obtain ⟨q, -, rfl⟩ := hs
    cases o with
    | new _ _ => exact hl
    | schedule p _ | deschedule p | reschedule p _ _ => exact hl.cons (by simp)
    | squash p => exact hl
  | service =>
    obtain ⟨hm, p, hhd⟩ := service_pre hs
    obtain ⟨e, m1, -, hm1, -, hnext, -, -, hlog⟩ := step_service h hm hhd
    rw [hm1] at hs
    cases hs
    rw [hlog]
    apply hl.cons
    intro p' hp'
    split at hp'
    · simp at hp'
    · cases hp'
      exact hnext.mem
  | finish =>
    simp only [step, bind_eq_bind, bind_eq_some_iff] at hs
    obtain ⟨p, -, ⟨q, r⟩, -, hq⟩ := hs
    cases hq
    exact hl

theorem run_inv {steps : List Step} (hrun : init.run steps = some m) : m.Inv ∧ LogOk m.log := by
  refine runSteps_invariant (I := fun m => m.Inv ∧ LogOk m.log) ?_ ⟨inv_init, ?_⟩ hrun
  · intro m st m' h hs
    exact ⟨(step_inv h.1 hs).1, step_logOk h.1 h.2 hs⟩
  · intro l1 p l2 heq
    simp [init] at heq

end Sim
