/-
# Delivery by a packet queue

The invariant of the queue, kept by every allowed step, and what follows for every run.
-/
import Gem5.PacketQueue

open List Nat

namespace PacketQueue

open DeferredPacket Packet

/-! ## Histories -/

/-- Is the packet for an address in an address space? -/
def Packet.isFor (addr : BitVec 64) (secure : Bool) (pkt : Packet) : Bool :=
  pkt.addr == addr && pkt.isSecure == secure

/-- **No packet is lost or sent twice**, and the order in which packets wait. -/
structure Queue.Delivers (p : Params) (q : Queue) : Prop where
  perm : q.enqueued.Perm (q.sent ++ q.transmitList.map DeferredPacket.pkt)
  sorted : p.forceOrder = false → q.transmitList.Pairwise fun d d' => d.tick ≤ d'.tick
  order : p.forceOrder = true → ∀ addr secure, q.enqueued.filter (Packet.isFor addr secure) =
    (q.sent ++ q.transmitList.map DeferredPacket.pkt).filter (Packet.isFor addr secure)

section Insert

variable {p : Params} {dp : DeferredPacket} {l : List DeferredPacket}

theorem not_matchAddr_of_passes {d : DeferredPacket} (hforce : p.forceOrder = true)
    (h : passes p dp d) {addr : BitVec 64} {secure : Bool}
    (hdp : dp.pkt.isFor addr secure) : d.pkt.isFor addr secure = false := by
  simp only [passes, hforce, Bool.not_eq_true', Bool.or_eq_false_iff] at h
  simp only [isFor, Bool.and_eq_true, beq_iff_eq] at hdp
  have hmatch := h.1
  rw [matchAddr, hdp.1, hdp.2] at hmatch
  exact hmatch

/-- Packets for one address keep their order. -/
theorem filter_insert (hforce : p.forceOrder = true) (addr : BitVec 64) (secure : Bool) :
    ((l.rdropWhile (passes p dp) ++ dp :: l.rtakeWhile (passes p dp)).map
        DeferredPacket.pkt).filter (isFor addr secure) =
      (l.map DeferredPacket.pkt).filter (isFor addr secure) ++
        [dp.pkt].filter (isFor addr secure) := by
  have hsplit : (l.map pkt).filter (isFor addr secure) =
      ((l.rdropWhile (passes p dp)).map pkt).filter (isFor addr secure) ++
        ((l.rtakeWhile (passes p dp)).map pkt).filter
          (isFor addr secure) := by
    rw [← filter_append, ← map_append, rdropWhile_append_rtakeWhile]
  rw [hsplit, map_append, map_cons, filter_append]
  cases hdp : dp.pkt.isFor addr secure with
  | false => simp [hdp]
  | true =>
    -- the packets that are passed are for other addresses
    have hpassed : ((l.rtakeWhile (passes p dp)).map pkt).filter (isFor addr secure) = [] := by
      rw [filter_eq_nil_iff]
      intro pkt hpkt
      obtain ⟨d, hd, rfl⟩ := mem_map.mp hpkt
      rw [not_matchAddr_of_passes hforce (mem_rtakeWhile_imp hd) hdp]
      exact Bool.false_ne_true
    rw [filter_cons_of_pos hdp, hpassed, filter_cons_of_pos hdp, filter_nil, append_nil]

/-- Insertion into a sorted list. -/
theorem sorted_insert (hforce : p.forceOrder = false)
    (hl : l.Pairwise fun d d' => d.tick ≤ d'.tick) :
    (l.rdropWhile (passes p dp) ++ dp :: l.rtakeWhile (passes p dp)).Pairwise
      fun d d' => d.tick ≤ d'.tick := by
  have hsplit : l.rdropWhile (passes p dp) ++ l.rtakeWhile (passes p dp) = l :=
    rdropWhile_append_rtakeWhile
  have hpasses : ∀ d, passes p dp d ↔ dp.tick < d.tick := by
    simp [passes, hforce]
  rw [← hsplit, pairwise_append] at hl
  have hlater : ∀ d ∈ l.rtakeWhile (passes p dp), dp.tick ≤ d.tick := fun d hd =>
    ((hpasses d).mp (mem_rtakeWhile_imp hd)).le
  have hearlier : ∀ d ∈ l.rdropWhile (passes p dp), d.tick ≤ dp.tick := by
    intro d hd
    -- the last one before the place is not passed, and the others are as early
    obtain ⟨init, last, hinit⟩ : ∃ init last, l.rdropWhile (passes p dp) = init ++ [last] :=
      (eq_nil_or_concat' _).resolve_left (ne_nil_of_mem hd)
    have hlast : last.tick ≤ dp.tick := by
      have hnot := rdropWhile_last_not (passes p dp) l (ne_nil_of_mem hd)
      simp only [hinit, getLast_append_singleton] at hnot
      exact not_lt.mp (mt (hpasses last).mpr hnot)
    have hsorted := hl.1
    rw [hinit, pairwise_append] at hsorted
    rw [hinit, mem_append, mem_singleton] at hd
    rcases hd with hd | rfl
    · exact (hsorted.2.2 d hd last (mem_singleton_self last)).trans hlast
    · exact hlast
  rw [pairwise_append, pairwise_cons]
  refine ⟨hl.1, ⟨hlater, hl.2.1⟩, ?_⟩
  intro d hd d' hd'
  rcases mem_cons.mp hd' with rfl | hd'
  · exact hearlier d hd
  · exact hl.2.2 d hd d' hd'

end Insert

namespace Queue

variable {p : Params} {q : Queue} {dp : DeferredPacket} {tick : ℕ} {pkt : Packet}

theorem Delivers.insert (h : q.Delivers p) (dp : DeferredPacket) (event : Option ℕ) :
    Delivers p { q with
      transmitList := q.transmitList.rdropWhile (passes p dp) ++
        dp :: q.transmitList.rtakeWhile (passes p dp)
      enqueued := q.enqueued ++ [dp.pkt]
      sendEvent := event } where
  perm := by
    have hlist : (q.transmitList.rdropWhile (passes p dp) ++
        dp :: q.transmitList.rtakeWhile (passes p dp)).Perm (q.transmitList ++ [dp]) := by
      apply perm_middle.trans
      rw [rdropWhile_append_rtakeWhile]
      exact (perm_append_singleton dp _).symm
    have hall : (q.sent ++ q.transmitList.map pkt) ++ [dp.pkt] =
        q.sent ++ (q.transmitList ++ [dp]).map pkt := by simp
    apply (h.perm.append_right [dp.pkt]).trans
    rw [hall]
    exact (hlist.symm.map pkt).append_left q.sent
  sorted := fun hforce => sorted_insert hforce (h.sorted hforce)
  order := by
    intro hforce addr secure
    rw [filter_append, h.order hforce addr secure, filter_append, filter_append,
      filter_insert hforce, append_assoc]

/-! ## The send event -/

/-- The send event is there in time for the front of the list, and not before the front is
ready; while a retry is awaited there is none. -/
structure Scheduled (q : Queue) : Prop where
  waiting_event : q.waitingOnRetry → q.sendEvent = none
  waiting_ready : q.waitingOnRetry → ∃ dp, q.transmitList.head? = some dp ∧ dp.tick ≤ q.curTick
  event_ready : ∀ w, q.sendEvent = some w → ∃ dp, q.transmitList.head? = some dp ∧ dp.tick ≤ w
  scheduled : q.waitingOnRetry = false → ∀ dp, q.transmitList.head? = some dp →
    ∃ w, q.sendEvent = some w ∧ w ≤ max dp.tick (q.curTick + 1)
  finite : ∀ dp ∈ q.transmitList, dp.tick ≠ maxTick

/-- Scheduling the event for a front that is ready at `tick`. -/
theorem schedSendEvent_eq (hwait : q.waitingOnRetry = false) (htick : tick ≠ maxTick)
    (hevent : ∀ w, q.sendEvent = some w → tick ≤ w) :
    ∃ w, q.schedSendEvent tick = some { q with sendEvent := some w } ∧ tick ≤ w ∧
      w ≤ max tick (q.curTick + 1) := by
  rw [schedSendEvent, hwait]
  simp only [Bool.false_eq_true, if_false, if_pos htick]
  cases hold : q.sendEvent with
  | none => exact ⟨_, rfl, le_max_left _ _, le_rfl⟩
  | some w =>
    by_cases hlt : max tick (q.curTick + 1) < w
    · refine ⟨_, ?_, le_max_left _ _, le_rfl⟩
      simp only [if_pos hlt]
    · refine ⟨w, ?_, hevent w hold, not_lt.mp hlt⟩
      simp only [if_neg hlt]
      rw [← hold, ← hwait]

/-- The state after a packet was put in at the front or behind. -/
theorem schedSendTiming_eq (hq : q.Scheduled) (hnow : q.curTick ≤ tick)
    (hfinite : tick ≠ maxTick) (hsnoop : pkt.isExpressSnoop = false)
    (hsize : p.disableSanityCheck = false → q.transmitList.length ≤ 1024) :
    ∃ event, q.schedSendTiming p pkt tick = some { q with
        transmitList := q.transmitList.rdropWhile (passes p ⟨tick, pkt⟩) ++
          ⟨tick, pkt⟩ :: q.transmitList.rtakeWhile (passes p ⟨tick, pkt⟩)
        enqueued := q.enqueued ++ [pkt]
        sendEvent := event } ∧
      ((q.transmitList.rdropWhile (passes p ⟨tick, pkt⟩) ≠ [] ∧ event = q.sendEvent) ∨
        q.transmitList.rdropWhile (passes p ⟨tick, pkt⟩) = [] ∧ q.waitingOnRetry = false ∧
          ∃ w, event = some w ∧ tick ≤ w ∧ w ≤ max tick (q.curTick + 1)) := by
  set dp : DeferredPacket := ⟨tick, pkt⟩ with hdp
  have htest : ¬ (!p.disableSanityCheck && decide (1024 < q.transmitList.length)) = true := by
    cases hsanity : p.disableSanityCheck with
    | true => simp
    | false => simpa using hsize hsanity
  rw [Queue.schedSendTiming, if_neg (not_lt.mpr hnow), hsnoop, if_neg htest]
  simp only
  cases hbefore : q.transmitList.rdropWhile (passes p dp) with
  | cons d before => exact ⟨q.sendEvent, rfl, .inl ⟨cons_ne_nil _ _, rfl⟩⟩
  | nil =>
    have hlater : ∀ d ∈ q.transmitList, tick < d.tick := by
      intro d hd
      have hpass := rdropWhile_eq_nil_iff.mp hbefore d hd
      simp only [passes, Bool.not_eq_true', Bool.or_eq_false_iff, decide_eq_false_iff_not] at hpass
      exact not_le.mp hpass.2
    -- a front that waits for a retry would not be passed: it was ready before
    have hwait : q.waitingOnRetry = false := by
      by_contra hwait
      obtain ⟨front, hfront, hready⟩ := hq.waiting_ready (Bool.not_eq_false _ ▸ hwait)
      have hlate := hlater front (mem_of_head? hfront)
      omega
    have hevent : ∀ w, q.sendEvent = some w → tick ≤ w := by
      intro w hw
      obtain ⟨front, hfront, hready⟩ := hq.event_ready w hw
      have hlate := hlater front (mem_of_head? hfront)
      omega
    obtain ⟨w, hw, hlow, hhigh⟩ := schedSendEvent_eq
      (q := { q with
        transmitList := [] ++ dp :: q.transmitList.rtakeWhile (passes p dp)
        enqueued := q.enqueued ++ [pkt] }) hwait hfinite hevent
    exact ⟨some w, hw, .inr ⟨rfl, hwait, w, rfl, hlow, hhigh⟩⟩

/-- What the queue keeps from step to step. -/
structure Inv (p : Params) (q : Queue) : Prop extends Queue.Scheduled q where
  delivers : q.Delivers p

theorem inv_new (p : Params) : Inv p new where
  waiting_event := nofun
  waiting_ready := nofun
  event_ready := nofun
  scheduled := nofun
  finite := nofun
  delivers := ⟨Perm.nil, fun _ => .nil, fun _ _ _ => rfl⟩

theorem Inv.schedSendTiming (hq : q.Inv p) (hnow : q.curTick ≤ tick)
    (hfinite : tick ≠ maxTick) (hsnoop : pkt.isExpressSnoop = false)
    (hsize : p.disableSanityCheck = false → q.transmitList.length ≤ 1024) :
    ∃ q', q.schedSendTiming p pkt tick = some q' ∧ q'.Inv p := by
  obtain ⟨event, hstep, hcases⟩ := schedSendTiming_eq hq.toScheduled hnow hfinite hsnoop hsize
  set dp : DeferredPacket := ⟨tick, pkt⟩ with hdp
  have hfin : ∀ d ∈ q.transmitList.rdropWhile (passes p dp) ++
      dp :: q.transmitList.rtakeWhile (passes p dp), d.tick ≠ maxTick := by
    intro d hd
    have hmem := perm_middle.mem_iff.mp hd
    rw [rdropWhile_append_rtakeWhile] at hmem
    rcases mem_cons.mp hmem with rfl | hmem
    · exact hfinite
    · exact hq.finite d hmem
  refine ⟨_, hstep, ?_, hq.delivers.insert dp event⟩
  rcases hcases with ⟨hne, rfl⟩ | ⟨hnil, hwait, w, rfl, hlow, hhigh⟩
  · -- the front is the same
    have hhead : (q.transmitList.rdropWhile (passes p dp) ++
        dp :: q.transmitList.rtakeWhile (passes p dp)).head? = q.transmitList.head? := by
      obtain ⟨d, before, hbefore⟩ := exists_cons_of_ne_nil hne
      have hsplit := rdropWhile_append_rtakeWhile (p := passes p dp) (l := q.transmitList)
      have hfront : q.transmitList.head? = some d := by
        rw [← hsplit, hbefore]
        rfl
      rw [hfront, hbefore]
      rfl
    refine ⟨hq.waiting_event, ?_, ?_, ?_, hfin⟩
    · intro hwait
      simp only [hhead]
      exact hq.waiting_ready hwait
    · intro w hw
      simp only [hhead]
      exact hq.event_ready w hw
    · intro hwait d hd
      simp only [hhead] at hd
      exact hq.scheduled hwait d hd
  · -- the packet is the front
    have hhead : (q.transmitList.rdropWhile (passes p dp) ++
        dp :: q.transmitList.rtakeWhile (passes p dp)).head? = some dp := by
      rw [hnil]
      rfl
    refine ⟨?_, ?_, ?_, ?_, hfin⟩
    · intro hwait'
      exact absurd (hwait.symm.trans hwait') Bool.false_ne_true
    · intro hwait'
      exact absurd (hwait.symm.trans hwait') Bool.false_ne_true
    · intro w' hw'
      cases hw'
      exact ⟨dp, hhead, hlow⟩
    · intro _ d hd
      obtain rfl := Option.some.inj (hhead.symm.trans hd)
      exact ⟨w, rfl, hhigh⟩

/-- After the front was sent. -/
theorem Delivers.pop (h : q.Delivers p) {rest : List DeferredPacket}
    (hlist : q.transmitList = dp :: rest) (event : Option ℕ) (wait : Bool) :
    Delivers p { q with
      transmitList := rest
      sent := q.sent ++ [dp.pkt]
      sendEvent := event
      waitingOnRetry := wait } := by
  have hsame : (q.sent ++ [dp.pkt]) ++ rest.map pkt = q.sent ++ q.transmitList.map pkt := by
    rw [hlist, append_assoc]
    rfl
  refine ⟨?_, ?_, ?_⟩
  · rw [hsame]
    exact h.perm
  · intro hforce
    have hsorted := h.sorted hforce
    rw [hlist] at hsorted
    exact hsorted.of_cons
  · intro hforce addr secure
    rw [hsame]
    exact h.order hforce addr secure

/-- The front is sent, or a retry is awaited. -/
theorem Inv.send (hq : q.Inv p) (hhead : q.transmitList.head? = some dp)
    (hready : dp.tick ≤ q.curTick) (accepted : Bool) :
    ∃ q', { q with sendEvent := none, waitingOnRetry := false }.sendDeferredPacket accepted
      = some q' ∧ q'.Inv p := by
  obtain ⟨rest, hlist⟩ := head?_eq_some_iff.mp hhead
  rw [sendDeferredPacket]
  simp only [hlist, if_neg (not_lt.mpr hready)]
  cases accepted with
  | false =>
    refine ⟨_, rfl, ⟨fun _ => rfl, fun _ => ⟨dp, rfl, hready⟩, nofun, nofun, ?_⟩, ?_⟩
    · rw [← hlist]
      exact hq.finite
    · rw [← hlist]
      exact ⟨hq.delivers.perm, hq.delivers.sorted, hq.delivers.order⟩
  | true =>
    have hfinite : ∀ d ∈ rest, d.tick ≠ maxTick := fun d hd =>
      hq.finite d (by rw [hlist]; exact mem_cons_of_mem dp hd)
    cases hrest : rest with
    | nil =>
      rw [hrest] at hlist
      refine ⟨_, rfl, ⟨nofun, nofun, nofun, nofun, nofun⟩, hq.delivers.pop hlist none false⟩
    | cons d rest' =>
      rw [hrest] at hlist hfinite
      obtain ⟨w, hw, hlow, hhigh⟩ := schedSendEvent_eq
        (q := { q with
          transmitList := d :: rest'
          sent := q.sent ++ [dp.pkt]
          sendEvent := none
          waitingOnRetry := false }) rfl (hfinite d mem_cons_self) nofun
      refine ⟨_, hw, ⟨nofun, nofun, ?_, ?_, hfinite⟩, hq.delivers.pop hlist (some w) false⟩
      · intro w' hw'
        cases hw'
        exact ⟨d, rfl, hlow⟩
      · intro _ d' hd'
        cases hd'
        exact ⟨w, rfl, hhigh⟩

/-- **Every allowed step** succeeds and keeps the invariant. -/
theorem Inv.step (hq : q.Inv p) {a : Step} (ha : q.Allowed p a) :
    ∃ q', q.step p a = some q' ∧ q'.Inv p := by
  obtain ⟨hassert, hmax⟩ := ha
  cases a with
  | schedSendTiming pkt tick =>
    obtain ⟨hnow, -, hsnoop, hsize⟩ := hassert
    refine hq.schedSendTiming hnow ?_ hsnoop hsize
    rintro rfl
    exact hmax pkt rfl
  | processSendEvent accepted =>
    have hevent : q.sendEvent = some q.curTick := hassert
    have hwait : q.waitingOnRetry = false := by
      by_contra hwait
      rw [hq.waiting_event (Bool.not_eq_false _ ▸ hwait)] at hevent
      cases hevent
    obtain ⟨dp, hhead, hready⟩ := hq.event_ready _ hevent
    obtain ⟨q', hstep, hinv⟩ := hq.send hhead hready accepted
    refine ⟨q', ?_, hinv⟩
    rw [← hstep, Queue.step, processSendEvent, hwait]
    rfl
  | retry accepted =>
    have hwait : q.waitingOnRetry = true := hassert
    obtain ⟨dp, hhead, hready⟩ := hq.waiting_ready hwait
    obtain ⟨q', hstep, hinv⟩ := hq.send hhead hready accepted
    refine ⟨q', ?_, hinv⟩
    rw [← hstep, Queue.step, Queue.retry, hwait, ← hq.waiting_event hwait]
    rfl
  | advance tick =>
    obtain ⟨hle, -, -⟩ := hassert
    refine ⟨_, rfl, ⟨hq.waiting_event, ?_, hq.event_ready, ?_, hq.finite⟩,
      hq.delivers.perm, hq.delivers.sorted, hq.delivers.order⟩
    · intro hwait
      obtain ⟨dp, hhead, hready⟩ := hq.waiting_ready hwait
      exact ⟨dp, hhead, hready.trans hle⟩
    · intro hwait dp hhead
      obtain ⟨w, hw, hbound⟩ := hq.scheduled hwait dp hhead
      exact ⟨w, hw, hbound.trans (max_le_max le_rfl (succ_le_succ hle))⟩

end Queue

/-- **Delivery**: in every run of allowed steps no assert fails, no packet is lost or sent
twice, the list is sorted if the order is not forced, packets for one address leave in their
order if it is, and while packets wait and no retry is awaited, the send event is scheduled in
time. -/
theorem run_delivers (p : Params) {as : List Step}
    (hallowed : AllowedSteps (Queue.step p) (Queue.Allowed p) .new as) :
    ∃ q, runSteps (Queue.step p) .new as = some q ∧ q.Delivers p ∧
      (q.waitingOnRetry = false → ∀ dp, q.transmitList.head? = some dp →
        ∃ w, q.sendEvent = some w ∧ w ≤ max dp.tick (q.curTick + 1)) := by
  obtain ⟨q, hrun, hinv⟩ := AllowedSteps.run (fun _ _ hq ha => Queue.Inv.step hq ha)
    (Queue.inv_new p) hallowed
  exact ⟨q, hrun, hinv.delivers, hinv.scheduled⟩

/-- A packet is refused once and sent on the retry. -/
theorem run_delivers_retry :
    ∃ q, runSteps (Queue.step ⟨true, false⟩) .new
        [.schedSendTiming ⟨0, 0x40, false, false⟩ 0, .advance 1, .processSendEvent false,
          .retry true] = some q ∧ q.Delivers ⟨true, false⟩ := by
  have hallowed : AllowedSteps (Queue.step ⟨true, false⟩) (Queue.Allowed ⟨true, false⟩) .new
      [.schedSendTiming ⟨0, 0x40, false, false⟩ 0, .advance 1, .processSendEvent false,
        .retry true] := by
    refine .cons ⟨⟨le_refl 0, zero_le _, rfl, fun _ => zero_le _⟩, nofun⟩ rfl ?_
    refine .cons ⟨⟨zero_le 1, by decide, ?_⟩, nofun⟩ rfl ?_
    · rintro w hw
      cases hw
      exact le_refl 1
    exact .cons ⟨rfl, nofun⟩ rfl (.cons ⟨rfl, nofun⟩ rfl trivial)
  obtain ⟨q, hrun, hdelivers, -⟩ := run_delivers ⟨true, false⟩ hallowed
  exact ⟨q, hrun, hdelivers⟩

/-- With the order forced, a packet passes one for another word of the same block; and a
packet for `MaxTick` waits without a send event. -/
theorem same_block_reordered_and_maxTick_stranded :
    (∃ q, AllowedSteps (Queue.step ⟨true, false⟩) (Queue.Asserts ⟨true, false⟩) .new
        [.schedSendTiming ⟨0, 0x44, false, false⟩ 10, .schedSendTiming ⟨1, 0x40, false, false⟩ 5,
          .advance 5, .processSendEvent true] ∧
      runSteps (Queue.step ⟨true, false⟩) .new
        [.schedSendTiming ⟨0, 0x44, false, false⟩ 10, .schedSendTiming ⟨1, 0x40, false, false⟩ 5,
          .advance 5, .processSendEvent true] = some q ∧
      q.enqueued = [⟨0, 0x44, false, false⟩, ⟨1, 0x40, false, false⟩] ∧
      q.sent = [⟨1, 0x40, false, false⟩] ∧ (0x44 : BitVec 64) &&& ~~~63 = 0x40 &&& ~~~63) ∧
    ∃ q, AllowedSteps (Queue.step ⟨false, false⟩) (Queue.Asserts ⟨false, false⟩) .new
        [.schedSendTiming ⟨0, 0x40, false, false⟩ maxTick] ∧
      runSteps (Queue.step ⟨false, false⟩) .new
        [.schedSendTiming ⟨0, 0x40, false, false⟩ maxTick] = some q ∧
      q.transmitList ≠ [] ∧ q.waitingOnRetry = false ∧ q.sendEvent = none := by
  refine ⟨⟨_, ?_, rfl, rfl, rfl, by decide⟩, ⟨_, ?_, rfl, cons_ne_nil _ _, rfl, rfl⟩⟩
  · refine .cons ⟨zero_le _, by decide, rfl, fun _ => zero_le _⟩ rfl ?_
    refine .cons ⟨zero_le _, by decide, rfl, fun _ => by decide⟩ rfl ?_
    refine .cons ⟨zero_le _, by decide, ?_⟩ rfl (.cons rfl rfl trivial)
    rintro w hw
    cases hw
    exact le_refl 5
  · exact ⟨⟨zero_le _, le_refl _, rfl, fun _ => zero_le _⟩, fun _ _ => trivial⟩

end PacketQueue
