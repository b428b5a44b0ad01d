/-
# What a memory controller has to keep in order

The bursts in the write queues are told apart by `isInWriteQueue`, and every packet that
reads is answered once, when the last of its bursts that were not found in the write queues
has been served.

`Observed` is a controller with what somebody who watches it writes down: the packets that
read, each with the bytes that could not be had from the writes that were waiting, and the
bytes that were served.
-/
import Gem5.MemCtrlBursts

open List

namespace MemCtrl

open QoSMemCtrl
open scoped List

variable {n : ℕ} {P : Params}

/-! ## Watching a controller -/

/-- Do the writes that wait hold these bytes? -/
def State.covered (s : State n) (x : ℕ × ℕ) : Bool :=
  (s.queues.bursts .WRITE).any fun w => (span w).1 ≤ x.1 && x.2 ≤ (span w).2

/-- The bytes of a packet, burst by burst, that no write in the queues holds. -/
def State.missing (P : Params) (s : State n) (pkt : Packet) : List (ℕ × ℕ) :=
  (pieces (bytesPerBurst P) pkt.addr.toNat pkt.size.toNat).filter fun x => !s.covered x

/-- The bursts that were not found in the write queue and have not been served. -/
def State.outstanding (s : State n) : List Burst :=
  s.queues.bursts .READ ++ s.respQueue.map MemPacket.toBurst

def State.outstandingOf (s : State n) (ptr : ℕ) : List (ℕ × ℕ) :=
  (s.outstanding.filter (·.pkt = ptr)).map span

structure Observed (n : ℕ) where
  ctrl : State n
  /-- The packets that read, with the bytes that were missing. -/
  reads : List (ℕ × List (ℕ × ℕ))
  /-- The bytes that were served, with the packet that they are for. -/
  serviced : List (ℕ × (ℕ × ℕ))

def Observed.new : Observed n := ⟨State.new, [], []⟩

def Observed.servicedOf (o : Observed n) (ptr : ℕ) : List (ℕ × ℕ) :=
  (o.serviced.filter (·.1 = ptr)).map Prod.snd

inductive Step (n : ℕ) where
  | recvTimingReq (pkt : Packet) (prio : Fin n) (others : List (ℕ × Fin n))
  | processNextReqEvent (dir : BusState) (prio : Fin n) (it : ℕ)
  | processRespondEvent

def Observed.step (P : Params) (o : Observed n) : Step n → Option (Observed n)
  | .recvTimingReq pkt prio others =>
    (o.ctrl.recvTimingReq P pkt prio others).map fun r =>
      { o with
        ctrl := r.1
        reads := if r.2 && !pkt.isWrite then
            o.reads ++ [(o.ctrl.packets.length, o.ctrl.missing P pkt)]
          else o.reads }
  | .processNextReqEvent dir prio it =>
    (o.ctrl.processNextReqEvent P dir prio it).map fun s => { o with ctrl := s }
  | .processRespondEvent =>
    (o.ctrl.processRespondEvent P).map fun s =>
      { o with
        ctrl := s
        serviced := o.serviced ++
          (o.ctrl.respQueue.head?.map fun m => (m.pkt, span m.toBurst)).toList }

/-- What the controller asks of its callers: the packet reads or writes at least one byte
of its memory; the burst that is issued waits in a queue; and there is a response. -/
def Observed.Asserts (P : Params) (o : Observed n) : Step n → Prop
  | .recvTimingReq pkt _ _ => pkt.cacheResponding = false ∧ (pkt.isRead || pkt.isWrite) = true ∧
      P.contains pkt.addr = true ∧ pkt.size ≠ 0
  | .processNextReqEvent dir prio it => it < (o.ctrl.queues.queue (dir, prio)).length
  | .processRespondEvent => o.ctrl.respQueue ≠ []

def Step.Fits (P : Params) : Step n → Prop
  | .recvTimingReq pkt _ _ => pkt.Fits P
  | _ => True

/-- And its packets fit. -/
def Observed.Allowed (P : Params) (o : Observed n) (a : Step n) : Prop :=
  o.Asserts P a ∧ a.Fits P

instance (P : Params) (o : Observed n) : (a : Step n) → Decidable (o.Asserts P a)
  | .recvTimingReq _ _ _ => inferInstanceAs (Decidable (_ ∧ _ ∧ _ ∧ _))
  | .processNextReqEvent _ _ _ => inferInstanceAs (Decidable (_ < _))
  | .processRespondEvent => inferInstanceAs (Decidable (¬ o.ctrl.respQueue = []))

instance (P : Params) : (a : Step n) → Decidable (a.Fits P)
  | .recvTimingReq pkt _ _ => inferInstanceAs (Decidable (pkt.Fits P))
  | .processNextReqEvent _ _ _ => isTrue trivial
  | .processRespondEvent => isTrue trivial

instance (P : Params) (o : Observed n) (a : Step n) : Decidable (o.Allowed P a) :=
  inferInstanceAs (Decidable (_ ∧ _))

/-- **The bookkeeping**. -/
structure Bookkeeping (P : Params) (o : Observed n) : Prop where
  /-- `isInWriteQueue` holds the bursts of the writes that wait. -/
  isInWriteQueue : ∀ a, a ∈ o.ctrl.isInWriteQueue ↔
    ∃ w ∈ o.ctrl.queues.bursts .WRITE, P.burstAlign w.addr = a
  /-- No two of them write the same burst. -/
  distinct : (o.ctrl.queues.bursts .WRITE).Pairwise
    fun w w' => P.burstAlign w.addr ≠ P.burstAlign w'.addr
  card : o.ctrl.isInWriteQueue.card = (o.ctrl.queues.bursts .WRITE).length
  total : o.ctrl.queues.totalQueueSize .WRITE = (o.ctrl.queues.bursts .WRITE).length
  /-- The bytes that were missing have been served, or wait to be served. -/
  missing : ∀ r ∈ o.reads, r.2 ~ o.servicedOf r.1 ++ o.ctrl.outstandingOf r.1
  /-- A packet is answered once, when nothing of it is outstanding. -/
  answered : ∀ r ∈ o.reads,
    o.ctrl.responded.count r.1 = if o.ctrl.outstandingOf r.1 = [] then 1 else 0
  /-- A helper is there as long as a burst of its packet is outstanding, and no longer. -/
  helper : ∀ h, (o.ctrl.helpers.read h).isSome ↔
    ∃ b ∈ o.ctrl.outstanding, b.burstHelper = some h
  /-- All bursts of a packet have the same helper, and no other packet has it. -/
  shared : ∀ b ∈ o.ctrl.outstanding, ∀ b' ∈ o.ctrl.outstanding, b.burstHelper.isSome →
    (b.burstHelper = b'.burstHelper ↔ b.pkt = b'.pkt)

/-! ## Invariants -/

/-- The write queues. -/
structure State.Writes (P : Params) (s : State n) : Prop where
  nodup : ((s.queues.bursts .WRITE).map fun w => P.burstAlign w.addr).Nodup
  set : s.isInWriteQueue = ((s.queues.bursts .WRITE).map fun w => P.burstAlign w.addr).toFinset
  within : ∀ w ∈ s.queues.bursts .WRITE,
    (span w).2 ≤ (w.addr.toNat / bytesPerBurst P + 1) * bytesPerBurst P ∧ (span w).2 < 2 ^ 64

/-- The counters, and the packets that were accepted. -/
structure State.Counters (P : Params) (s : State n) : Prop where
  counted : s.queues.Counted (bytesPerBurst P)
  intr : ∀ d, s.intrQueueSize d = s.queues.totalQueueSize d
  contains : ∀ pkt ∈ s.packets, P.contains pkt.addr = true

/-- The helpers: what a helper still waits for is outstanding. -/
structure Helpers (helpers : Store BurstHelper) (outstanding : List Burst) : Prop where
  counts : ∀ b ∈ outstanding, ∀ h, b.burstHelper = some h → ∃ c, helpers.read h = some c ∧
    c.burstsServiced + (outstanding.filter (·.pkt = b.pkt)).length = c.burstCount
  alone : ∀ b ∈ outstanding, b.burstHelper = none →
    (outstanding.filter (·.pkt = b.pkt)).length = 1
  shared : ∀ b ∈ outstanding, ∀ b' ∈ outstanding, ∀ h, b.burstHelper = some h →
    (b'.burstHelper = some h ↔ b'.pkt = b.pkt)
  alive : ∀ h, (helpers.read h).isSome → ∃ b ∈ outstanding, b.burstHelper = some h

/-- The packets that read. -/
structure Observed.Reads (o : Observed n) : Prop where
  missing : ∀ r ∈ o.reads, r.2 ~ o.servicedOf r.1 ++ o.ctrl.outstandingOf r.1
  answered : ∀ r ∈ o.reads,
    o.ctrl.responded.count r.1 = if o.ctrl.outstandingOf r.1 = [] then 1 else 0
  known : ∀ b ∈ o.ctrl.outstanding, b.pkt ∈ o.reads.map Prod.fst
  old : ∀ r ∈ o.reads, r.1 < o.ctrl.packets.length
  oldResponded : ∀ ptr ∈ o.ctrl.responded, ptr < o.ctrl.packets.length
  oldServiced : ∀ x ∈ o.serviced, x.1 < o.ctrl.packets.length

structure Observed.Inv (P : Params) (o : Observed n) : Prop where
  counters : o.ctrl.Counters P
  writes : o.ctrl.Writes P
  helpers : Helpers o.ctrl.helpers o.ctrl.outstanding
  reads : o.Reads

theorem inv_new : (Observed.new : Observed n).Inv P := by
  have hbursts : ∀ d, (State.new : State n).queues.bursts d = [] := by
    simp [Queues.bursts, Queues.packets, gather, State.new, Queues.new]
  have houtstanding : (State.new : State n).outstanding = [] := by
    rw [State.outstanding, hbursts]
    rfl
  refine ⟨⟨Queues.counted_new _, fun _ => rfl, by rintro _ ⟨⟩⟩, ⟨?_, ?_, ?_⟩, ⟨?_, ?_, ?_, ?_⟩, ?_⟩
  · simp [Observed.new, hbursts]
  · simp [Observed.new, hbursts]
    rfl
  · simp [Observed.new, hbursts]
  · simp [Observed.new, houtstanding]
  · simp [Observed.new, houtstanding]
  · simp [Observed.new, houtstanding]
  · intro h hread
    simp [Observed.new, State.new, Store.read] at hread
  · refine ⟨?_, ?_, ?_, ?_, by rintro _ ⟨⟩, ?_⟩ <;> simp [Observed.new, houtstanding]

theorem Observed.Inv.kept {o : Observed n} (h : o.Inv P) : Bookkeeping P o where
  isInWriteQueue := by
    intro a
    rw [h.writes.set]
    simp
  distinct := pairwise_map.mp h.writes.nodup
  card := by rw [h.writes.set, toFinset_card_of_nodup h.writes.nodup, length_map]
  total := h.counters.counted.total _
  missing := h.reads.missing
  answered := h.reads.answered
  helper := by
    intro p
    refine ⟨h.helpers.alive p, ?_⟩
    rintro ⟨b, hb, hp⟩
    obtain ⟨c, hc, -⟩ := h.helpers.counts b hb p hp
    rw [hc]
    rfl
  shared := by
    intro b hb b' hb' hsome
    obtain ⟨p, hp⟩ := Option.isSome_iff_exists.mp hsome
    rw [hp, eq_comm, h.helpers.shared b hb b' hb' p hp, eq_comm]

/-! ## What does not touch the reads -/

section Frame

variable {s s' : State n} {o o' : Observed n}

theorem outstandingOf_eq_nil {ptr : ℕ} :
    s.outstandingOf ptr = [] ↔ ∀ b ∈ s.outstanding, b.pkt ≠ ptr := by
  simp [State.outstandingOf]

theorem Helpers.of_perm {helpers : Store BurstHelper} {l l' : List Burst} (h : Helpers helpers l)
    (hl : l' ~ l) : Helpers helpers l' where
  counts := by
    intro b hb p hp
    rw [(hl.filter _).length_eq]
    exact h.counts b (hl.mem_iff.mp hb) p hp
  alone := by
    intro b hb hnone
    rw [(hl.filter _).length_eq]
    exact h.alone b (hl.mem_iff.mp hb) hnone
  shared := fun b hb b' hb' => h.shared b (hl.mem_iff.mp hb) b' (hl.mem_iff.mp hb')
  alive := by
    intro p hp
    obtain ⟨b, hb, heq⟩ := h.alive p hp
    exact ⟨b, hl.mem_iff.mpr hb, heq⟩

theorem State.Writes.of_perm (h : s.Writes P)
    (hl : s'.queues.bursts .WRITE ~ s.queues.bursts .WRITE)
    (hset : s'.isInWriteQueue = s.isInWriteQueue) : s'.Writes P where
  nodup := (hl.map _).nodup_iff.mpr h.nodup
  set := by rw [hset, h.set, toFinset_eq_of_perm _ _ (hl.map _)]
  within := fun w hw => h.within w (hl.mem_iff.mp hw)

theorem Observed.Reads.pkt_lt (h : o.Reads) {b : Burst} (hb : b ∈ o.ctrl.outstanding) :
    b.pkt < o.ctrl.packets.length := by
  obtain ⟨r, hr, heq⟩ := mem_map.mp (h.known b hb)
  rw [← heq]
  exact h.old r hr

/-- Other packets may be accepted and answered. -/
theorem Observed.Reads.frame (h : o.Reads) (hreads : o'.reads = o.reads)
    (hserviced : o'.serviced = o.serviced) (hout : o'.ctrl.outstanding ~ o.ctrl.outstanding)
    (hpackets : o.ctrl.packets.length ≤ o'.ctrl.packets.length)
    (hcount : ∀ ptr < o.ctrl.packets.length,
      o'.ctrl.responded.count ptr = o.ctrl.responded.count ptr)
    (hresponded : ∀ ptr ∈ o'.ctrl.responded, ptr < o'.ctrl.packets.length) : o'.Reads := by
  obtain ⟨s', reads, serviced⟩ := o'
  obtain rfl : reads = o.reads := hreads
  obtain rfl : serviced = o.serviced := hserviced
  refine ⟨?_, ?_, fun b hb => h.known b (hout.mem_iff.mp hb),
    fun r hr => (h.old r hr).trans_le hpackets, hresponded,
    fun x hx => (h.oldServiced x hx).trans_le hpackets⟩
  · exact fun r hr => (h.missing r hr).trans (((hout.filter _).map span).symm.append_left _)
  · intro r hr
    have hnil : s'.outstandingOf r.1 = [] ↔ o.ctrl.outstandingOf r.1 = [] := by
      rw [outstandingOf_eq_nil, outstandingOf_eq_nil]
      simp only [hout.mem_iff]
    rw [hcount r.1 (h.old r hr), h.answered r hr]
    simp only [hnil]

theorem State.Counters.accessAndRespond (h : s.Counters P) {ptr : ℕ}
    (hptr : ptr < s.packets.length) :
    s.accessAndRespond P ptr = some { s with responded := s.responded ++ [ptr] } := by
  rw [State.accessAndRespond, getElem?_eq_getElem hptr, Option.bind_some,
    if_pos (h.contains _ (getElem_mem hptr))]

end Frame

/-! ## Issuing a burst -/

section Issue

variable {o : Observed n} {d : BusState} {i : Fin n} {it : ℕ}

/-- A write leaves the write queue. -/
theorem State.Writes.erase {s s' : State n} {w : Burst} (h : s.Writes P)
    (hl : s.queues.bursts .WRITE ~ w :: s'.queues.bursts .WRITE)
    (hset : s'.isInWriteQueue = s.isInWriteQueue.erase (P.burstAlign w.addr)) : s'.Writes P := by
  have hnodup := (hl.map fun w => P.burstAlign w.addr).nodup_iff.mp h.nodup
  obtain ⟨hnot, hnodup⟩ := nodup_cons.mp hnodup
  refine ⟨hnodup, ?_, fun w' hw' => h.within w' (hl.mem_iff.mpr (mem_cons_of_mem _ hw'))⟩
  rw [hset, h.set, toFinset_eq_of_perm _ _ (hl.map _), map_cons, toFinset_cons,
    Finset.erase_insert (by rwa [mem_toFinset])]

theorem Observed.Inv.retryWrite {s : State n} {reads : List (ℕ × List (ℕ × ℕ))}
    {serviced : List (ℕ × (ℕ × ℕ))} (h : (⟨s, reads, serviced⟩ : Observed n).Inv P) :
    (⟨s.retryWrite P, reads, serviced⟩ : Observed n).Inv P := by
  rw [State.retryWrite]
  split
  · exact ⟨⟨h.counters.counted, h.counters.intr, h.counters.contains⟩,
      ⟨h.writes.nodup, h.writes.set, h.writes.within⟩, h.helpers,
      ⟨h.reads.missing, h.reads.answered, h.reads.known, h.reads.old, h.reads.oldResponded,
        h.reads.oldServiced⟩⟩
  · exact h

theorem Observed.Inv.processNextReqEvent (h : o.Inv P)
    (hit : it < (o.ctrl.queues.queue (d, i)).length) :
    ∃ o', o.step P (.processNextReqEvent d i it) = some o' ∧ o'.Inv P := by
  have hm := getElem?_eq_getElem hit
  generalize (o.ctrl.queues.queue (d, i))[it] = m at hm
  have hmem : m ∈ o.ctrl.queues.queue (d, i) := mem_of_getElem? hm
  obtain ⟨q', hdequeue, hcounted, hout⟩ := h.counters.counted.dequeue hm
  obtain ⟨hdir, -⟩ := h.counters.counted.place d i m hmem
  obtain ⟨-, hsize⟩ := h.counters.counted.size d _ (Queues.mem_bursts.mpr ⟨i, m, hmem, rfl⟩)
  have hcheck : ¬ P.burstSize < m.size := by
    rw [BitVec.lt_def, Nat.not_lt]
    exact hsize
  have htotal : ∀ d', Function.update o.ctrl.intrQueueSize d (o.ctrl.intrQueueSize d - 1) d'
      = q'.totalQueueSize d' := by
    intro d'
    rw [hcounted.total]
    by_cases hd : d' = d
    · subst hd
      have hlength := hout.perm.length_eq
      rw [hdir, length_cons, ← h.counters.counted.total] at hlength
      rw [Function.update_self, h.counters.intr]
      omega
    · rw [Function.update_of_ne hd, hout.other d' (by rwa [hdir]), h.counters.intr,
        h.counters.counted.total]
  simp only [Observed.step, State.processNextReqEvent, hm, Option.bind_some, if_neg hcheck,
    hdequeue]
  refine ⟨_, rfl, ?_⟩
  apply Observed.Inv.retryWrite
  subst hdir
  cases hd : m.dir with
  | READ =>
    have hperm := hout.perm
    rw [hd] at hperm htotal
    have hother := hout.other .WRITE (by rw [hd]; exact nofun)
    have hsame : q'.bursts .READ ++ (o.ctrl.respQueue ++ [m]).map MemPacket.toBurst
        ~ o.ctrl.outstanding := by
      rw [map_append, ← append_assoc]
      exact (perm_append_singleton _ _).trans (hperm.symm.append_right _)
    refine ⟨⟨hcounted, htotal, h.counters.contains⟩, ?_, h.helpers.of_perm hsame, ?_⟩
    · exact h.writes.of_perm (by rw [hother]) rfl
    · exact h.reads.frame rfl rfl hsame (Nat.le_refl _) (fun _ _ => rfl) h.reads.oldResponded
  | WRITE =>
    have hperm := hout.perm
    rw [hd] at hperm htotal
    have hother := hout.other .READ (by rw [hd]; exact nofun)
    have hsame : q'.bursts .READ ++ o.ctrl.respQueue.map MemPacket.toBurst
        ~ o.ctrl.outstanding := by
      rw [hother]
      exact .refl _
    refine ⟨⟨hcounted, htotal, h.counters.contains⟩, ?_, h.helpers.of_perm hsame, ?_⟩
    · exact h.writes.erase hperm rfl
    · exact h.reads.frame rfl rfl hsame (Nat.le_refl _) (fun _ _ => rfl) h.reads.oldResponded

end Issue

/-! ## Serving a burst -/

section Serve

variable {helpers : Store BurstHelper} {b : Burst} {l : List Burst} {p : ℕ} {c : BurstHelper}

theorem length_filter_cons (b : Burst) (l : List Burst) (ptr : ℕ) :
    ((b :: l).filter (·.pkt = ptr)).length =
      (l.filter (·.pkt = ptr)).length + if b.pkt = ptr then 1 else 0 := by
  by_cases h : b.pkt = ptr <;> simp [h]

theorem length_filter_eq_zero {ptr : ℕ} :
    (l.filter (·.pkt = ptr)).length = 0 ↔ ∀ b' ∈ l, b'.pkt ≠ ptr := by
  simp

section

variable (h : Helpers helpers (b :: l))

include h

/-- The last burst of a packet leaves, and its helper with it. -/
theorem Helpers.leave {helpers' : Store BurstHelper} (hlast : ∀ b' ∈ l, b'.pkt ≠ b.pkt)
    (hself : ∀ q, b.burstHelper = some q → helpers'.read q = none)
    (hframe : ∀ q, b.burstHelper ≠ some q → helpers'.read q = helpers.read q) :
    Helpers helpers' l := by
  have hfilter : ∀ b' ∈ l, (l.filter (·.pkt = b'.pkt)).length
      = ((b :: l).filter (·.pkt = b'.pkt)).length := by
    intro b' hb'
    rw [length_filter_cons, if_neg (hlast b' hb').symm, Nat.add_zero]
  refine ⟨?_, ?_, ?_, ?_⟩
  · intro b' hb' q hq
    have hother : b.burstHelper ≠ some q := fun hbq => hlast b' hb'
      ((h.shared b mem_cons_self b' (mem_cons_of_mem _ hb') q hbq).mp hq)
    rw [hfilter b' hb', hframe q hother]
    exact h.counts b' (mem_cons_of_mem _ hb') q hq
  · intro b' hb'
    rw [hfilter b' hb']
    exact h.alone b' (mem_cons_of_mem _ hb')
  · intro b1 h1 b2 h2
    exact h.shared b1 (mem_cons_of_mem _ h1) b2 (mem_cons_of_mem _ h2)
  · intro q hq
    have hne : b.burstHelper ≠ some q := fun hbq => by simp [hself q hbq] at hq
    rw [hframe q hne] at hq
    obtain ⟨b', hb', heq⟩ := h.alive q hq
    rcases mem_cons.mp hb' with rfl | hb'
    · exact absurd heq hne
    · exact ⟨b', hb', heq⟩

/-- A burst without a helper is the only one of its packet. -/
theorem Helpers.serve_none (hnone : b.burstHelper = none) :
    (∀ b' ∈ l, b'.pkt ≠ b.pkt) ∧ Helpers helpers l := by
  have hlength := h.alone b mem_cons_self hnone
  rw [length_filter_cons, if_pos rfl, Nat.add_eq_right, length_filter_eq_zero] at hlength
  exact ⟨hlength, h.leave hlength (by simp [hnone]) fun _ _ => rfl⟩

/-- The last burst of a packet: its helper is deleted. -/
theorem Helpers.serve_last (hp : b.burstHelper = some p) (hread : helpers.read p = some c)
    (hlast : c.burstsServiced + 1 = c.burstCount) :
    (∀ b' ∈ l, b'.pkt ≠ b.pkt) ∧ Helpers (helpers.free p) l := by
  obtain ⟨c', hread', hcount⟩ := h.counts b mem_cons_self p hp
  obtain rfl : c = c' := Option.some.inj (hread.symm.trans hread')
  rw [length_filter_cons, if_pos rfl] at hcount
  have hlength : ∀ b' ∈ l, b'.pkt ≠ b.pkt := length_filter_eq_zero.mp (by omega)
  refine ⟨hlength, h.leave hlength (fun q hq => ?_) fun q hq => Store.read_free_ne ?_⟩
  · obtain rfl : p = q := Option.some.inj (hp.symm.trans hq)
    exact Store.read_free_self ..
  · rintro rfl
    exact hq hp

/-- Another burst of the packet is still outstanding. -/
theorem Helpers.serve_more (hp : b.burstHelper = some p) (hread : helpers.read p = some c)
    (hmore : c.burstsServiced + 1 ≠ c.burstCount) :
    (∃ b' ∈ l, b'.pkt = b.pkt) ∧
      Helpers (helpers.write p { c with burstsServiced := c.burstsServiced + 1 }) l := by
  obtain ⟨c', hread', hcount⟩ := h.counts b mem_cons_self p hp
  obtain rfl : c = c' := Option.some.inj (hread.symm.trans hread')
  rw [length_filter_cons, if_pos rfl] at hcount
  have hexists : ∃ b' ∈ l, b'.pkt = b.pkt := by
    by_contra hnone
    have hzero : (l.filter (·.pkt = b.pkt)).length = 0 :=
      length_filter_eq_zero.mpr fun b' hb' heq => hnone ⟨b', hb', heq⟩
    omega
  have hshared := h.shared b mem_cons_self
  refine ⟨hexists, ⟨?_, ?_, ?_, ?_⟩⟩
  · intro b' hb' q hq
    by_cases hqp : q = p
    · subst hqp
      refine ⟨_, Store.read_write_self hread, ?_⟩
      rw [(hshared b' (mem_cons_of_mem _ hb') q hp).mp hq]
      show c.burstsServiced + 1 + _ = c.burstCount
      omega
    · have hne : b.pkt ≠ b'.pkt := fun heq =>
        hqp (Option.some.inj (hq.symm.trans
          ((hshared b' (mem_cons_of_mem _ hb') p hp).mpr heq.symm)))
      obtain ⟨c', hc', hlength⟩ := h.counts b' (mem_cons_of_mem _ hb') q hq
      rw [length_filter_cons, if_neg hne] at hlength
      exact ⟨c', by rw [Store.read_write_ne hqp, hc'], hlength⟩
  · intro b' hb' hnone
    have hne : b.pkt ≠ b'.pkt := by
      intro heq
      rw [(hshared b' (mem_cons_of_mem _ hb') p hp).mpr heq.symm] at hnone
      cases hnone
    have hlength := h.alone b' (mem_cons_of_mem _ hb') hnone
    rwa [length_filter_cons, if_neg hne] at hlength
  · intro b1 h1 b2 h2
    exact h.shared b1 (mem_cons_of_mem _ h1) b2 (mem_cons_of_mem _ h2)
  · intro q hq
    by_cases hqp : q = p
    · subst hqp
      obtain ⟨b', hb', heq⟩ := hexists
      exact ⟨b', hb', (hshared b' (mem_cons_of_mem _ hb') q hp).mpr heq⟩
    · rw [Store.read_write_ne hqp] at hq
      obtain ⟨b', hb', heq⟩ := h.alive q hq
      rcases mem_cons.mp hb' with rfl | hb'
      · exact absurd (Option.some.inj (heq.symm.trans hp)) hqp
      · exact ⟨b', hb', heq⟩

end

variable {o o' : Observed n}

/-- A burst is served, and its packet answered if it was the last one. -/
theorem Observed.Reads.serve (h : o.Reads) (hreads : o'.reads = o.reads)
    (hserviced : o'.serviced = o.serviced ++ [(b.pkt, span b)])
    (hout : o.ctrl.outstanding ~ b :: o'.ctrl.outstanding)
    (hpackets : o'.ctrl.packets = o.ctrl.packets)
    (hresponded : (∃ b' ∈ o'.ctrl.outstanding, b'.pkt = b.pkt) ∧
        o'.ctrl.responded = o.ctrl.responded ∨ (∀ b' ∈ o'.ctrl.outstanding, b'.pkt ≠ b.pkt) ∧
        o'.ctrl.responded = o.ctrl.responded ++ [b.pkt]) : o'.Reads := by
  have hmem : b ∈ o.ctrl.outstanding := hout.mem_iff.mpr mem_cons_self
  have hknown := h.pkt_lt hmem
  refine ⟨?_, ?_, ?_, ?_, ?_, ?_⟩
  · intro r hr
    rw [hreads] at hr
    have hold := h.missing r hr
    have hleft : o.ctrl.outstandingOf r.1 ~
        ((b :: o'.ctrl.outstanding).filter (·.pkt = r.1)).map span := (hout.filter _).map span
    have hright : o'.servicedOf r.1 = o.servicedOf r.1 ++ if b.pkt = r.1 then [span b] else [] := by
      rw [Observed.servicedOf, hserviced, filter_append]
      by_cases heq : b.pkt = r.1 <;> simp [heq, Observed.servicedOf]
    refine hold.trans ((hleft.append_left _).trans ?_)
    rw [hright, append_assoc]
    apply Perm.append_left _
    by_cases heq : b.pkt = r.1
    · simp [heq, State.outstandingOf]
    · simp [heq, State.outstandingOf]
  · intro r hr
    rw [hreads] at hr
    have hold := h.answered r hr
    simp only [outstandingOf_eq_nil] at hold ⊢
    by_cases heq : b.pkt = r.1
    · -- it was not answered, since this burst was outstanding
      rw [if_neg (fun hnone => hnone b hmem heq)] at hold
      rcases hresponded with ⟨⟨b', hb', hpkt⟩, hsame⟩ | ⟨hnone, hsame⟩
      · rw [hsame, hold, if_neg (fun hnone => hnone b' hb' (hpkt.trans heq))]
      · rw [hsame, ← heq, if_pos hnone, count_append, heq, hold, count_singleton_self]
    · have hcount : o'.ctrl.responded.count r.1 = o.ctrl.responded.count r.1 := by
        rcases hresponded with ⟨-, hsame⟩ | ⟨-, hsame⟩
        · rw [hsame]
        · rw [hsame, count_append, count_singleton, beq_eq_false_iff_ne.mpr heq]
          rfl
      rw [hcount, hold]
      simp [hout.mem_iff, heq]
  · intro b' hb'
    rw [hreads]
    exact h.known b' (hout.mem_iff.mpr (mem_cons_of_mem _ hb'))
  · intro r hr
    rw [hreads] at hr
    rw [hpackets]
    exact h.old r hr
  · intro ptr hptr
    rw [hpackets]
    rcases hresponded with ⟨-, hsame⟩ | ⟨-, hsame⟩
    · rw [hsame] at hptr
      exact h.oldResponded ptr hptr
    · rw [hsame] at hptr
      rcases mem_append.mp hptr with hptr | hptr
      · exact h.oldResponded ptr hptr
      · rw [mem_singleton.mp hptr]
        exact hknown
  · intro x hx
    rw [hserviced] at hx
    rw [hpackets]
    rcases mem_append.mp hx with hx | hx
    · exact h.oldServiced x hx
    · rw [mem_singleton.mp hx]
      exact hknown

theorem Observed.Inv.processRespondEvent (h : o.Inv P) (hne : o.ctrl.respQueue ≠ []) :
    ∃ o', o.step P .processRespondEvent = some o' ∧ o'.Inv P := by
  obtain ⟨m, rest, hqueue⟩ := exists_cons_of_ne_nil hne
  have hout : o.ctrl.outstanding ~
      m.toBurst :: (o.ctrl.queues.bursts .READ ++ rest.map MemPacket.toBurst) := by
    rw [State.outstanding, hqueue]
    exact perm_middle
  have hhelpers := h.helpers.of_perm hout.symm
  have hptr : m.pkt < o.ctrl.packets.length :=
    h.reads.pkt_lt (hout.mem_iff.mpr mem_cons_self)
  have hrespond := h.counters.accessAndRespond hptr
  have hinv : ∀ s : State n, s.outstanding =
        o.ctrl.queues.bursts .READ ++ rest.map MemPacket.toBurst → s.Counters P → s.Writes P →
      Helpers s.helpers s.outstanding → s.packets = o.ctrl.packets →
      ((∃ b' ∈ s.outstanding, b'.pkt = m.pkt) ∧ s.responded = o.ctrl.responded ∨
        (∀ b' ∈ s.outstanding, b'.pkt ≠ m.pkt) ∧ s.responded = o.ctrl.responded ++ [m.pkt]) →
      (⟨s, o.reads, o.serviced ++ [(m.pkt, span m.toBurst)]⟩ : Observed n).Inv P := by
    intro s hs hcounters hwrites hhelpers hpackets hresponded
    have hout' : o.ctrl.outstanding ~ m.toBurst :: s.outstanding := by rwa [hs]
    exact ⟨hcounters, hwrites, hhelpers, h.reads.serve rfl rfl hout' hpackets hresponded⟩
  have hcounters := h.counters
  have hwrites := h.writes
  simp only [Observed.step, State.processRespondEvent, hqueue, State.serveBurst, head?_cons,
    Option.map_some]
  cases hhelper : m.burstHelper with
  | none =>
    obtain ⟨hnone, hkeep⟩ := hhelpers.serve_none hhelper
    simp only [hrespond]
    exact ⟨_, rfl, hinv _ rfl ⟨hcounters.1, hcounters.2, hcounters.3⟩
      ⟨hwrites.1, hwrites.2, hwrites.3⟩ hkeep rfl (.inr ⟨hnone, rfl⟩)⟩
  | some p =>
    obtain ⟨c, hread, -⟩ := hhelpers.counts _ mem_cons_self p hhelper
    simp only [hread, Option.bind_some]
    by_cases hlast : c.burstsServiced + 1 = c.burstCount
    · obtain ⟨hnone, hkeep⟩ := hhelpers.serve_last hhelper hread hlast
      simp only [hlast, if_true, hrespond]
      exact ⟨_, rfl, hinv _ rfl ⟨hcounters.1, hcounters.2, hcounters.3⟩
        ⟨hwrites.1, hwrites.2, hwrites.3⟩ hkeep rfl (.inr ⟨hnone, rfl⟩)⟩
    · obtain ⟨hexists, hkeep⟩ := hhelpers.serve_more hhelper hread hlast
      simp only [if_neg hlast]
      exact ⟨_, rfl, hinv _ rfl ⟨hcounters.1, hcounters.2, hcounters.3⟩
        ⟨hwrites.1, hwrites.2, hwrites.3⟩ hkeep rfl (.inl ⟨hexists, rfl⟩)⟩

end Serve

end MemCtrl
