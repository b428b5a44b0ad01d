/-
# Bookkeeping of a memory controller

The loops in which a packet is accepted keep the invariant, and with the steps that issue
and serve bursts this gives the bookkeeping of every run.
-/
import Gem5.MemCtrlInvariant

open Function List Nat

namespace MemCtrl

open MemCtrl.State

open QoSMemCtrl Observed Queues
open scoped List

variable {n : ℕ} {P : Params}

/-! ## Accepting a write -/

section Accept

variable {s : State n} {m : MemPacket n} {pkt : Packet} {ptr : ℕ} {prio : Fin n} {l : ReadLoop n}
  {count j : ℕ} {new : List Burst} {s' : State n} {x : Addr}

theorem State.Writes.card_eq (h : s.Writes P) :
    s.isInWriteQueue.card = (s.queues.bursts .WRITE).length := by
  rw [h.set, toFinset_card_of_nodup h.nodup, length_map]

theorem State.Counters.enqueue (h : s.Counters P) (hpos : 0 < m.size.toNat)
    (hle : m.size.toNat ≤ bytesPerBurst P) : (s.enqueue m).Counters P where
  counted := h.counted.enqueue hpos hle
  intr := by
    intro d
    show update s.intrQueueSize m.dir (s.intrQueueSize m.dir + 1) d
      = update s.queues.totalQueueSize m.dir (s.queues.totalQueueSize m.dir + 1) d
    rw [funext h.intr]
  contains := h.contains

theorem size_le_of_within {size : ℕ}
    (h : x.toNat + size ≤ (x.toNat / bytesPerBurst P + 1) * bytesPerBurst P) :
    size ≤ bytesPerBurst P := by
  have hdown := div_mul_le_self x.toNat (bytesPerBurst P)
  rw [add_mul] at h
  omega

/-- A burst that no write in the queue is for becomes a write in the queue. -/
theorem State.Writes.insert (h : s.Writes P) {w : Burst}
    (hnew : P.burstAlign w.addr ∉ s.isInWriteQueue)
    (hl : s'.queues.bursts .WRITE ~ w :: s.queues.bursts .WRITE)
    (hset : s'.isInWriteQueue = Insert.insert (P.burstAlign w.addr) s.isInWriteQueue)
    (hwithin : (span w).2 ≤ (w.addr.toNat / bytesPerBurst P + 1) * bytesPerBurst P ∧
      (span w).2 < 2 ^ 64) : s'.Writes P where
  nodup := by
    rw [(hl.map _).nodup_iff, map_cons, nodup_cons]
    rw [h.set, mem_toFinset] at hnew
    exact ⟨hnew, h.nodup⟩
  set := by
    rw [hset, h.set, toFinset_eq_of_perm _ _ (hl.map _), map_cons, toFinset_cons]
  within := by
    intro w' hw'
    rcases mem_cons.mp (hl.mem_iff.mp hw') with rfl | hw'
    · exact hwithin
    · exact h.within w' hw'

/-- After `j` rounds of the loop of `addToWriteQueue`. -/
structure WriteAfter (P : Params) (s : State n) (pkt : Packet) (j : ℕ) (l : State n × Addr) :
    Prop where
  addr : l.2.toNat = pieceStart (bytesPerBurst P) pkt.addr.toNat j
  counters : l.1.Counters P
  writes : l.1.Writes P
  total : l.1.queues.totalQueueSize .WRITE ≤ s.queues.totalQueueSize .WRITE + j
  outstanding : l.1.outstanding = s.outstanding
  helpers : l.1.helpers = s.helpers
  packets : l.1.packets = s.packets
  responded : l.1.responded = s.responded

theorem WriteAfter.next {l : State n × Addr} (hl : WriteAfter P s pkt j l)
    (hfits : pkt.Fits P) (hsize : pkt.size ≠ 0)
    (hj : j < pieceCount (bytesPerBurst P) pkt.addr.toNat pkt.size.toNat)
    (hroom : s.queues.totalQueueSize .WRITE +
      pieceCount (bytesPerBurst P) pkt.addr.toNat pkt.size.toNat ≤ P.writeBufferSize) :
    ∃ l', State.writeBurst P pkt ptr prio l j = some l' ∧ WriteAfter P s pkt (j + 1) l' := by
  have hnext := toNat_nextBurst_piece hfits hsize hj hl.addr
  obtain ⟨hpos, hwithin, hend⟩ := burst_bounds hfits hsize hj hl.addr
  have htotal := hl.total
  rw [State.writeBurst]
  by_cases hmerged : P.burstAlign l.2 ∈ l.1.isInWriteQueue
  · rw [if_pos hmerged]
    exact ⟨_, rfl, hnext, hl.counters, hl.writes, htotal.trans (le_succ _), hl.outstanding, hl.helpers,
      hl.packets, hl.responded⟩
  · simp only [if_neg hmerged, if_neg (show ¬ P.writeBufferSize ≤
      l.1.queues.totalQueueSize .WRITE by omega)]
    generalize hm : decodePacket ptr pkt prio .WRITE l.2 (P.burstLen pkt l.2) = m
    have hdir : m.dir = .WRITE := by rw [← hm]; rfl
    have haddr : m.addr = l.2 := by rw [← hm]; rfl
    have hmsize : m.size = P.burstLen pkt l.2 := by rw [← hm]; rfl
    have hcounters : (l.1.enqueue m).Counters P :=
      hl.counters.enqueue (by rwa [hmsize]) (by rw [hmsize]; exact size_le_of_within hwithin)
    have hbursts := (put_enqueue l.1.queues m).bursts
    rw [hdir] at hbursts
    have hwrites : State.Writes P { l.1.enqueue m with
        isInWriteQueue := Insert.insert (P.burstAlign l.2) l.1.isInWriteQueue } := by
      apply hl.writes.insert (by rwa [haddr]) hbursts (by rw [haddr])
      rw [span, haddr, hmsize]
      exact ⟨hwithin, hwithin.trans_lt hend⟩
    have hcard := hwrites.card_eq
    have hcount : (l.1.enqueue m).queues.totalQueueSize .WRITE
        = (Insert.insert (P.burstAlign l.2) l.1.isInWriteQueue).card := by
      rw [hcounters.counted.total]
      exact hcard.symm
    rw [if_neg (not_not_intro hcount)]
    refine ⟨_, rfl, hnext, ⟨hcounters.1, hcounters.2, hcounters.3⟩, hwrites, ?_, ?_, hl.helpers,
      hl.packets, hl.responded⟩
    · show update l.1.queues.totalQueueSize m.dir
        (l.1.queues.totalQueueSize m.dir + 1) .WRITE ≤ _
      rw [hdir, update_self]
      omega
    · have hreads : (l.1.queues.enqueue m).bursts .READ = l.1.queues.bursts .READ :=
        (put_enqueue _ _).bursts_of_ne (by rw [hdir]; simp)
      rw [← hl.outstanding, State.outstanding]
      exact congrArg (· ++ l.1.respQueue.map MemPacket.toBurst) hreads

/-! ## Accepting a read -/

theorem covered_perm (h : s'.queues.bursts .WRITE ~ s.queues.bursts .WRITE)
    (x : ℕ × ℕ) : s'.covered x = s.covered x := h.any_eq

/-- A read is found in the queue of one priority, or of none. -/
theorem foundInWrQ_eq (hw : s.Writes P) {size : BitVec 32} (hpos : 0 < size.toNat)
    (hx : x.toNat + size.toNat ≤ (x.toNat / bytesPerBurst P + 1) * bytesPerBurst P)
    (hend : (x.toNat / bytesPerBurst P + 1) * bytesPerBurst P < 2 ^ 64) :
    s.foundInWrQ P x size = if s.covered (x.toNat, x.toNat + size.toNat) then 1 else 0 := by
  have hiff : ∀ i, ∀ m ∈ s.queues.queue (.WRITE, i), (subsumes x size m ↔
      (span m.toBurst).1 ≤ x.toNat ∧ x.toNat + size.toNat ≤ (span m.toBurst).2) := by
    intro i m hm
    exact subsumes_iff (hw.within _ (mem_bursts.mpr ⟨i, m, hm, rfl⟩)).2 (hx.trans_lt hend)
  -- a write that holds the bytes is a write to their burst
  have hburst : ∀ i, ∀ m ∈ s.queues.queue (.WRITE, i), subsumes x size m →
      P.burstAlign m.addr = P.burstAlign x := by
    intro i m hm hsub
    obtain ⟨hlow, hhigh⟩ := (hiff i m hm).mp hsub
    have hwithin := (hw.within _ (mem_bursts.mpr ⟨i, m, hm, rfl⟩)).1
    rw [burstAlign_eq_iff]
    apply Nat.le_antisymm (Nat.div_le_div_right hlow)
    have hlt : x.toNat < (m.addr.toNat / bytesPerBurst P + 1) * bytesPerBurst P := by omega
    exact Nat.le_of_lt_succ (Nat.div_lt_of_lt_mul (by rwa [Nat.mul_comm]))
  by_cases hcov : s.covered (x.toNat, x.toNat + size.toNat) = true
  · obtain ⟨w, hw', hspan⟩ := any_eq_true.mp hcov
    obtain ⟨i, m, hm, rfl⟩ := mem_bursts.mp hw'
    have hsub : subsumes x size m := (hiff i m hm).mpr (by simpa using hspan)
    have hmem : P.burstAlign x ∈ s.isInWriteQueue := by
      rw [hw.set, ← hburst i m hm hsub, mem_toFinset]
      exact mem_map_of_mem hw'
    have hone : ∀ j ∈ finRange n,
        ((s.queues.queue (.WRITE, j)).any (subsumes x size) = true ↔ (j == i) = true) := by
      intro j _
      rw [beq_iff_eq, any_eq_true]
      constructor
      · rintro ⟨m', hm', hsub'⟩
        have hnodup := hw.nodup
        rw [bursts, map_map] at hnodup
        have hlane := eq_of_nodup_gather_map hnodup (mem_lanes.mpr rfl)
          (mem_lanes.mpr rfl) hm' hm ((hburst j m' hm' hsub').trans (hburst i m hm hsub).symm)
        exact (Prod.mk.inj hlane).2
      · rintro rfl
        exact ⟨m, hm, hsub⟩
    rw [foundInWrQ, if_pos hmem, if_pos hcov, countP_congr hone]
    exact count_eq_one_of_mem (nodup_finRange n) (mem_finRange i)
  · rw [foundInWrQ]
    split
    · rw [countP_eq_zero]
      intro i _ hany
      obtain ⟨m, hm, hsub⟩ := any_eq_true.mp hany
      refine hcov (any_eq_true.mpr ⟨m.toBurst, mem_bursts.mpr ⟨i, m, hm, rfl⟩, ?_⟩)
      simpa using (hiff i m hm).mp hsub
    · rfl

/-- A piece of a packet, by where it starts and ends. -/
abbrev Packet.piece (P : Params) (pkt : Packet) (j : ℕ) : ℕ × ℕ :=
  (pieceStart (bytesPerBurst P) pkt.addr.toNat j,
    pieceStop (bytesPerBurst P) pkt.addr.toNat pkt.size.toNat j)

/-- The first pieces of a packet that no write holds. -/
def State.missingUpTo (P : Params) (s : State n) (pkt : Packet) (j : ℕ) : List (ℕ × ℕ) :=
  ((List.range j).map fun j => (pieceStart (bytesPerBurst P) pkt.addr.toNat j,
    pieceStop (bytesPerBurst P) pkt.addr.toNat pkt.size.toNat j)).filter fun x => !s.covered x

theorem missingUpTo_succ (s : State n) (pkt : Packet) (j : ℕ) :
    s.missingUpTo P pkt (j + 1) = s.missingUpTo P pkt j ++
      if s.covered (pkt.piece P j) then [] else [pkt.piece P j] := by
  rw [missingUpTo, range_succ, map_append, filter_append]
  simp only [map_cons, map_nil, filter_cons]
  cases s.covered _ <;> rfl

/-- A packet that is split has a helper if bytes of it are missing. -/
def HelperMade (count : ℕ) (missing : List (ℕ × ℕ)) (before after : Store BurstHelper)
    (h : Option ℕ) : Prop :=
  if 1 < count ∧ missing ≠ [] then
    h = some before.size ∧ after = (before.alloc ⟨count, 0⟩).1
  else h = none ∧ after = before

/-- After `j` rounds of the loop of `addToReadQueue`. -/
structure ReadAfter (P : Params) (s : State n) (pkt : Packet) (ptr count j : ℕ)
    (l : ReadLoop n) : Prop where
  addr : l.addr.toNat = pieceStart (bytesPerBurst P) pkt.addr.toNat j
  counters : l.ctrl.Counters P
  total : l.ctrl.queues.totalQueueSize .READ ≤ s.queues.totalQueueSize .READ + j
  writes : ∀ i, l.ctrl.queues.queue (.WRITE, i) = s.queues.queue (.WRITE, i)
  isInWriteQueue : l.ctrl.isInWriteQueue = s.isInWriteQueue
  respQueue : l.ctrl.respQueue = s.respQueue
  packets : l.ctrl.packets = s.packets
  responded : l.ctrl.responded = s.responded
  serviced : l.pktsServicedByWrQ + (s.missingUpTo P pkt j).length = j
  /-- The bursts that were not found wait in the read queue, all with the same helper. -/
  bursts : ∃ new, l.ctrl.queues.bursts .READ ~ new ++ s.queues.bursts .READ ∧
    new.map span ~ s.missingUpTo P pkt j ∧
    ∀ b ∈ new, b.pkt = ptr ∧ b.burstHelper = l.burstHelper
  helper : HelperMade count (s.missingUpTo P pkt j) s.helpers l.ctrl.helpers l.burstHelper

section

variable (hl : ReadAfter P s pkt ptr count j l)

include hl

theorem ReadAfter.bursts_write : l.ctrl.queues.bursts .WRITE = s.queues.bursts .WRITE := by
  rw [Queues.bursts, Queues.bursts, Queues.packets, Queues.packets, gather]
  congr 1
  apply flatMap_congr
  rintro ⟨d, i⟩ hi
  obtain rfl := mem_lanes.mp hi
  exact hl.writes i

/-- The helper for the next burst that is not found. -/
theorem ReadAfter.makeHelper (hne : s.missingUpTo P pkt (j + 1) ≠ [])
    (hspans : new.map span ~ s.missingUpTo P pkt j)
    (hall : ∀ b ∈ new, b.burstHelper = l.burstHelper) :
    ∃ helpers h, l.makeHelper count =
        { l with ctrl := { l.ctrl with helpers := helpers }, burstHelper := h } ∧
      (∀ b ∈ new, b.burstHelper = h) ∧
      HelperMade count (s.missingUpTo P pkt (j + 1)) s.helpers helpers h := by
  have hhelper := hl.helper
  rw [HelperMade] at hhelper
  by_cases hone : 1 < count
  · by_cases hnil : s.missingUpTo P pkt j = []
    · -- it is made for this burst
      rw [if_neg (fun h => h.2 hnil)] at hhelper
      obtain ⟨hnone, hhelpers⟩ := hhelper
      rw [hnil] at hspans
      have hempty : new = [] := map_eq_nil_iff.mp hspans.eq_nil
      rw [ReadLoop.makeHelper, if_pos ⟨hone, hnone⟩]
      refine ⟨_, _, rfl, ?_, ?_⟩
      · simp [hempty]
      · rw [HelperMade, if_pos ⟨hone, hne⟩, hhelpers]
        exact ⟨rfl, rfl⟩
    · rw [if_pos ⟨hone, hnil⟩] at hhelper
      rw [ReadLoop.makeHelper, if_neg (fun h => by rw [hhelper.1] at h; cases h.2)]
      refine ⟨l.ctrl.helpers, l.burstHelper, rfl, hall, ?_⟩
      rw [HelperMade, if_pos ⟨hone, hne⟩]
      exact hhelper
  · rw [if_neg (fun h => hone h.1)] at hhelper
    rw [ReadLoop.makeHelper, if_neg (fun h => hone h.1)]
    refine ⟨l.ctrl.helpers, l.burstHelper, rfl, hall, ?_⟩
    rw [HelperMade, if_neg (fun h => hone h.1)]
    exact hhelper

theorem ReadAfter.next (hw : s.Writes P) (hfits : pkt.Fits P) (hsize : pkt.size ≠ 0)
    (hcount : count = pieceCount (bytesPerBurst P) pkt.addr.toNat pkt.size.toNat) (hj : j < count)
    (hroom : s.queues.totalQueueSize .READ + s.respQueue.length + count ≤ P.readBufferSize) :
    ∃ l', readBurst P pkt ptr prio count l j = some l' ∧
      ReadAfter P s pkt ptr count (j + 1) l' := by
  have hj' : j < pieceCount (bytesPerBurst P) pkt.addr.toNat pkt.size.toNat := hcount ▸ hj
  have hnext := toNat_nextBurst_piece hfits hsize hj' hl.addr
  obtain ⟨hpos, hwithin, hend⟩ := burst_bounds hfits hsize hj' hl.addr
  have hstop := toNat_burstLen hfits hsize hj' hl.addr
  have hwl : l.ctrl.Writes P := hw.of_perm (by rw [hl.bursts_write]) hl.isInWriteQueue
  have hfound := foundInWrQ_eq hwl hpos hwithin hend
  have hcovered : l.ctrl.covered = s.covered := funext (covered_perm (by rw [hl.bursts_write]))
  rw [hcovered, hstop, hl.addr] at hfound
  have hsucc := missingUpTo_succ (P := P) s pkt j
  have htotal := hl.total
  have hserviced := hl.serviced
  simp only [readBurst]
  by_cases hcov : s.covered (pkt.piece P j) = true
  · rw [if_pos hcov] at hfound
    rw [if_pos hcov, append_nil] at hsucc
    simp only [hfound, ne_eq, one_ne_zero]
    refine ⟨_, rfl, hnext, hl.counters, htotal.trans (le_succ _), hl.writes, hl.isInWriteQueue,
      hl.respQueue, hl.packets, hl.responded, ?_, ?_, ?_⟩
    · rw [hsucc]
      show l.pktsServicedByWrQ + 1 + _ = j + 1
      omega
    · rw [hsucc]
      exact hl.bursts
    · rw [hsucc]
      exact hl.helper
  · rw [if_neg hcov] at hfound hsucc
    have hne : s.missingUpTo P pkt (j + 1) ≠ [] := by
      rw [hsucc]
      exact append_ne_nil_of_right_ne_nil _ (cons_ne_nil _ _)
    simp only [hfound, ne_eq]
    obtain ⟨new, hnew, hspans, hall⟩ := hl.bursts
    obtain ⟨helpers, h, hmade, hsame, hhelper⟩ := hl.makeHelper hne hspans fun b hb => (hall b hb).2
    simp only [hmade]
    have hfull : readQueueFull P { l.ctrl with helpers := helpers } 1 = false := by
      rw [readQueueFull, decide_eq_false_iff_not]
      show ¬ _ < l.ctrl.queues.totalQueueSize .READ + l.ctrl.respQueue.length + 1
      rw [hl.respQueue]
      omega
    rw [hfull]
    generalize hm : ({ decodePacket ptr pkt prio .READ l.addr (P.burstLen pkt l.addr) with
      burstHelper := h } : MemPacket n) = m
    have hdir : m.dir = .READ := by rw [← hm]; rfl
    have hmspan : span m.toBurst = pkt.piece P j := by
      rw [← hm, Packet.piece, ← hstop, ← hl.addr]
      rfl
    have hmsize : m.size = P.burstLen pkt l.addr := by rw [← hm]; rfl
    have hbursts := (put_enqueue l.ctrl.queues m).bursts
    rw [hdir] at hbursts
    have hcounters : State.Counters P { l.ctrl with helpers := helpers } :=
      ⟨hl.counters.1, hl.counters.2, hl.counters.3⟩
    refine ⟨_, rfl, hnext, ?_, ?_, ?_, hl.isInWriteQueue, hl.respQueue, hl.packets, hl.responded,
      ?_, ⟨m.toBurst :: new, ?_, ?_, ?_⟩, hhelper⟩
    · exact hcounters.enqueue (by rwa [hmsize]) (by rw [hmsize]; exact size_le_of_within hwithin)
    · show update l.ctrl.queues.totalQueueSize m.dir
        (l.ctrl.queues.totalQueueSize m.dir + 1) .READ ≤ _
      rw [hdir, update_self]
      omega
    · intro i
      rw [← hl.writes i]
      show update l.ctrl.queues.queue (m.dir, m.qosValue) _ (.WRITE, i) = _
      rw [update_of_ne (by rw [hdir]; simp)]
    · rw [hsucc, length_append, length_singleton]
      show l.pktsServicedByWrQ + _ = j + 1
      omega
    · exact hbursts.trans (hnew.cons _)
    · rw [hsucc, map_cons, hmspan]
      exact (hspans.cons _).trans (perm_append_singleton _ _).symm
    · intro b hb
      rcases mem_cons.mp hb with rfl | hb
      · rw [← hm]
        exact ⟨rfl, rfl⟩
      · exact ⟨(hall b hb).1, hsame b hb⟩

end

/-- The bursts of a new packet come with a helper of their own, or there is only one. -/
theorem Helpers.accept {helpers helpers' : Store BurstHelper} {l new : List Burst}
    {made : Option ℕ} (h : Helpers helpers l) (hfresh : ∀ b ∈ l, b.pkt ≠ ptr) (hnew : new ≠ [])
    (hall : ∀ b ∈ new, b.pkt = ptr ∧ b.burstHelper = made)
    (hmade : ∀ p, made = some p → helpers.read p = none ∧
      ∃ c, helpers'.read p = some c ∧ c.burstsServiced + new.length = c.burstCount)
    (hone : made = none → new.length = 1)
    (hframe : ∀ p, made ≠ some p → helpers'.read p = helpers.read p) :
    Helpers helpers' (new ++ l) := by
  have hold : ∀ b ∈ l, ∀ p, made = some p → b.burstHelper ≠ some p := by
    intro b hb p hp heq
    obtain ⟨c, hc, -⟩ := h.counts b hb p heq
    rw [(hmade p hp).1] at hc
    cases hc
  have hself : ((new ++ l).filter (·.pkt = ptr)).length = new.length := by
    rw [filter_append, length_append, length_filter_eq_zero.mpr hfresh, add_zero,
      filter_eq_self.mpr]
    intro b hb
    simpa using (hall b hb).1
  have hother : ∀ b ∈ l, ((new ++ l).filter (·.pkt = b.pkt)).length
      = (l.filter (·.pkt = b.pkt)).length := by
    intro b hb
    rw [filter_append, length_append, length_filter_eq_zero.mpr, zero_add]
    intro b' hb'
    rw [(hall b' hb').1]
    exact (hfresh b hb).symm
  refine ⟨?_, ?_, ?_, ?_⟩
  · intro b hb p hp
    rcases mem_append.mp hb with hb | hb
    · rw [(hall b hb).1, hself]
      exact (hmade p ((hall b hb).2.symm.trans hp)).2
    · rw [hother b hb, hframe p fun hp' => hold b hb p hp' hp]
      exact h.counts b hb p hp
  · intro b hb hnone
    rcases mem_append.mp hb with hb | hb
    · rw [(hall b hb).1, hself]
      exact hone ((hall b hb).2.symm.trans hnone)
    · rw [hother b hb]
      exact h.alone b hb hnone
  · intro b1 h1 b2 h2 p hp
    rcases mem_append.mp h1 with h1 | h1 <;> rcases mem_append.mp h2 with h2 | h2
    · rw [(hall b1 h1).1, (hall b2 h2).1, (hall b2 h2).2, ← (hall b1 h1).2]
      exact iff_of_true hp rfl
    · rw [(hall b1 h1).1]
      exact iff_of_false (hold b2 h2 p ((hall b1 h1).2.symm.trans hp)) (hfresh b2 h2)
    · rw [(hall b2 h2).1, (hall b2 h2).2]
      exact iff_of_false (fun hp' => hold b1 h1 p hp' hp) (hfresh b1 h1).symm
    · exact h.shared b1 h1 b2 h2 p hp
  · intro p hp
    by_cases hp' : made = some p
    · obtain ⟨b, hb⟩ := exists_mem_of_ne_nil _ hnew
      exact ⟨b, mem_append_left _ hb, (hall b hb).2.trans hp'⟩
    · rw [hframe p hp'] at hp
      obtain ⟨b, hb, heq⟩ := h.alive p hp
      exact ⟨b, mem_append_right _ hb, heq⟩

/-- A packet that reads is accepted; it is answered at once if nothing of it is missing. -/
theorem Observed.Reads.accept {o o' : Observed n} {missing : List (ℕ × ℕ)}
    (h : o.Reads) (hreads : o'.reads = o.reads ++ [(o.ctrl.packets.length, missing)])
    (hserviced : o'.serviced = o.serviced)
    (hpackets : o'.ctrl.packets.length = o.ctrl.packets.length + 1)
    (hout : o'.ctrl.outstanding ~ new ++ o.ctrl.outstanding)
    (hnew : new.map span ~ missing) (hptr : ∀ b ∈ new, b.pkt = o.ctrl.packets.length)
    (hresponded : o'.ctrl.responded =
      o.ctrl.responded ++ if missing = [] then [o.ctrl.packets.length] else []) : o'.Reads := by
  have hold : ∀ ptr < o.ctrl.packets.length,
      o'.ctrl.outstandingOf ptr ~ o.ctrl.outstandingOf ptr := by
    intro ptr hlt
    apply ((hout.filter _).map span).trans
    rw [filter_append, filter_eq_nil_iff.mpr]
    · exact .refl _
    · intro b hb
      rw [hptr b hb]
      simpa using hlt.ne'
  have hself : o'.ctrl.outstandingOf o.ctrl.packets.length ~ missing := by
    apply ((hout.filter _).map span).trans
    have hnone : o.ctrl.outstanding.filter (·.pkt = o.ctrl.packets.length) = [] := by
      rw [filter_eq_nil_iff]
      intro b hb
      simpa using (h.pkt_lt hb).ne
    rw [filter_append, hnone, append_nil, filter_eq_self.mpr]
    · exact hnew
    · intro b hb
      simpa using hptr b hb
  have hservicedOf : ∀ ptr, o'.servicedOf ptr = o.servicedOf ptr := by
    intro ptr
    rw [servicedOf, hserviced]
    rfl
  have hcount : ∀ ptr < o.ctrl.packets.length,
      o'.ctrl.responded.count ptr = o.ctrl.responded.count ptr := by
    intro ptr hlt
    rw [hresponded, count_append, add_eq_left, count_eq_zero]
    split
    · simpa using hlt.ne
    · exact not_mem_nil
  refine ⟨?_, ?_, ?_, ?_, ?_, ?_⟩
  · simp only [hreads, forall_mem_append, forall_mem_singleton, hservicedOf]
    constructor
    · exact fun r hr => (h.missing r hr).trans ((hold r.1 (h.old r hr)).symm.append_left _)
    · have hnone : o.servicedOf o.ctrl.packets.length = [] := by
        rw [servicedOf, map_eq_nil_iff, filter_eq_nil_iff]
        intro x hx
        simpa using (h.oldServiced x hx).ne
      rw [hnone]
      exact hself.symm
  · rw [hreads, forall_mem_append, forall_mem_singleton]
    constructor
    · intro r hr
      rw [hcount r.1 (h.old r hr), h.answered r hr]
      have hnil : o'.ctrl.outstandingOf r.1 = [] ↔ o.ctrl.outstandingOf r.1 = [] := by
        rw [← length_eq_zero_iff, (hold r.1 (h.old r hr)).length_eq, length_eq_zero_iff]
      simp only [hnil]
    · have hnil : o'.ctrl.outstandingOf o.ctrl.packets.length = [] ↔ missing = [] := by
        rw [← length_eq_zero_iff, hself.length_eq, length_eq_zero_iff]
      have hzero : o.ctrl.responded.count o.ctrl.packets.length = 0 :=
        count_eq_zero.mpr fun hmem => (h.oldResponded _ hmem).ne rfl
      simp only [hnil]
      rw [hresponded, count_append, hzero, zero_add]
      split
      · exact count_singleton_self
      · rfl
  · intro b hb
    rw [hreads, map_append]
    rcases mem_append.mp (hout.mem_iff.mp hb) with hb | hb
    · rw [hptr b hb]
      exact mem_append_right _ (by simp)
    · exact mem_append_left _ (h.known b hb)
  · rw [hreads, hpackets, forall_mem_append, forall_mem_singleton]
    exact ⟨fun r hr => (h.old r hr).trans (lt_succ_self _), lt_succ_self _⟩
  · intro ptr hptr
    rw [hpackets]
    rw [hresponded] at hptr
    rcases mem_append.mp hptr with hptr | hptr
    · exact (h.oldResponded ptr hptr).trans (lt_succ_self _)
    · split at hptr
      · rw [mem_singleton.mp hptr]
        exact lt_succ_self _
      · cases hptr
  · intro x hx
    rw [hserviced] at hx
    rw [hpackets]
    exact (h.oldServiced x hx).trans (lt_succ_self _)

theorem addToWriteQueue_spec (prio : Fin n) (hcounters : s.Counters P) (hw : s.Writes P) (hfits : pkt.Fits P)
    (hsize : pkt.size ≠ 0) (hwrite : pkt.isWrite = true) (hptr : ptr < s.packets.length)
    (hroom : s.queues.totalQueueSize .WRITE + (P.pktCount pkt).toNat ≤ P.writeBufferSize) :
    ∃ s', s.addToWriteQueue P ptr pkt prio (P.pktCount pkt).toNat = some s' ∧ s'.Counters P ∧
      s'.Writes P ∧ s'.outstanding = s.outstanding ∧ s'.helpers = s.helpers ∧
      s'.packets = s.packets ∧ s'.responded = s.responded ++ [ptr] := by
  rw [toNat_pktCount hfits] at hroom ⊢
  have hstart : WriteAfter P s pkt 0 (s, pkt.addr) :=
    ⟨(pieceStart_zero _ _).symm, hcounters, hw, le_refl _, rfl, rfl, rfl, rfl⟩
  have hnext : ∀ j l, j < pieceCount (bytesPerBurst P) pkt.addr.toNat pkt.size.toNat →
      WriteAfter P s pkt j l → ∃ l', writeBurst P pkt ptr prio l j = some l' ∧
        WriteAfter P s pkt (j + 1) l' := fun j l hj hl => hl.next hfits hsize hj hroom
  obtain ⟨l, hloop, hl⟩ := runSteps_range hnext hstart
  have hlt : ptr < l.1.packets.length := by rwa [hl.packets]
  have hrespond := hl.counters.accessAndRespond hlt
  refine ⟨{ l.1 with responded := l.1.responded ++ [ptr] }, ?_,
    ⟨hl.counters.1, hl.counters.2, hl.counters.3⟩, ⟨hl.writes.1, hl.writes.2, hl.writes.3⟩,
    hl.outstanding, hl.helpers, hl.packets, by rw [hl.responded]⟩
  simp [addToWriteQueue, hwrite, hloop, hrespond]

theorem addToReadQueue_spec (prio : Fin n) (hcounters : s.Counters P) (hw : s.Writes P)
    (hhelpers : Helpers s.helpers s.outstanding) (hfresh : ∀ b ∈ s.outstanding, b.pkt ≠ ptr)
    (hfits : pkt.Fits P) (hsize : pkt.size ≠ 0) (hread : pkt.isWrite = false)
    (hptr : ptr < s.packets.length)
    (hroom : s.queues.totalQueueSize .READ + s.respQueue.length + (P.pktCount pkt).toNat ≤
      P.readBufferSize) :
    ∃ s' new, s.addToReadQueue P ptr pkt prio (P.pktCount pkt).toNat = some s' ∧ s'.Counters P ∧
      s'.Writes P ∧ Helpers s'.helpers s'.outstanding ∧ s'.outstanding ~ new ++ s.outstanding ∧
      new.map span ~ s.missing P pkt ∧ (∀ b ∈ new, b.pkt = ptr) ∧ s'.packets = s.packets ∧
      s'.responded = s.responded ++ if s.missing P pkt = [] then [ptr] else [] := by
  have hlen : 0 < pkt.size.toNat := pos_of_ne_zero fun h => hsize (BitVec.eq_of_toNat_eq h)
  rw [toNat_pktCount hfits] at hroom ⊢
  generalize hcount : pieceCount (bytesPerBurst P) pkt.addr.toNat pkt.size.toNat = count
    at hroom ⊢
  have hpos : count ≠ 0 := by
    rw [← hcount]
    exact (pieceCount_pos (bytesPerBurst_pos P) hlen).ne'
  have hnohelper : HelperMade count [] s.helpers s.helpers none := by
    rw [HelperMade, if_neg (fun h => h.2 rfl)]
    exact ⟨rfl, rfl⟩
  have hstart : ReadAfter P s pkt ptr count 0 ⟨s, pkt.addr, 0, none⟩ :=
    ⟨(pieceStart_zero _ _).symm, hcounters, le_refl _, fun _ => rfl, rfl, rfl, rfl, rfl, rfl,
      ⟨[], .refl _, .refl _, by simp⟩, hnohelper⟩
  have hnext : ∀ j l, j < count → ReadAfter P s pkt ptr count j l →
      ∃ l', readBurst P pkt ptr prio count l j = some l' ∧
        ReadAfter P s pkt ptr count (j + 1) l' :=
    fun j l hj hl => hl.next hw hfits hsize hcount.symm hj hroom
  obtain ⟨l, hloop, hl⟩ := runSteps_range hnext hstart
  have hmissing : s.missingUpTo P pkt count = s.missing P pkt := by
    rw [← hcount]
    rfl
  have hserviced := hl.serviced
  have hhelper := hl.helper
  obtain ⟨new, hnew, hspans, hall⟩ := hl.bursts
  rw [hmissing] at hserviced hspans hhelper
  have hlength : new.length = (s.missing P pkt).length := by
    rw [← hspans.length_eq, length_map]
  have hout : l.ctrl.outstanding ~ new ++ s.outstanding := by
    rw [outstanding, outstanding, hl.respQueue, ← append_assoc]
    exact hnew.append_right _
  have hwrites : l.ctrl.Writes P := hw.of_perm (by rw [hl.bursts_write]) hl.isInWriteQueue
  have hlt : ptr < l.ctrl.packets.length := by rwa [hl.packets]
  have hrespond := hl.counters.accessAndRespond hlt
  simp only [addToReadQueue, hread, Bool.false_eq_true, if_false, hpos, hloop,
    Option.bind_some]
  by_cases hnil : s.missing P pkt = []
  · -- everything is in the write queue
    have hempty : new = [] := length_eq_zero_iff.mp (by rw [hlength, hnil]; rfl)
    rw [HelperMade, if_neg (fun h => h.2 hnil)] at hhelper
    rw [hnil, length_nil, add_zero] at hserviced
    rw [if_pos hserviced, hrespond]
    refine ⟨_, new, rfl, ⟨hl.counters.1, hl.counters.2, hl.counters.3⟩,
      ⟨hwrites.1, hwrites.2, hwrites.3⟩, ?_, hout, hspans, fun b hb => (hall b hb).1, hl.packets, ?_⟩
    · show Helpers l.ctrl.helpers l.ctrl.outstanding
      rw [hempty] at hout
      rw [hhelper.2]
      exact hhelpers.of_perm hout
    · show l.ctrl.responded ++ [ptr] = _
      rw [if_pos hnil, hl.responded]
  · have hsome : (s.missing P pkt).length ≠ 0 := fun h => hnil (length_eq_zero_iff.mp h)
    have hnew' : new ≠ [] := by
      rintro rfl
      exact hsome hlength.symm
    have hresponded : l.ctrl.responded = s.responded ++ if s.missing P pkt = [] then [ptr] else [] := by
      rw [if_neg hnil, append_nil, hl.responded]
    rw [if_neg (by omega)]
    by_cases hone : 1 < count
    · rw [HelperMade, if_pos ⟨hone, hnil⟩] at hhelper
      obtain ⟨hsize', halloc⟩ := hhelper
      have hreadNew : l.ctrl.helpers.read s.helpers.size = some ⟨count, 0⟩ := by
        rw [halloc]
        exact Store.read_alloc_self _ _
      simp only [hsize', Store.modify_eq hreadNew]
      refine ⟨_, new, rfl, ⟨hl.counters.1, hl.counters.2, hl.counters.3⟩,
        ⟨hwrites.1, hwrites.2, hwrites.3⟩, ?_, hout, hspans, fun b hb => (hall b hb).1, hl.packets,
        hresponded⟩
      refine Helpers.of_perm (hhelpers.accept hfresh hnew'
        (fun b hb => ⟨(hall b hb).1, (hall b hb).2.trans hsize'⟩) ?_ (by simp) ?_) hout
      · rintro p ⟨⟩
        refine ⟨Store.read_size _, ⟨count, l.pktsServicedByWrQ⟩, Store.read_write_self hreadNew, ?_⟩
        show l.pktsServicedByWrQ + new.length = count
        omega
      · intro p hp
        have hp' : p ≠ s.helpers.size := fun heq => hp (heq ▸ rfl)
        rw [Store.read_write_ne hp', halloc, Store.read_alloc_ne _ _ hp']
    · rw [HelperMade, if_neg (fun h => hone h.1)] at hhelper
      obtain ⟨hnone, hsame⟩ := hhelper
      simp only [hnone]
      refine ⟨_, new, rfl, hl.counters, hwrites, ?_, hout, hspans, fun b hb => (hall b hb).1,
        hl.packets, hresponded⟩
      refine (hhelpers.accept hfresh hnew' (fun b hb => ⟨(hall b hb).1, (hall b hb).2.trans hnone⟩)
        (by simp) (fun _ => ?_) fun p _ => by rw [hsame]).of_perm hout
      omega

end Accept

/-! ## Runs -/

section Run

variable {o : Observed n} {pkt : Packet}

/-- The scheduler only moves packets between priorities. -/
theorem Observed.Inv.schedule {q' : Queues n} (h : o.Inv P)
    (hq' : o.ctrl.queues.Reordered (bytesPerBurst P) q') :
    { o with ctrl := { o.ctrl with queues := q' } }.Inv P := by
  have hout : q'.bursts .READ ++ o.ctrl.respQueue.map MemPacket.toBurst ~ o.ctrl.outstanding :=
    (hq'.perm .READ).append_right _
  refine ⟨⟨hq'.counted, ?_, h.counters.contains⟩, h.writes.of_perm (hq'.perm .WRITE) rfl,
    h.helpers.of_perm hout, ?_⟩
  · intro d
    rw [hq'.counted.total, (hq'.perm d).length_eq, ← h.counters.counted.total]
    exact h.counters.intr d
  · exact h.reads.frame rfl rfl hout (le_refl _) (fun _ _ => rfl) h.reads.oldResponded

theorem Observed.Inv.addOrRefuse (h : o.Inv P) (prio : Fin n)
    (hrange : P.contains pkt.addr = true) (hsize : pkt.size ≠ 0) (hfits : pkt.Fits P) :
    ∃ s accepted, o.ctrl.addOrRefuse P pkt prio = some (s, accepted) ∧
      (⟨s, if accepted && !pkt.isWrite then
          o.reads ++ [(o.ctrl.packets.length, o.ctrl.missing P pkt)] else o.reads,
        o.serviced⟩ : Observed n).Inv P := by
  have hcounters := h.counters
  have hwrites := h.writes
  have haccepted : State.Counters P { o.ctrl with packets := o.ctrl.packets ++ [pkt] } := by
    refine ⟨hcounters.counted, hcounters.intr, ?_⟩
    exact forall_mem_append.mpr ⟨hcounters.contains, forall_mem_singleton.mpr hrange⟩
  have hptr : o.ctrl.packets.length < (o.ctrl.packets ++ [pkt]).length := by simp
  have hfresh : ∀ b ∈ o.ctrl.outstanding, b.pkt ≠ o.ctrl.packets.length := fun b hb =>
    (h.reads.pkt_lt hb).ne
  -- a packet that is refused only asks for a retry
  have hrefused := fun retryRdReq retryWrReq => show Inv P
      { o with ctrl := { o.ctrl with retryRdReq, retryWrReq } } from
    ⟨⟨hcounters.1, hcounters.2, hcounters.3⟩, ⟨hwrites.1, hwrites.2, hwrites.3⟩, h.helpers,
      h.reads.frame rfl rfl (.refl _) (le_refl _) (fun _ _ => rfl)
        h.reads.oldResponded⟩
  simp only [State.addOrRefuse, if_neg hsize]
  cases hwrite : pkt.isWrite with
  | true =>
    simp only [if_true]
    by_cases hfull : o.ctrl.writeQueueFull P (P.pktCount pkt).toNat = true
    · rw [if_pos hfull]
      exact ⟨_, _, rfl, hrefused _ _⟩
    · rw [if_neg hfull]
      rw [writeQueueFull, decide_eq_true_eq, not_lt] at hfull
      obtain ⟨s', hadd, hcounters', hwrites', hout, hhelpers, hpackets, hresponded⟩ :=
        addToWriteQueue_spec prio haccepted ⟨hwrites.1, hwrites.2, hwrites.3⟩ hfits
          hsize hwrite hptr hfull
      refine ⟨s', true, by rw [hadd, Option.map_some], hcounters', hwrites', ?_, ?_⟩
      · show Helpers s'.helpers s'.outstanding
        rw [hhelpers, hout]
        exact h.helpers
      · refine h.reads.frame rfl rfl (by rw [hout]; exact .refl _) ?_ ?_ ?_
        · rw [hpackets]
          exact hptr.le
        · intro ptr hlt
          rw [hresponded, count_append, add_eq_left, count_eq_zero]
          simpa using hlt.ne
        · intro ptr hmem
          rw [hpackets]
          rw [hresponded] at hmem
          rcases mem_append.mp hmem with hmem | hmem
          · exact (h.reads.oldResponded ptr hmem).trans hptr
          · rw [mem_singleton.mp hmem]
            exact hptr
  | false =>
    simp only [Bool.false_eq_true, if_false]
    by_cases hfull : o.ctrl.readQueueFull P (P.pktCount pkt).toNat = true
    · rw [if_pos hfull]
      exact ⟨_, _, rfl, hrefused _ _⟩
    · rw [if_neg hfull]
      rw [readQueueFull, decide_eq_true_eq, not_lt] at hfull
      obtain ⟨s', new, hadd, hcounters', hwrites', hhelpers, hout, hspans, hall, hpackets,
          hresponded⟩ :=
        addToReadQueue_spec prio haccepted ⟨hwrites.1, hwrites.2, hwrites.3⟩ h.helpers
          hfresh hfits hsize hwrite hptr hfull
      refine ⟨s', true, by rw [hadd, Option.map_some], hcounters', hwrites', hhelpers, ?_⟩
      refine h.reads.accept rfl rfl ?_ hout hspans hall hresponded
      rw [hpackets]
      exact length_append

theorem Observed.Inv.recvTimingReq (h : o.Inv P) {prio : Fin n} {others : List (ℕ × Fin n)}
    (hasserts : o.Asserts P (.recvTimingReq pkt prio others)) (hfits : pkt.Fits P) :
    ∃ o', o.step P (.recvTimingReq pkt prio others) = some o' ∧ o'.Inv P := by
  obtain ⟨hcache, hkind, hrange, hsize⟩ := hasserts
  obtain ⟨q', hschedule, hreordered⟩ := h.counters.counted.qosSchedule P.qosSyncroScheduler
    P.qosPriorityEscalation pkt.requestorId prio others
  have hmissing : o.ctrl.missing P pkt = State.missing P { o.ctrl with queues := q' } pkt := by
    rw [State.missing]
    congr 1
    funext x
    exact congrArg not (covered_perm (hreordered.perm .WRITE).symm x)
  obtain ⟨s, accepted, hadd, hinv⟩ :=
    (h.schedule hreordered).addOrRefuse prio hrange hsize hfits
  rw [bytesPerBurst] at hschedule
  refine ⟨_, ?_, hinv⟩
  simp [step, State.recvTimingReq, hcache, hkind, hrange, hschedule, hadd, hmissing]

theorem Observed.Inv.step (h : o.Inv P) {a : Step n} (ha : o.Allowed P a) :
    ∃ o', o.step P a = some o' ∧ o'.Inv P := by
  cases a with
  | recvTimingReq pkt prio others => exact h.recvTimingReq ha.1 ha.2
  | processNextReqEvent dir prio it => exact h.processNextReqEvent ha.1
  | processRespondEvent => exact h.processRespondEvent ha.1

/-- **Bookkeeping of the memory controller**: in whatever order bursts are issued, no assert
fails, the set of the writes that wait is exact, and every read is answered once, when all
its bursts that were not found in the write queue have been served. -/
theorem run_bookkeeping (P : Params) {steps : List (Step n)}
    (h : AllowedSteps (Observed.step P) (Observed.Allowed P) (Observed.new : Observed n) steps) :
    ∃ o, runSteps (Observed.step P) Observed.new steps = some o ∧ Bookkeeping P o := by
  obtain ⟨o, hrun, hinv⟩ := AllowedSteps.run (fun o a (ho : o.Inv P) => ho.step) inv_new h
  exact ⟨o, hrun, hinv.kept⟩

/-- Bursts of 64 bytes, and room for four of each kind. -/
def smallParams : Params :=
  { burstSize := 64, burstSize_pow := rfl, readBufferSize := 4, writeBufferSize := 4
    contains := fun _ => true, qosSyncroScheduler := false, qosPriorityEscalation := true }

/-- A packet at an address with a size. -/
def smallPacket (isWrite : Bool) (addr : Addr) (size : BitVec 32) : Packet :=
  { addr := addr, size := size, isRead := !isWrite, isWrite := isWrite, cacheResponding := false
    requestorId := 0 }

attribute [local instance] neZero_two

/-- A read of two bursts, the second of which is found in the write queue. -/
def splitRead : List (Step 2) :=
  [.recvTimingReq (smallPacket true 0x100 0x40) 0 [],
   .recvTimingReq (smallPacket false 0xf0 0x30) 1 [],
   .processNextReqEvent .READ 1 0, .processRespondEvent, .processNextReqEvent .WRITE 1 0]

theorem run_bookkeeping_splitRead :
    AllowedSteps (Observed.step smallParams) (Observed.Allowed smallParams) .new splitRead ∧
      ∃ o, runSteps (Observed.step smallParams) .new splitRead = some o ∧
        Bookkeeping smallParams o := by
  have h : AllowedSteps (step smallParams) (Allowed smallParams) .new
      splitRead := by decide +kernel
  exact ⟨h, run_bookkeeping smallParams h⟩

/-- The last burst but one of the address space and the first bytes of the last one are
written with different priorities, and then these bytes are read. -/
def readAtTop : List (Step 2) :=
  [.recvTimingReq { smallPacket true 0xffffffffffffff80 0x40 with requestorId := 1 } 1 [],
   .recvTimingReq (smallPacket true 0xffffffffffffffc0 0x08) 0 [],
   .recvTimingReq (smallPacket false 0xffffffffffffffc0 0x08) 0 []]

/-- At the end of the address space the end of a read wraps around to 0, and every write
before it subsumes it: it is found twice, and neither answered nor put into the read
queue. -/
theorem readAtTop_not_answered :
    AllowedSteps (Observed.step smallParams) (Observed.Asserts smallParams) .new readAtTop ∧
      ∃ o, runSteps (Observed.step smallParams) .new readAtTop = some o ∧
        o.reads = [(2, [])] ∧ o.ctrl.outstanding = [] ∧ 2 ∉ o.ctrl.responded ∧
        ¬ Bookkeeping smallParams o := by
  refine ⟨by decide +kernel, ?_⟩
  have hrun : (runSteps (step smallParams) .new readAtTop).map
      (fun o => (o.reads, o.ctrl.outstanding, o.ctrl.responded)) = some ([(2, [])], [], [0, 1]) := by
    decide +kernel
  obtain ⟨o, hrun, hstate⟩ := Option.map_eq_some_iff.mp hrun
  obtain ⟨hreads, hout, hresponded⟩ : o.reads = [(2, [])] ∧ o.ctrl.outstanding = [] ∧
      o.ctrl.responded = [0, 1] := by simpa using hstate
  refine ⟨o, hrun, hreads, hout, by rw [hresponded]; decide, ?_⟩
  intro h
  have hanswered := h.answered (2, []) (by rw [hreads]; exact mem_singleton_self _)
  rw [if_pos (by rw [outstandingOf, hout]; rfl), hresponded] at hanswered
  exact absurd hanswered (by decide)

end Run

end MemCtrl
