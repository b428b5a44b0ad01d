/-
# Atomic ALUs

`ALUFreeListArray` (mem/ruby/structures/ALUFreeListArray.cc) remembers the
accesses of the last `accessLatency` ticks.  A line that is in an ALU is not
accessed again, and a tick should not see more than `numALUs` accesses.

`curTick() - accessLatency` wraps around early in the simulation, where every
record looks old.
-/
import Gem5.Ruby
import Mathlib.Data.List.DropRight

open List

namespace ALUFreeListArray

structure AccessRecord where
  lineAddr : Addr
  startTick : BitVec 64
  deriving DecidableEq

structure Params where
  numALUs : BitVec 32
  accessLatency : BitVec 64
  blockSizeBits : ℕ

/-- `tryAccess(addr)`, then `reserve(addr)` if that is wanted and returned true. -/
structure Call where
  curTick : BitVec 64
  addr : Addr
  reserve : Bool := true

variable (p : Params)

def Call.line (c : Call) : Addr := Ruby.makeLineAddress p.blockSizeBits c.addr

/-- The records older than the latency are popped from the back. -/
def prune (curTick : BitVec 64) (accessQueue : List AccessRecord) : List AccessRecord :=
  accessQueue.rdropWhile fun record => record.startTick < curTick - p.accessLatency

def scan (curTick : BitVec 64) (line : Addr) : List AccessRecord → BitVec 32 → Bool
  | [], _ => true
  | record :: queue, accesses =>
    if record.startTick = curTick then
      if p.numALUs < accesses + 1 then false
      else if record.lineAddr = line then false else scan curTick line queue (accesses + 1)
    else if record.lineAddr = line then false else scan curTick line queue accesses

/-- The queue, its front first, and all reservations, the last one first. -/
structure State where
  accessQueue : List AccessRecord := []
  reserved : List AccessRecord := []

def State.step (s : State) (c : Call) : State :=
  let queue := prune p c.curTick s.accessQueue
  if scan p c.curTick (c.line p) queue 0 && c.reserve then
    let record := ⟨c.line p, c.curTick⟩
    ⟨record :: queue, record :: s.reserved⟩
  else { s with accessQueue := queue }

def run (calls : List Call) : State := calls.foldl (State.step p) {}

variable {p} {calls : List Call} {s : State} {c : Call} {t : BitVec 64} {line : Addr}
  {queue : List AccessRecord}

/-- The scan passes if no record has the line and at most `numALUs` are of the tick. -/
theorem scan_eq_true_iff (hALUs : p.numALUs.toNat + 1 < 2 ^ 32) {n : BitVec 32}
    (hn : n.toNat ≤ p.numALUs.toNat) :
    scan p t line queue n = true ↔ (∀ record ∈ queue, record.lineAddr ≠ line) ∧
      n.toNat + queue.countP (·.startTick = t) ≤ p.numALUs.toNat := by
  induction queue generalizing n with
  | nil => simpa [scan] using hn
  | cons record queue ih =>
    have hsucc : (n + 1).toNat = n.toNat + 1 := by bv_omega
    rw [scan, forall_mem_cons, countP_cons]
    by_cases hline : record.lineAddr = line
    · simp [hline]
    by_cases htick : record.startTick = t
    · rw [if_pos htick, if_neg hline, if_pos (decide_eq_true htick)]
      split_ifs with hfull
      · refine iff_of_false id fun hroom => ?_
        bv_omega
      · rw [ih (by bv_omega), hsucc, Nat.add_assoc, Nat.add_comm 1, and_iff_right hline]
    · simp [htick, hline, ih hn]

/-- The record keeps the line in an ALU at the tick. -/
def AccessRecord.Holds (p : Params) (record : AccessRecord) (line : Addr) (t : BitVec 64) : Prop :=
  record.lineAddr = line ∧ record.startTick ≤ t ∧
    t.toNat ≤ record.startTick.toNat + p.accessLatency.toNat

instance (record : AccessRecord) (line : Addr) (t : BitVec 64) :
    Decidable (record.Holds p line t) :=
  inferInstanceAs (Decidable (_ ∧ _))

/-- What is left in a sorted queue has not left the ALUs. -/
theorem young_of_mem_prune (hlat : p.accessLatency ≤ t)
    (hsorted : queue.Pairwise fun later earlier => earlier.startTick ≤ later.startTick)
    {record : AccessRecord} (hr : record ∈ prune p t queue) :
    t.toNat ≤ record.startTick.toNat + p.accessLatency.toNat := by
  induction queue using reverseRecOn with
  | nil => simp [prune] at hr
  | append_singleton queue last ih =>
    obtain ⟨hsorted, -, hlast⟩ := pairwise_append.mp hsorted
    rw [prune, rdropWhile_concat] at hr
    split_ifs at hr with hold
    · exact ih hsorted hr
    · rw [decide_eq_true_eq, BitVec.not_lt] at hold
      have hle : last.startTick ≤ record.startTick := by
        rcases mem_append.mp hr with hr | hr
        · exact hlast record hr last (mem_singleton_self last)
        · rw [mem_singleton.mp hr]
          exact BitVec.le_refl _
      bv_omega

/-- The second access of a line starts when the first one has left the ALU. -/
def Apart (p : Params) (later earlier : AccessRecord) : Prop :=
  later.lineAddr = earlier.lineAddr →
    earlier.startTick.toNat + p.accessLatency.toNat < later.startTick.toNat

/-- The reservations after `calls`. -/
structure Inv (p : Params) (calls : List Call) (s : State) : Prop where
  /-- Only old ones have left the queue. -/
  old : ∃ old, s.reserved = s.accessQueue ++ old ∧ ∀ record ∈ old, ∃ c ∈ calls,
    record.startTick.toNat + p.accessLatency.toNat < c.curTick.toNat
  sorted : s.reserved.Pairwise fun later earlier => earlier.startTick ≤ later.startTick
  apart : s.reserved.Pairwise (Apart p)
  called : ∀ record ∈ s.reserved, ∃ c ∈ calls, c.reserve = true ∧ c.line p = record.lineAddr ∧
    c.curTick = record.startTick
  bounded : ∀ t, s.reserved.countP (·.startTick = t) ≤ p.numALUs.toNat + 1
  /-- A call is refused if the tick is full or the line is in an ALU. -/
  refused : ∀ c ∈ calls, c.reserve = true →
    p.numALUs.toNat < s.reserved.countP (·.startTick = c.curTick) ∨
      ∃ record ∈ s.reserved, record.Holds p (c.line p) c.curTick

/-- What is pruned joins the old reservations. -/
theorem Inv.exists_old (h : Inv p calls s) (hle : ∀ c' ∈ calls, c'.curTick ≤ c.curTick)
    (hlat : p.accessLatency ≤ c.curTick) :
    ∃ old, s.reserved = prune p c.curTick s.accessQueue ++ old ∧ ∀ record ∈ old,
      record.startTick.toNat + p.accessLatency.toNat < c.curTick.toNat := by
  obtain ⟨old, hres, hold⟩ := h.old
  refine ⟨s.accessQueue.rtakeWhile
    (fun record => record.startTick < c.curTick - p.accessLatency) ++ old, ?_, ?_⟩
  · rw [prune, ← append_assoc, rdropWhile_append_rtakeWhile, hres]
  · intro record hr
    rcases mem_append.mp hr with hr | hr
    · have hlt := mem_rtakeWhile_imp hr
      rw [decide_eq_true_eq] at hlt
      bv_omega
    · obtain ⟨c', hc', hlt⟩ := hold record hr
      exact hlt.trans_le (hle c' hc')

theorem Inv.step (h : Inv p calls s) (hALUs : p.numALUs.toNat + 1 < 2 ^ 32)
    (hle : ∀ c' ∈ calls, c'.curTick ≤ c.curTick) (hlat : p.accessLatency ≤ c.curTick) :
    Inv p (calls ++ [c]) (s.step p c) := by
  obtain ⟨old, hres, hold⟩ := h.exists_old hle hlat
  have hmem : c ∈ calls ++ [c] := mem_append_right _ (mem_singleton_self c)
  have hold' : ∀ record ∈ old, ∃ c' ∈ calls ++ [c],
      record.startTick.toNat + p.accessLatency.toNat < c'.curTick.toNat :=
    fun record hr => ⟨c, hmem, hold record hr⟩
  have hcalled : ∀ record ∈ s.reserved, ∃ c' ∈ calls ++ [c], c'.reserve = true ∧
      c'.line p = record.lineAddr ∧ c'.curTick = record.startTick := by
    intro record hr
    obtain ⟨c', hc', heq⟩ := h.called record hr
    exact ⟨c', mem_append_left _ hc', heq⟩
  have hearlier : ∀ record ∈ s.reserved, record.startTick ≤ c.curTick := by
    intro record hr
    obtain ⟨c', hc', -, -, htick⟩ := h.called record hr
    exact htick ▸ hle c' hc'
  -- the records of this tick are all in the queue
  have hscan : scan p c.curTick (c.line p) (prune p c.curTick s.accessQueue) 0 = true ↔
      (∀ record ∈ prune p c.curTick s.accessQueue, record.lineAddr ≠ c.line p) ∧
        s.reserved.countP (·.startTick = c.curTick) ≤ p.numALUs.toNat := by
    have hzero : old.countP (·.startTick = c.curTick) = 0 := by
      refine countP_eq_zero.mpr fun record hr heq => ?_
      have := hold record hr
      rw [decide_eq_true_eq.mp heq] at this
      omega
    rw [scan_eq_true_iff hALUs (Nat.zero_le _), hres, countP_append, hzero]
    simp
  unfold State.step
  dsimp only
  split
  · rename_i hpass
    obtain ⟨hpass, hreserve⟩ := Bool.and_eq_true_iff.mp hpass
    obtain ⟨hne, hroom⟩ := hscan.mp hpass
    refine ⟨⟨old, by rw [cons_append, ← hres], hold'⟩, pairwise_cons.mpr ⟨hearlier, h.sorted⟩,
      pairwise_cons.mpr ⟨?_, h.apart⟩,
      forall_mem_cons.mpr ⟨⟨c, hmem, hreserve, rfl, rfl⟩, hcalled⟩, ?_, ?_⟩
    · intro record hr heq
      rw [hres] at hr
      rcases mem_append.mp hr with hr | hr
      · exact absurd heq.symm (hne record hr)
      · exact hold record hr
    · intro t
      rw [countP_cons]
      by_cases ht : c.curTick = t
      · subst ht
        simpa using hroom
      · simpa [ht] using h.bounded t
    · intro c' hc' hreserve'
      rcases mem_append.mp hc' with hc' | hc'
      · rw [countP_cons]
        refine (h.refused c' hc' hreserve').imp (fun hfull => by omega) ?_
        rintro ⟨record, hr, hholds⟩
        exact ⟨record, mem_cons_of_mem _ hr, hholds⟩
      · obtain rfl := mem_singleton.mp hc'
        exact .inr ⟨_, mem_cons_self, rfl, BitVec.le_refl _, Nat.le_add_right _ _⟩
  · rename_i hpass
    refine ⟨⟨old, hres, hold'⟩, h.sorted, h.apart, hcalled, h.bounded, ?_⟩
    intro c' hc' hreserve
    rcases mem_append.mp hc' with hc' | hc'
    · exact h.refused c' hc' hreserve
    obtain rfl := mem_singleton.mp hc'
    by_contra hno
    obtain ⟨hroom, hfree⟩ := not_or.mp hno
    refine hpass (Bool.and_eq_true_iff.mpr ⟨hscan.mpr ⟨?_, Nat.not_lt.mp hroom⟩, hreserve⟩)
    intro record hr heq
    have hr' : record ∈ s.reserved := hres ▸ mem_append_left _ hr
    obtain ⟨_, hqueue, -⟩ := h.old
    exact hfree ⟨record, hr', heq, hearlier record hr',
      young_of_mem_prune hlat (pairwise_append.mp (hqueue ▸ h.sorted)).1 hr⟩

theorem inv_run (hALUs : p.numALUs.toNat + 1 < 2 ^ 32)
    (hmono : calls.Pairwise fun c c' => c.curTick ≤ c'.curTick)
    (hlat : ∀ c ∈ calls, p.accessLatency ≤ c.curTick) : Inv p calls (run p calls) := by
  induction calls using reverseRecOn with
  | nil => exact ⟨⟨[], rfl, by simp⟩, .nil, .nil, by simp [run], by simp [run], by simp⟩
  | append_singleton calls c ih =>
    obtain ⟨hmono, -, hc⟩ := pairwise_append.mp hmono
    rw [run, foldl_append]
    refine (ih hmono fun c' hc' => hlat c' (mem_append_left _ hc')).step hALUs ?_ (hlat c (by simp))
    intro c' hc'
    exact hc c' hc' c (mem_singleton_self c)

variable (p calls t)

/-- The lines asked for at a tick that no reservation of an earlier tick has in an ALU. -/
def wanted : Finset Addr :=
  ((calls.filter fun c => c.curTick = t ∧ c.reserve).map (Call.line p)).toFinset.filter fun line =>
    ∀ record ∈ (run p calls).reserved, record.startTick < t → ¬ record.Holds p line t

/-- The lines that are reserved at a tick. -/
def reservedLines : List Addr :=
  ((run p calls).reserved.filter (·.startTick = t)).map (·.lineAddr)

variable {p calls t}

/-- The lines reserved at one tick are different. -/
theorem Inv.nodup (h : Inv p calls (run p calls)) :
    (reservedLines p calls t).Nodup := by
  refine pairwise_map.mpr ((h.apart.filter _).imp_of_mem ?_)
  intro a b ha hb hapart heq
  have := hapart heq
  simp only [mem_filter, decide_eq_true_eq] at ha hb
  rw [ha.2, hb.2] at this
  omega

/-- What is reserved was wanted. -/
theorem Inv.reserved_subset (h : Inv p calls (run p calls)) :
    (reservedLines p calls t).toFinset ⊆ wanted p calls t := by
  intro line hline
  simp only [reservedLines, mem_toFinset, mem_map, mem_filter, decide_eq_true_eq] at hline
  obtain ⟨record, ⟨hr, rfl⟩, rfl⟩ := hline
  obtain ⟨c, hc, hreserve, hline, htick⟩ := h.called record hr
  simp only [wanted, Finset.mem_filter, mem_toFinset, mem_map, mem_filter, decide_eq_true_eq]
  refine ⟨⟨c, ⟨hc, htick, hreserve⟩, hline⟩, ?_⟩
  rintro record' hr' hlt ⟨heq, -, hyoung⟩
  -- they are apart, in whichever order they stand
  have hapart : (run p calls).reserved.Pairwise fun a b =>
      b.lineAddr = a.lineAddr → b.startTick < a.startTick → Apart p a b :=
    h.apart.imp fun hab _ _ => hab
  have hflip : (run p calls).reserved.Pairwise (flip fun a b =>
      b.lineAddr = a.lineAddr → b.startTick < a.startTick → Apart p a b) := by
    refine h.apart.imp ?_
    intro a b hab heq hlt
    have := hab heq
    bv_omega
  have := hapart.forall_of_forall_of_flip (by simp) hflip hr hr' heq hlt heq.symm
  omega

/-- While the tick is not full, all that is wanted is reserved. -/
theorem Inv.wanted_subset (h : Inv p calls (run p calls))
    (hroom : (run p calls).reserved.countP (·.startTick = t) ≤ p.numALUs.toNat) :
    wanted p calls t ⊆ (reservedLines p calls t).toFinset := by
  intro line hline
  simp only [wanted, Finset.mem_filter, mem_toFinset, mem_map, mem_filter, decide_eq_true_eq]
    at hline
  obtain ⟨⟨c, ⟨hc, rfl, hreserve⟩, rfl⟩, hfree⟩ := hline
  rcases h.refused c hc hreserve with hfull | ⟨record, hr, hholds⟩
  · omega
  · have htick : record.startTick = c.curTick := by
      by_contra hne
      exact hfree record hr (BitVec.lt_of_le_ne hholds.2.1 hne) hholds
    simp only [reservedLines, mem_toFinset, mem_map, mem_filter, decide_eq_true_eq]
    exact ⟨record, ⟨hr, htick⟩, hholds.1⟩

/-- **The limits of the ALUs.** -/
theorem reservations_within_limits (p : Params) (hALUs : p.numALUs.toNat + 1 < 2 ^ 32)
    (calls : List Call) (hmono : calls.Pairwise fun c c' => c.curTick ≤ c'.curTick)
    (hlat : ∀ c ∈ calls, p.accessLatency ≤ c.curTick) :
    (∀ t, (run p calls).reserved.countP (·.startTick = t) ≤ p.numALUs.toNat + 1) ∧
      (∀ t, (run p calls).reserved.countP (·.startTick = t) ≤ p.numALUs.toNat ↔
        (wanted p calls t).card ≤ p.numALUs.toNat) ∧
      (run p calls).reserved.Pairwise (Apart p) := by
  have hinv := inv_run hALUs hmono hlat
  refine ⟨hinv.bounded, ?_, hinv.apart⟩
  intro t
  have hcard : (reservedLines p calls t).toFinset.card
      = (run p calls).reserved.countP (·.startTick = t) := by
    rw [toFinset_card_of_nodup (hinv.nodup), reservedLines, length_map, countP_eq_length_filter]
  constructor
  · intro hroom
    exact (Finset.card_le_card (hinv.wanted_subset hroom)).trans (hcard.trans_le hroom)
  · intro hwanted
    rw [← hcard]
    exact (Finset.card_le_card (hinv.reserved_subset)).trans hwanted

/-- With one ALU, a line that is still in it at tick 21, and another one at that tick. -/
theorem reservations_within_limits_oneALU :
    let calls : List Call := [⟨20, 0, true⟩, ⟨21, 0, true⟩, ⟨21, 64, true⟩]
    (wanted ⟨1, 10, 6⟩ calls 21).card ≤ 1 ∧
      (run ⟨1, 10, 6⟩ calls).reserved.countP (·.startTick = 21) ≤ 1 := by
  have hwanted : (wanted ⟨1, 10, 6⟩ [⟨20, 0, true⟩, ⟨21, 0, true⟩, ⟨21, 64, true⟩] 21).card ≤ 1 := by
    decide +kernel
  refine ⟨hwanted, ?_⟩
  exact ((reservations_within_limits ⟨1, 10, 6⟩ (by decide) _ (by decide) (by decide)).2.1 21).mpr
    hwanted

/-- With one ALU, two lines in tick 10 and one line twice in tick 3. -/
theorem limits_exceeded :
    (run ⟨1, 10, 6⟩ [⟨10, 0, true⟩, ⟨10, 64, true⟩]).reserved = [⟨64, 10⟩, ⟨0, 10⟩] ∧
      (run ⟨1, 10, 6⟩ [⟨3, 0, true⟩, ⟨3, 0, true⟩]).reserved = [⟨0, 3⟩, ⟨0, 3⟩] := by
  decide +kernel

end ALUFreeListArray
