/-
# The order of the ready list

`getNext` looks at the front of the ready list only, which is right if the list is sorted
by the times at which entries are ready.  Insertion keeps it sorted; `delay` changes the
time of an entry and leaves it where it is, so the list stays sorted exactly if no entry
behind it is ready earlier than the delayed one.
-/
import Gem5.MSHRQueueLists

open List Option

namespace MSHRQueue

open Queue

/-- Insertion before the first item with a larger key. -/
theorem pairwise_insert {α : Type*} (key : α → ℕ) (a : α) {l : List α}
    (h : l.Pairwise fun b c => key b ≤ key c) :
    (l.takeWhile (fun b => !decide (key a < key b)) ++
      a :: l.dropWhile fun b => !decide (key a < key b)).Pairwise fun b c => key b ≤ key c := by
  induction l with
  | nil => exact pairwise_singleton _ _
  | cons b l ih =>
    obtain ⟨hb, hl⟩ := pairwise_cons.mp h
    by_cases hlater : key a < key b
    · rw [takeWhile_cons_of_neg (by simpa using hlater),
        dropWhile_cons_of_neg (by simpa using hlater), nil_append, pairwise_cons]
      refine ⟨?_, h⟩
      intro c hc
      rcases mem_cons.mp hc with rfl | hc
      · exact hlater.le
      · exact hlater.le.trans (hb c hc)
    · rw [takeWhile_cons_of_pos (by simpa using hlater),
        dropWhile_cons_of_pos (by simpa using hlater), cons_append, pairwise_cons]
      refine ⟨?_, ih hl⟩
      intro c hc
      have hmem : c = a ∨ c ∈ l := by
        rw [← mem_cons, ← takeWhile_append_dropWhile (l := l)]
        exact perm_middle.mem_iff.mp hc
      rcases hmem with rfl | hc
      · exact Nat.not_lt.mp hlater
      · exact hb c hc

namespace Queue

variable {n : ℕ} {q q' : Queue n} {i : Fin n} {l : NodeList (Fin n)}

/-- Successive entries are ready one after the other. -/
def Sorted (q : Queue n) : Prop :=
  q.readyList.items.Pairwise fun i j => q.readyTime i ≤ q.readyTime j

/-- If an entry that waits is ready, `getNext` returns one that is. -/
def NextReady (q : Queue n) : Prop :=
  ∀ i ∈ q.allocatedList.items, (q.entries i).inService = false → q.readyTime i ≤ q.curTick →
    ∃ j ∈ q.allocatedList.items, q.getNext = some j ∧ (q.entries j).inService = false ∧
      q.readyTime j ≤ q.curTick

/-- No entry behind `i` is ready before `time`. -/
def InTime (q : Queue n) (i : Fin n) (time : ℕ) : Prop :=
  ∀ front behind, q.readyList.items = front ++ i :: behind → ∀ j ∈ behind, time ≤ q.readyTime j

/-- The operations that keep to the order: an entry is not moved to the front, and targets
are not dropped by force. -/
def OrderAllowed (q : Queue n) (a : Step n) : Prop :=
  q.Allowed a ∧ (∀ i, a ≠ .moveToFront i) ∧ ∀ i, a ≠ .forceDeallocateTarget i

/-! ## The front of the list -/

theorem Sorted.nextReady (hs : q.Sorted) (hq : q.Inv) : q.NextReady := by
  intro i hi hwait htime
  have hready := hq.mem_ready hi hwait
  cases hitems : q.readyList.items with
  | nil =>
    rw [hitems] at hready
    cases hready
  | cons front rest =>
    rw [Sorted, hitems] at hs
    rw [hitems] at hready
    have hfront : q.readyTime front ≤ q.curTick := by
      rcases mem_cons.mp hready with rfl | hrest
      · exact htime
      · exact ((pairwise_cons.mp hs).1 i hrest).trans htime
    obtain ⟨halloc, hfree⟩ := (hq.ready.mem front).mp (by rw [hitems]; exact mem_cons_self)
    refine ⟨front, halloc, ?_, hfree, hfront⟩
    rw [getNext, hitems]
    exact if_neg (Nat.not_lt.mpr hfront)

/-! ## Steps -/

theorem readyTime_setEntry_of_ne (q : Queue n) {j : Fin n} (m : MSHR) (h : j ≠ i) :
    (q.setEntry i m).readyTime j = q.readyTime j :=
  congrArg MSHR.readyTime (entries_setEntry_of_ne q m h)

/-- The order of entries other than `i` does not depend on `i`. -/
theorem pairwise_setEntry {l : List (Fin n)} (hi : i ∉ l) (m : MSHR) :
    (l.Pairwise fun j k => (q.setEntry i m).readyTime j ≤ (q.setEntry i m).readyTime k) ↔
      l.Pairwise fun j k => q.readyTime j ≤ q.readyTime k := by
  apply Pairwise.iff_of_mem
  intro j k hj hk
  have hji : j ≠ i := fun heq => hi (heq ▸ hj)
  have hki : k ≠ i := fun heq => hi (heq ▸ hk)
  rw [readyTime_setEntry_of_ne q m hji, readyTime_setEntry_of_ne q m hki]

section

variable (hs : q.Sorted)

include hs

/-- A sorted list with an entry put in before the first one that is ready later. -/
theorem Sorted.addToReadyList (h : q.addToReadyList i = some l) :
    l.items.Pairwise fun j k => q.readyTime j ≤ q.readyTime k := by
  rw [Queue.addToReadyList] at h
  split_ifs at h with hback hlater
  · cases h
    rw [NodeList.items_pushBack, pairwise_append]
    refine ⟨hs, pairwise_singleton _ _, ?_⟩
    intro j hj k hk
    rw [mem_singleton.mp hk]
    -- the last entry is the latest one
    cases hlast : q.readyList.items.getLast? with
    | none =>
      rw [getLast?_eq_none_iff.mp hlast] at hj
      cases hj
    | some back =>
      have hle : q.readyTime back ≤ q.readyTime i := by simpa [hlast] using hback
      obtain ⟨front, hitems⟩ := getLast?_eq_some_iff.mp hlast
      rw [Sorted, hitems, pairwise_append] at hs
      rw [hitems, mem_append, mem_singleton] at hj
      rcases hj with hj | rfl
      · exact (hs.2.2 j hj back (mem_singleton_self back)).trans hle
      · exact hle
  · cases h
    rw [NodeList.items_insertWhere_snd fun k => decide (q.readyTime i < q.readyTime k)]
    exact pairwise_insert q.readyTime i hs

/-- Putting an entry in that was not on the list. -/
theorem Sorted.insert (hi : i ∉ q.readyList.items) {m : MSHR}
    (h : (q.setEntry i m).addToReadyList i = some l) :
    l.items.Pairwise fun j k => (q.setEntry i m).readyTime j ≤ (q.setEntry i m).readyTime k :=
  Sorted.addToReadyList ((pairwise_setEntry hi m).mpr hs) h

/-- Taking an entry out. -/
theorem Sorted.remove (m : MSHR) (hi : i ∉ l.items) (hsub : l.items.Sublist q.readyList.items) :
    l.items.Pairwise fun j k => (q.setEntry i m).readyTime j ≤ (q.setEntry i m).readyTime k :=
  (pairwise_setEntry hi m).mpr (hs.sublist hsub)

theorem Sorted.allocate (hq : q.Inv) {blkSize : ℕ} {pkt : Packet} {whenReady order : ℕ}
    {allocOnFill : Bool} (h : q.allocate blkSize pkt whenReady order allocOnFill = some (q', i)) :
    q'.Sorted := by
  rw [Queue.allocate] at h
  split at h
  · cases h
  · rename_i j freeList hfree
    split_ifs at h
    obtain ⟨l, hl, heq⟩ := map_eq_some_iff.mp h
    cases heq
    have hnew : i ∉ q.readyList.items := by
      intro hready
      have halloc := ((hq.ready.mem i).mp hready).1
      exact (hq.alloc.mem_free i).mp (by rw [hfree]; exact mem_cons_self) halloc
    exact Sorted.insert hs hnew hl

theorem Sorted.deallocate (hq : q.Inv) (hi : i ∈ q.allocatedList.items)
    (h : q.deallocate i = some q') : q'.Sorted := by
  obtain ⟨l, hl, -, hsub, hmem, -⟩ := hq.readyWithout_eq hi
  rw [Queue.deallocate, hl] at h
  simp only [bind_eq_bind, bind_eq_some_iff, some.injEq] at h
  obtain ⟨allocatedList, -, l', rfl, m, -, rfl⟩ := h
  exact hs.remove m (fun hi => ((hmem i).mp hi).2 rfl) hsub

theorem Sorted.markInService (hq : q.Inv) (hi : i ∈ q.allocatedList.items)
    (hwait : (q.entries i).inService = false) (h : q.markInService i = some q') : q'.Sorted := by
  obtain ⟨l, hl, -, hsub, hmem, -⟩ := hq.readyWithout_eq hi
  rw [readyWithout, hwait] at hl
  rw [Queue.markInService, MSHR.markInService, hwait] at h
  simp only [Bool.false_eq_true, if_false, bind_eq_bind, bind_some] at h hl
  rw [hl] at h
  cases h
  exact hs.remove _ (fun hi => ((hmem i).mp hi).2 rfl) hsub

theorem Sorted.markPending (hq : q.Inv) (hserved : (q.entries i).inService = true)
    (h : q.markPending i = some q') : q'.Sorted := by
  rw [Queue.markPending, hserved] at h
  obtain ⟨l, hl, rfl⟩ := map_eq_some_iff.mp h
  refine Sorted.insert hs ?_ hl
  intro hready
  have hwait := ((hq.ready.mem i).mp hready).2
  rw [hserved] at hwait
  cases hwait

/-- A delay keeps the order exactly if no entry behind is ready earlier. -/
theorem Sorted.delay_iff (hq : q.Inv) (hi : i ∈ q.allocatedList.items)
    (hwait : (q.entries i).inService = false) (htime : q.readyTime i ≤ q.curTick) {ticks : ℕ}
    (h : q.delay i ticks = some q') : q'.Sorted ↔ q.InTime i (q.curTick + ticks) := by
  rw [hq.delay_eq hi hwait htime] at h
  cases h
  set m : MSHR := { q.entries i with readyTime := q.curTick + ticks } with hm
  have hself : (q.setEntry i m).readyTime i = q.curTick + ticks :=
    congrArg MSHR.readyTime (entries_setEntry_self q i m)
  obtain ⟨front, behind, hitems⟩ := append_of_mem (hq.mem_ready hi hwait)
  have hnodup := hq.ready.nodup
  rw [hitems, nodup_append, nodup_cons] at hnodup
  have hfront : i ∉ front := fun hmem => hnodup.2.2 i hmem i mem_cons_self rfl
  have hbehind : i ∉ behind := hnodup.2.1.1
  rw [Sorted, hitems, pairwise_append, pairwise_cons] at hs
  constructor
  · intro hs' front' behind' hitems' j hj
    have hs'' : (q.readyList.items).Pairwise
        fun j k => (q.setEntry i m).readyTime j ≤ (q.setEntry i m).readyTime k := hs'
    have hnodup' := hq.ready.nodup
    rw [hitems', nodup_append, nodup_cons] at hnodup'
    have hne : j ≠ i := fun heq => hnodup'.2.1.1 (heq ▸ hj)
    rw [hitems', pairwise_append, pairwise_cons] at hs''
    have hle := hs''.2.1.1 j hj
    rwa [hself, readyTime_setEntry_of_ne q m hne] at hle
  · intro hin
    show (q.readyList.items).Pairwise
      fun j k => (q.setEntry i m).readyTime j ≤ (q.setEntry i m).readyTime k
    rw [hitems, pairwise_append, pairwise_cons]
    refine ⟨(pairwise_setEntry hfront m).mpr hs.1, ⟨?_, (pairwise_setEntry hbehind m).mpr hs.2.1.2⟩, ?_⟩
    · intro j hj
      have hne : j ≠ i := fun heq => hbehind (heq ▸ hj)
      rw [hself, readyTime_setEntry_of_ne q m hne]
      exact hin front behind hitems j hj
    · intro j hj k hk
      have hne : j ≠ i := fun heq => hfront (heq ▸ hj)
      rw [readyTime_setEntry_of_ne q m hne]
      rcases mem_cons.mp hk with rfl | hk
      · -- what is in front was ready before the entry was, and the entry is ready by now
        have hle := hs.2.2 j hj k mem_cons_self
        omega
      · have hne' : k ≠ i := fun heq => hbehind (heq ▸ hk)
        rw [readyTime_setEntry_of_ne q m hne']
        exact hs.2.2 j hj k (mem_cons_of_mem i hk)

/-- Changes of targets leave the times alone. -/
theorem Sorted.setEntry {m : MSHR} (hm : m.readyTime = q.readyTime i) :
    (q.setEntry i m).Sorted := by
  have hsame : (q.setEntry i m).readyTime = q.readyTime := by
    funext j
    rcases eq_or_ne j i with rfl | hne
    · rw [readyTime, entries_setEntry_self, hm]
    · exact readyTime_setEntry_of_ne q m hne
  rw [Sorted, hsame]
  exact hs

end

/-- What a step has to meet to keep the order. -/
def KeepsOrder (q : Queue n) (a : Step n) : Prop :=
  ∀ i ticks, a = .delay i ticks → q.InTime i (q.curTick + ticks)

/-- **A step keeps the order** exactly if it does not delay an entry beyond one behind it. -/
theorem Sorted.step_iff (hs : q.Sorted) (hq : q.Inv) {a : Step n} (ha : q.OrderAllowed a)
    (h : q.step a = some q') : q'.Sorted ↔ q.KeepsOrder a := by
  obtain ⟨⟨hassert, hready⟩, hfront, hforce⟩ := ha
  have hother : (∀ i ticks, a ≠ .delay i ticks) → q.KeepsOrder a :=
    fun hne i ticks heq => absurd heq (hne i ticks)
  cases a with
  | allocate blkSize pkt whenReady order allocOnFill =>
    obtain ⟨⟨q'', i⟩, hstep, rfl⟩ := map_eq_some_iff.mp h
    exact iff_of_true (hs.allocate hq hstep) (hother nofun)
  | deallocate i => exact iff_of_true (hs.deallocate hq hassert.1 h) (hother nofun)
  | markInService i => exact iff_of_true (hs.markInService hq hassert.1 hassert.2 h) (hother nofun)
  | markPending i => exact iff_of_true (hs.markPending hq hassert.2 h) (hother nofun)
  | delay i ticks =>
    rw [hs.delay_iff hq hassert.1 (hready i ticks rfl) hassert.2 h]
    constructor
    · intro hin j ticks' heq
      cases heq
      exact hin
    · intro hkeep
      exact hkeep i ticks rfl
  | moveToFront i => exact absurd rfl (hfront i)
  | forceDeallocateTarget i => exact absurd rfl (hforce i)
  | advance ticks =>
    cases h
    exact iff_of_true hs (hother nofun)
  | allocateTarget i deferred t =>
    cases h
    refine iff_of_true (hs.setEntry ?_) (hother nofun)
    cases deferred <;> rfl
  | extractServiceableTargets i rest =>
    cases h
    exact iff_of_true (hs.setEntry rfl) (hother nofun)
  | promoteDeferredTargets i =>
    obtain ⟨r, -, rfl⟩ := map_eq_some_iff.mp h
    refine iff_of_true ((pairwise_setEntry ?_ r.2).mpr hs) (hother nofun)
    -- the entry is in service, and not on the list
    intro hmem
    have hwait := ((hq.ready.mem i).mp hmem).2
    rw [hassert.2] at hwait
    cases hwait

end Queue

/-! ## Runs -/

/-- **The ready list is sorted in all states of a run**, and `getNext` finds an entry that
is ready, exactly if no step delays an entry beyond one behind it. -/
theorem run_sorted_iff (numEntries reserve : ℕ) {as : List (Step (numEntries + reserve))}
    (hallowed : AllowedSteps Queue.step Queue.OrderAllowed (Queue.new numEntries reserve) as) :
    (∀ pre q, pre <+: as → runSteps Queue.step (Queue.new numEntries reserve) pre = some q →
        q.Sorted ∧ q.NextReady) ↔ ∀ pre i ticks q, pre ++ [.delay i ticks] <+: as →
        runSteps Queue.step (Queue.new numEntries reserve) pre = some q →
          q.InTime i (q.curTick + ticks) := by
  have hinv : ∀ pre q, pre <+: as →
      runSteps step (new numEntries reserve) pre = some q → q.Inv := by
    intro pre q hpre hrun
    have hpre' := (hallowed.of_prefix hpre).mono fun _ _ ha => ha.1
    obtain ⟨q', hrun', hq'⟩ := AllowedSteps.run (fun _ _ hq ha => Inv.step hq ha)
      (inv_new numEntries reserve) hpre'
    obtain rfl := some.inj (hrun.symm.trans hrun')
    exact hq'
  have hiff : (∀ pre q, pre <+: as →
      runSteps step (new numEntries reserve) pre = some q → q.Inv ∧ q.Sorted) ↔
      ∀ pre a q q', pre ++ [a] <+: as →
        runSteps step (new numEntries reserve) pre = some q → q.step a = some q' →
          q.KeepsOrder a := by
    refine runSteps_prefix_iff_of_allowed ?_
      ⟨inv_new numEntries reserve, Pairwise.nil⟩ fun pre a t => hallowed.next
    intro q a q' hI ha hstep
    obtain ⟨q'', hstep', hinv'⟩ := hI.1.step ha.1
    obtain rfl := some.inj (hstep.symm.trans hstep')
    rw [and_iff_right hinv']
    exact hI.2.step_iff hI.1 ha hstep
  constructor
  · intro hall pre i ticks q hpre hrun
    have hI := hiff.mp fun pre q hpre hrun => ⟨hinv pre q hpre hrun, (hall pre q hpre hrun).1⟩
    obtain ⟨q', hstep, -⟩ := (hinv pre q ((prefix_append _ _).trans hpre) hrun).step
      (hallowed.next hpre hrun).1
    exact hI pre _ q q' hpre hrun hstep i ticks rfl
  · intro hok pre q hpre hrun
    have hI := hiff.mpr (by
      rintro pre a t t' hpre hrun - i ticks rfl
      exact hok pre i ticks t hpre hrun) pre q hpre hrun
    exact ⟨hI.2, hI.2.nextReady hI.1⟩

/-- Delaying the first of two entries, but not beyond the second. -/
theorem run_sorted_delay : ∃ q, runSteps Queue.step (Queue.new 2 0)
      [.allocate 64 readReq 0 0 true, .allocate 64 readReq 10 1 true, .delay 0 5] = some q ∧
    q.Sorted ∧ q.NextReady := by
  obtain ⟨q, hq⟩ : ∃ q, runSteps step (new 2 0)
      [.allocate 64 readReq 0 0 true, .allocate 64 readReq 10 1 true, .delay 0 5] = some q :=
    ⟨_, rfl⟩
  refine ⟨q, hq, (run_sorted_iff 2 0 ?_).mpr ?_ _ q prefix_rfl hq⟩
  · refine .cons ⟨⟨rfl, nofun⟩, nofun, nofun⟩ rfl (.cons ⟨⟨rfl, nofun⟩, nofun, nofun⟩ rfl ?_)
    refine .cons ⟨⟨⟨by decide, Nat.le_refl 0⟩, ?_⟩, nofun, nofun⟩ rfl trivial
    rintro i ticks h
    cases h
    rfl
  · rintro pre i ticks q hpre hrun front behind hitems j hj
    obtain ⟨rest, hrest⟩ := hpre
    rcases pre with _ | ⟨a, _ | ⟨b, _ | ⟨c, pre⟩⟩⟩
    · exact absurd (cons.inj hrest).1 nofun
    · exact absurd (cons.inj (cons.inj hrest).2).1 nofun
    · cases hrest
      obtain rfl := some.inj hrun
      replace hitems : [0, 1] = front ++ 0 :: behind := hitems
      -- only the second entry is behind the first
      rcases front with _ | ⟨x, _ | ⟨y, front⟩⟩
      · cases hitems
        obtain rfl := mem_singleton.mp hj
        decide
      · exact absurd hitems (by simp)
      · exact absurd (congrArg length hitems) (by simp)
    · have hlen := congrArg length hrest
      simp only [length_append, length_cons] at hlen
      omega

/-- The entry that is delayed hides the one behind it. -/
theorem delay_hides_ready_entry : ∃ q, AllowedSteps Queue.step Queue.OrderAllowed (Queue.new 2 0)
        [.allocate 64 readReq 0 0 true, .allocate 64 readReq 5 1 true, .delay 0 100, .advance 10] ∧
      runSteps Queue.step (Queue.new 2 0)
        [.allocate 64 readReq 0 0 true, .allocate 64 readReq 5 1 true, .delay 0 100,
          .advance 10] = some q ∧
      ¬ q.Sorted ∧ 1 ∈ q.allocatedList.items ∧ (q.entries 1).inService = false ∧
      q.readyTime 1 ≤ q.curTick ∧ q.getNext = none := by
  refine ⟨_, ?_, rfl, ?_, by decide, rfl, by decide, rfl⟩
  · refine .cons ⟨⟨rfl, nofun⟩, nofun, nofun⟩ rfl (.cons ⟨⟨rfl, nofun⟩, nofun, nofun⟩ rfl ?_)
    refine .cons ⟨⟨⟨by decide, Nat.le_refl 0⟩, ?_⟩, nofun, nofun⟩ rfl ?_
    · rintro i ticks h
      cases h
      rfl
    exact .cons ⟨⟨trivial, nofun⟩, nofun, nofun⟩ rfl trivial
  · intro hs
    have hle : (100 : ℕ) ≤ 5 := (pairwise_cons.mp hs).1 1 (mem_cons_self)
    omega

end MSHRQueue
