/-
# Futexes

`sim/futex_map.cc`: for every futex with waiters a list of them, and the set of all threads
that wait.  The lists are FIFO queues: a thread that is suspended or requeued joins at the end,
and `wakeup` and `requeue` wake the threads at the front.

`wakeup` takes the thread out of the set through a reference to the list element it has
already removed; the model lets it read the old value.
-/
import Gem5.Bitfield
import Gem5.FifoQueues
import Gem5.Run

open Function List Option
open FifoQueues

namespace FutexMap

structure FutexKey where
  addr : Addr
  tgid : BitVec 64
  deriving DecidableEq

/-- A thread context. -/
abbrev ThreadId := ℕ

structure WaiterState where
  tc : ThreadId
  bitmask : BitVec 32
  deriving DecidableEq

def WaiterState.checkMask (w : WaiterState) (wakeupBitmask : BitVec 32) : Bool :=
  w.bitmask &&& wakeupBitmask != 0

end FutexMap

open FutexMap in
structure FutexMap where
  /-- The hash map. -/
  find : FutexKey → Option (List WaiterState)
  waitingTcs : Finset ThreadId

namespace FutexMap

/-- What a call returns and does: the threads it activates, in order, and those it puts at
the end of a queue. -/
structure Result where
  map : FutexMap
  woken : List ThreadId
  joined : List ThreadId
  returned : ℤ

/-- `while (!waiterList.empty() && n < count)`: the waiters that are taken off the front, the
others, and the final `n`. -/
def popLoop (count : ℤ) : ℤ → List WaiterState → List WaiterState × List WaiterState × ℤ
  | n, [] => ([], [], n)
  | n, w :: waiters =>
    if n < count then
      let (popped, rest, n) := popLoop count (n + 1) waiters
      (w :: popped, rest, n)
    else ([], w :: waiters, n)

/-- `if (waiterList.empty()) erase(it)`. -/
def eraseIfEmpty (find : FutexKey → Option (List WaiterState)) (key : FutexKey) :
    FutexKey → Option (List WaiterState) :=
  if find key = some [] then update find key none else find

variable (s : FutexMap)

def isWaiting (tc : ThreadId) : Bool := tc ∈ s.waitingTcs

variable (addr : Addr) (tgid : BitVec 64)

def suspendBitset (tc : ThreadId) (bitmask : BitVec 32) : Result :=
  let key : FutexKey := ⟨addr, tgid⟩
  let waiters :=
    match s.find key with
    | none => [⟨tc, bitmask⟩]
    | some waiters => waiters ++ [⟨tc, bitmask⟩]
  ⟨⟨update s.find key (some waiters), insert tc s.waitingTcs⟩, [], [tc], 0⟩

def suspend (tc : ThreadId) : Result :=
  s.suspendBitset addr tgid tc 0xffffffff

/-- The end of the two calls that only wake waiters. -/
def wake (key : FutexKey) (woken rest : List WaiterState) (wokenUp : ℤ) : Result :=
  ⟨⟨eraseIfEmpty (update s.find key (some rest)) key,
    s.waitingTcs \ (woken.map (·.tc)).toFinset⟩, woken.map (·.tc), [], wokenUp⟩

def wakeup (count : ℤ) : Result :=
  let key : FutexKey := ⟨addr, tgid⟩
  match s.find key with
  | none => ⟨s, [], [], 0⟩
  | some waiters =>
    let (woken, rest, wokenUp) := popLoop count 0 waiters
    s.wake key woken rest wokenUp

def wakeupBitset (bitmask : BitVec 32) : Result :=
  let key : FutexKey := ⟨addr, tgid⟩
  match s.find key with
  | none => ⟨s, [], [], 0⟩
  | some waiters =>
    let woken := waiters.filter (·.checkMask bitmask)
    let rest := waiters.filter (!·.checkMask bitmask)
    s.wake key woken rest woken.length

/-- Put waiters at the end of a queue, or in a new one if there are some.  Without a queue and
without waiters the missing queue is used. -/
def insertAll (find : FutexKey → Option (List WaiterState)) (key : FutexKey)
    (tmpList : List WaiterState) (requeued : ℤ) : Option (FutexKey → Option (List WaiterState)) :=
  match find key with
  | none => if 0 < requeued then some (update find key (some tmpList)) else none
  | some waiters => some (update find key (some (waiters ++ tmpList)))

def requeue (addr1 : Addr) (tgid : BitVec 64) (count count2 : ℤ) (addr2 : Addr) : Option Result :=
  let key1 : FutexKey := ⟨addr1, tgid⟩
  match s.find key1 with
  | none => some ⟨s, [], [], 0⟩
  | some waiters =>
    let (woken, rest, wokenUp) := popLoop count 0 waiters
    let (tmpList, rest, requeued) := popLoop count2 0 rest
    let key2 : FutexKey := ⟨addr2, tgid⟩
    (insertAll (update s.find key1 (some rest)) key2 tmpList requeued).map fun find =>
      ⟨⟨eraseIfEmpty find key1, s.waitingTcs⟩, woken.map (·.tc), tmpList.map (·.tc),
        wokenUp + requeued⟩

/-! ## Calls -/

inductive Call
  | suspend (addr : Addr) (tgid : BitVec 64) (tc : ThreadId)
  | suspendBitset (addr : Addr) (tgid : BitVec 64) (tc : ThreadId) (bitmask : BitVec 32)
  | wakeup (addr : Addr) (tgid : BitVec 64) (count : ℤ)
  | wakeupBitset (addr : Addr) (tgid : BitVec 64) (bitmask : BitVec 32)
  | requeue (addr1 : Addr) (tgid : BitVec 64) (count count2 : ℤ) (addr2 : Addr)

def call : Call → Option Result
  | .suspend addr tgid tc => some (s.suspend addr tgid tc)
  | .suspendBitset addr tgid tc bitmask => some (s.suspendBitset addr tgid tc bitmask)
  | .wakeup addr tgid count => some (s.wakeup addr tgid count)
  | .wakeupBitset addr tgid bitmask => some (s.wakeupBitset addr tgid bitmask)
  | .requeue addr1 tgid count count2 addr2 => s.requeue addr1 tgid count count2 addr2

/-- The waiters of a futex. -/
def queue (key : FutexKey) : List WaiterState := (s.find key).getD []

/-- The threads that wait for a futex. -/
def threads (key : FutexKey) : List ThreadId := (s.queue key).map (·.tc)

/-! ## What the calls are for -/

variable (q : FutexKey → List WaiterState)

/-- The waiters a call is to wake. -/
def wokenBy : Call → List WaiterState
  | .suspend _ _ _ | .suspendBitset _ _ _ _ => []
  | .wakeup addr tgid count => (q ⟨addr, tgid⟩).take count.toNat
  | .wakeupBitset addr tgid bitmask => (q ⟨addr, tgid⟩).filter (·.checkMask bitmask)
  | .requeue addr1 tgid count _ _ => (q ⟨addr1, tgid⟩).take count.toNat

/-- The waiters a call is to move to another queue. -/
def movedBy : Call → List WaiterState
  | .requeue addr1 tgid count count2 _ => ((q ⟨addr1, tgid⟩).drop count.toNat).take count2.toNat
  | _ => []

/-- The queues after a call. -/
def next : Call → FutexKey → List WaiterState
  | .suspend addr tgid tc =>
    update q ⟨addr, tgid⟩ (q ⟨addr, tgid⟩ ++ [⟨tc, 0xffffffff⟩])
  | .suspendBitset addr tgid tc bitmask =>
    update q ⟨addr, tgid⟩ (q ⟨addr, tgid⟩ ++ [⟨tc, bitmask⟩])
  | .wakeup addr tgid count => update q ⟨addr, tgid⟩ ((q ⟨addr, tgid⟩).drop count.toNat)
  | .wakeupBitset addr tgid bitmask =>
    update q ⟨addr, tgid⟩ ((q ⟨addr, tgid⟩).filter (!·.checkMask bitmask))
  | .requeue addr1 tgid count count2 addr2 =>
    let rest := ((q ⟨addr1, tgid⟩).drop count.toNat).drop count2.toNat
    let left := update q ⟨addr1, tgid⟩ rest
    update left ⟨addr2, tgid⟩
      (left ⟨addr2, tgid⟩ ++ movedBy q (.requeue addr1 tgid count count2 addr2))

/-! ## Observed futexes -/

/-- The futexes, with the time at which each thread joined its queue. -/
structure Observed where
  map : FutexMap
  since : ThreadId → ℕ
  clock : ℕ

namespace Observed

def init : Observed := ⟨⟨fun _ => none, ∅⟩, fun _ => 0, 0⟩

variable (t : Observed)

def after (r : Result) : Observed :=
  ⟨r.map, stamp t.since t.clock r.joined, t.clock + r.joined.length⟩

def step (c : Call) : Option Observed := (t.map.call c).map t.after

/-- No thread waits twice and the queues are in the order of arrival; no empty list is
stored; the set has the threads of the queues. -/
structure Inv (t : Observed) : Prop where
  fifo : Fifo t.since t.clock t.map.threads
  noEmpty : ∀ key, t.map.find key ≠ some []
  waiting : ∀ tc, t.map.isWaiting tc ↔ ∃ key, tc ∈ t.map.threads key

/-- The woken threads have waited longer than those that stay. -/
def OldestFirst : Call → Prop
  | .wakeup addr tgid count | .requeue addr tgid count _ _ =>
    ∀ v ∈ (t.map.queue ⟨addr, tgid⟩).take count.toNat,
      ∀ w ∈ (t.map.queue ⟨addr, tgid⟩).drop count.toNat, t.since v.tc < t.since w.tc
  | _ => True

/-- The call succeeds, does what it is for, and keeps the books. -/
def Correct (c : Call) : Prop :=
  ∃ r, t.map.call c = some r ∧ (t.after r).Inv ∧ r.map.queue = next t.map.queue c ∧
    r.woken = (wokenBy t.map.queue c).map (·.tc) ∧
    r.returned = (wokenBy t.map.queue c).length + (movedBy t.map.queue c).length ∧
    t.OldestFirst c

/-- Counts are not negative, and only a thread that does not wait is suspended. -/
def Usage : Call → Prop
  | .suspend _ _ tc | .suspendBitset _ _ tc _ => ∀ key, tc ∉ t.map.threads key
  | .wakeup _ _ count => 0 ≤ count
  | .wakeupBitset _ _ _ => True
  | .requeue _ _ count count2 _ => 0 ≤ count ∧ 0 ≤ count2

/-- `requeue` finds no waiters, or wakes none of them and has a second queue or something to
put in a new one. -/
def RequeueSafe : Call → Prop
  | .requeue addr1 tgid count count2 addr2 =>
    t.map.find ⟨addr1, tgid⟩ = none ∨
      count = 0 ∧ (0 < count2 ∨ t.map.find ⟨addr2, tgid⟩ ≠ none)
  | _ => True

instance : (c : Call) → Decidable (t.RequeueSafe c)
  | .requeue _ _ _ _ _ => inferInstanceAs (Decidable (_ ∨ _))
  | .suspend _ _ _ | .suspendBitset _ _ _ _ | .wakeup _ _ _ | .wakeupBitset _ _ _ => isTrue trivial

end Observed

/-! ## The queues -/

theorem popLoop_eq {count n : ℤ} (h : n ≤ count) (waiters : List WaiterState) :
    popLoop count n waiters = (waiters.take (count - n).toNat, waiters.drop (count - n).toNat,
        n + (waiters.take (count - n).toNat).length) := by
  induction waiters generalizing n with
  | nil => simp [popLoop]
  | cons w waiters ih =>
    rw [popLoop]
    by_cases hlt : n < count
    · have hsucc : (count - n).toNat = (count - (n + 1)).toNat + 1 := by omega
      rw [if_pos hlt, ih (by omega), hsucc]
      simp only [take_succ_cons, drop_succ_cons, length_cons, Prod.mk.injEq, true_and]
      push_cast
      ring
    · have hzero : (count - n).toNat = 0 := by omega
      rw [if_neg hlt, hzero]
      simp

theorem popLoop_zero {count : ℤ} (h : 0 ≤ count) (waiters : List WaiterState) :
    popLoop count 0 waiters = (waiters.take count.toNat, waiters.drop count.toNat,
        ((waiters.take count.toNat).length : ℤ)) := by
  rw [popLoop_eq h, sub_zero, zero_add]

section Find

variable {find : FutexKey → Option (List WaiterState)} {key : FutexKey} {l : List WaiterState}

theorem getD_eraseIfEmpty (k : FutexKey) :
    (eraseIfEmpty find key k).getD [] = (find k).getD [] := by
  unfold eraseIfEmpty
  split
  · rename_i hempty
    by_cases hk : k = key
    · rw [hk, update_self, hempty]
      rfl
    · rw [update_of_ne hk]
  · rfl

theorem eraseIfEmpty_ne (h : ∀ k, k ≠ key → find k ≠ some []) (k : FutexKey) :
    eraseIfEmpty find key k ≠ some [] := by
  unfold eraseIfEmpty
  split
  · exact (forall_update_iff find fun _ waiters => waiters ≠ some []).mpr ⟨by simp, h⟩ k
  · by_cases hk : k = key
    · rwa [hk]
    · exact h k hk

theorem getD_update (k : FutexKey) : (update find key (some l) k).getD [] =
      update (fun k => (find k).getD []) key l k := by
  exact apply_update (fun _ waiters => waiters.getD []) find key (some l) k

end Find

theorem threads_of_queue {s : FutexMap} {q : FutexKey → List WaiterState} (h : s.queue = q) :
    s.threads = fun key => (q key).map (·.tc) := by
  rw [← h]
  rfl

namespace Observed

variable {t : Observed} {key : FutexKey} {tc : ThreadId} {c : Call}

theorem queue_of_none {s : FutexMap} (h : s.find key = none) : s.queue key = [] := by
  rw [queue, h]
  rfl

theorem queue_of_some {s : FutexMap} {waiters : List WaiterState} (h : s.find key = some waiters) :
    s.queue key = waiters := by
  rw [queue, h]
  rfl

theorem queue_wake (s : FutexMap) (key : FutexKey) (woken rest : List WaiterState) (n : ℤ) :
    (s.wake key woken rest n).map.queue = update s.queue key rest := by
  funext k
  rw [wake, queue, getD_eraseIfEmpty, getD_update]
  rfl

section Update

variable {q : FutexKey → List WaiterState} {front rest : List WaiterState}

theorem sublist_update (h : rest.Sublist (q key)) (k : FutexKey) :
    (update q key rest k).Sublist (q k) := by
  exact (forall_update_iff q fun k waiters => waiters.Sublist (q k)).mpr
    ⟨h, fun k _ => .refl _⟩ k

theorem exists_mem_iff (q : FutexKey → List WaiterState) (key : FutexKey) (tc : ThreadId) :
    (∃ k, tc ∈ (q k).map (·.tc)) ↔
      tc ∈ (q key).map (·.tc) ∨ ∃ k, k ≠ key ∧ tc ∈ (q k).map (·.tc) := by
  conv_lhs => rw [← update_eq_self key q]
  exact exists_update_iff q fun _ waiters => tc ∈ waiters.map (·.tc)

/-- The threads of the queues after some have joined. -/
theorem exists_mem_update (q : FutexKey → List WaiterState) (key : FutexKey)
    (joined : List WaiterState) (tc : ThreadId) :
    (∃ k, tc ∈ (update q key (q key ++ joined) k).map (·.tc)) ↔
      (∃ k, tc ∈ (q k).map (·.tc)) ∨ tc ∈ joined.map (·.tc) := by
  rw [exists_update_iff q fun _ waiters => tc ∈ waiters.map (·.tc), exists_mem_iff q key,
    map_append, mem_append]
  exact or_right_comm

/-- A queue loses some of its waiters. -/
theorem exists_mem_front (hparts : (front ++ rest).Perm (q key)) (tc : ThreadId) :
    (∃ k, tc ∈ (q k).map (·.tc)) ↔
      (∃ k, tc ∈ (update q key rest k).map (·.tc)) ∨ tc ∈ front.map (·.tc) := by
  rw [exists_update_iff q fun _ waiters => tc ∈ waiters.map (·.tc), exists_mem_iff q key,
    ← (hparts.map _).mem_iff, map_append, mem_append]
  exact or_assoc.trans or_comm

/-- What leaves a queue is in no queue. -/
theorem Inv.not_mem_of_front (h : t.Inv) (hparts : (front ++ rest).Perm (t.map.queue key))
    (htc : tc ∈ front.map (·.tc)) (k : FutexKey) :
    tc ∉ (update t.map.queue key rest k).map (·.tc) := by
  have hnodup := (hparts.map _).nodup_iff.mpr (h.fifo.nodup key)
  rw [map_append] at hnodup
  intro hk
  by_cases heq : k = key
  · subst heq
    rw [update_self] at hk
    exact disjoint_of_nodup_append hnodup htc hk
  · rw [update_of_ne heq] at hk
    refine heq (h.fifo.once hk ((hparts.map _).mem_iff.mp ?_))
    rw [map_append]
    exact mem_append_left _ htc

/-- Some waiters of a queue are woken, and taken out of the set. -/
theorem Inv.wake (h : t.Inv) (hparts : (front ++ rest).Perm (t.map.queue key))
    (hrest : rest.Sublist (t.map.queue key)) (n : ℤ) :
    Inv ⟨(t.map.wake key front rest n).map, t.since, t.clock⟩ := by
  have hqueue := queue_wake t.map key front rest n
  refine ⟨h.fifo.sublist fun k => ?_, ?_, ?_⟩
  · rw [threads_of_queue hqueue]
    exact (sublist_update hrest k).map _
  · refine eraseIfEmpty_ne fun k hk => ?_
    rw [update_of_ne hk]
    exact h.noEmpty k
  · intro tc
    have hset : (t.map.wake key front rest n).map.isWaiting tc = true ↔
        t.map.isWaiting tc = true ∧ tc ∉ front.map (·.tc) := by
      simp [isWaiting, FutexMap.wake]
    have hwaits := (h.waiting tc).trans (exists_mem_front hparts tc)
    rw [hset, hwaits, threads_of_queue hqueue]
    constructor
    · rintro ⟨hmem, hfront⟩
      exact hmem.resolve_right hfront
    · rintro ⟨k, hk⟩
      -- a woken thread is in no queue any more
      exact ⟨.inl ⟨k, hk⟩, fun hfront => h.not_mem_of_front hparts hfront k hk⟩

end Update

/-- A call that only wakes waiters. -/
theorem Inv.correct_of_wake (h : t.Inv) {woken rest : List WaiterState}
    (hparts : (woken ++ rest).Perm (t.map.queue key)) (hrest : rest.Sublist (t.map.queue key))
    (hcall : t.map.call c = some (if (t.map.find key).isNone then ⟨t.map, [], [], 0⟩
      else t.map.wake key woken rest woken.length))
    (hnext : next t.map.queue c = update t.map.queue key rest)
    (hwoken : wokenBy t.map.queue c = woken) (hmoved : movedBy t.map.queue c = [])
    (holdest : t.OldestFirst c) : t.Correct c := by
  cases hfind : t.map.find key with
  | none =>
    have hempty := queue_of_none hfind
    rw [hempty] at hparts
    obtain ⟨rfl, rfl⟩ := append_eq_nil_iff.mp hparts.eq_nil
    rw [hfind] at hcall
    refine ⟨_, hcall, ?_, ?_, ?_, ?_, holdest⟩
    · exact h
    · rw [hnext, ← hempty, update_eq_self]
      rfl
    · rw [hwoken]
      rfl
    · rw [hwoken, hmoved]
      rfl
  | some waiters =>
    rw [hfind] at hcall
    refine ⟨_, hcall, ?_, ?_, ?_, ?_, holdest⟩
    · exact h.wake hparts hrest _
    · rw [hnext]
      exact queue_wake t.map key woken rest _
    · rw [hwoken]
      rfl
    · rw [hwoken, hmoved]
      simp [FutexMap.wake]

/-- The front of a queue has waited longer than the rest. -/
theorem Inv.oldest (h : t.Inv) (key : FutexKey) (n : ℕ) :
    ∀ v ∈ (t.map.queue key).take n, ∀ w ∈ (t.map.queue key).drop n, t.since v.tc < t.since w.tc := by
  have hsorted := pairwise_map.mp (h.fifo.sorted key)
  rw [← take_append_drop n (t.map.queue key)] at hsorted
  exact (pairwise_append.mp hsorted).2.2

theorem Inv.correct_wakeup (h : t.Inv) (addr : Addr) (tgid : BitVec 64) {count : ℤ}
    (hcount : 0 ≤ count) : t.Correct (.wakeup addr tgid count) := by
  have hparts : ((t.map.queue ⟨addr, tgid⟩).take count.toNat ++
      (t.map.queue ⟨addr, tgid⟩).drop count.toNat).Perm (t.map.queue ⟨addr, tgid⟩) := by
    rw [take_append_drop]
  refine h.correct_of_wake hparts (drop_sublist _ _) ?_ rfl rfl rfl (h.oldest _ _)
  rw [call, wakeup]
  cases hfind : t.map.find ⟨addr, tgid⟩ with
  | none => rfl
  | some waiters =>
    rw [queue_of_some hfind]
    simp only [popLoop_zero hcount]
    rfl

theorem Inv.correct_wakeupBitset (h : t.Inv) (addr : Addr) (tgid : BitVec 64)
    (bitmask : BitVec 32) : t.Correct (.wakeupBitset addr tgid bitmask) := by
  have hparts : ((t.map.queue ⟨addr, tgid⟩).filter (·.checkMask bitmask) ++
      (t.map.queue ⟨addr, tgid⟩).filter (!·.checkMask bitmask)).Perm (t.map.queue ⟨addr, tgid⟩) :=
    filter_append_perm _ _
  refine h.correct_of_wake hparts filter_sublist ?_ rfl rfl rfl trivial
  rw [call, wakeupBitset]
  cases hfind : t.map.find ⟨addr, tgid⟩ with
  | none => rfl
  | some waiters =>
    rw [queue_of_some hfind]
    rfl

/-- Threads that wait nowhere join a queue. -/
theorem Inv.join {s : FutexMap} {q : FutexKey → List WaiterState} {since : ThreadId → ℕ} {clock : ℕ}
    (hfifo : Fifo since clock fun key => (q key).map (·.tc)) {joined : List WaiterState}
    (hnodup : (joined.map (·.tc)).Nodup)
    (hnew : ∀ tc ∈ joined.map (·.tc), ∀ key, tc ∉ (q key).map (·.tc))
    (hqueue : s.queue = update q key (q key ++ joined)) (hnoEmpty : ∀ key, s.find key ≠ some [])
    (hwaiting : ∀ tc, s.isWaiting tc ↔ ∃ key, tc ∈ s.threads key) :
    Inv ⟨s, stamp since clock (joined.map (·.tc)), clock + (joined.map (·.tc)).length⟩ := by
  refine ⟨?_, hnoEmpty, hwaiting⟩
  have hthreads : s.threads = update (fun key => (q key).map (·.tc)) key
      ((q key).map (·.tc) ++ joined.map (·.tc)) := by
    funext k
    rw [threads, hqueue, apply_update fun _ (waiters : List WaiterState) => waiters.map (·.tc),
      map_append]
  rw [hthreads]
  exact hfifo.enqueue hnodup hnew key

theorem queue_suspendBitset (s : FutexMap) (addr : Addr) (tgid : BitVec 64) (tc : ThreadId)
    (bitmask : BitVec 32) : (s.suspendBitset addr tgid tc bitmask).map.queue =
      update s.queue ⟨addr, tgid⟩ (s.queue ⟨addr, tgid⟩ ++ [⟨tc, bitmask⟩]) := by
  funext k
  rw [suspendBitset, queue, getD_update]
  refine congrFun (congrArg (update s.queue _) ?_) k
  cases hfind : s.find ⟨addr, tgid⟩ with
  | none => rw [queue_of_none hfind]; rfl
  | some waiters => rw [queue_of_some hfind]

theorem Inv.correct_suspendBitset (h : t.Inv) (addr : Addr) (tgid : BitVec 64) (bitmask : BitVec 32)
    (hnew : ∀ key, tc ∉ t.map.threads key) : t.Correct (.suspendBitset addr tgid tc bitmask) := by
  have hqueue := queue_suspendBitset t.map addr tgid tc bitmask
  refine ⟨_, rfl, ?_, hqueue, rfl, rfl, trivial⟩
  refine Inv.join h.fifo ?_ ?_ hqueue ?_ ?_
  · exact nodup_singleton tc
  · intro tc' htc' key
    obtain rfl := mem_singleton.mp htc'
    exact hnew key
  · refine (forall_update_iff t.map.find fun _ waiters => waiters ≠ some []).mpr
      ⟨?_, fun key _ => h.noEmpty key⟩
    split <;> simp
  · intro tc'
    have hset : (t.map.suspendBitset addr tgid tc bitmask).map.isWaiting tc' = true ↔
        t.map.isWaiting tc' = true ∨ tc' = tc := by
      simp [isWaiting, suspendBitset, or_comm]
    rw [hset, threads_of_queue hqueue, exists_mem_update, h.waiting, map_singleton, mem_singleton]
    exact .rfl

/-! ## Requeueing -/

theorem insertAll_eq {find : FutexKey → Option (List WaiterState)} {tmpList : List WaiterState}
    {requeued : ℤ} (h : find key ≠ none ∨ 0 < requeued) : insertAll find key tmpList requeued =
      some (update find key (some ((find key).getD [] ++ tmpList))) := by
  unfold insertAll
  cases hfind : find key with
  | none => exact if_pos (h.resolve_left fun hne => hne hfind)
  | some waiters => rfl

section Requeue

variable {addr1 addr2 : Addr} {tgid : BitVec 64} {count count2 : ℤ} {waiters : List WaiterState}

/-- The two loops of `requeue`. -/
theorem requeue_eq {s : FutexMap} (hfind : s.find ⟨addr1, tgid⟩ = some waiters)
    (hcount : 0 ≤ count) (hcount2 : 0 ≤ count2) :
    s.requeue addr1 tgid count count2 addr2 =
      (insertAll (update s.find ⟨addr1, tgid⟩
          (some ((waiters.drop count.toNat).drop count2.toNat))) ⟨addr2, tgid⟩
          ((waiters.drop count.toNat).take count2.toNat)
          ((waiters.drop count.toNat).take count2.toNat).length).map fun find =>
        ⟨⟨eraseIfEmpty find ⟨addr1, tgid⟩, s.waitingTcs⟩,
          (waiters.take count.toNat).map WaiterState.tc,
          ((waiters.drop count.toNat).take count2.toNat).map WaiterState.tc,
          (waiters.take count.toNat).length +
            ((waiters.drop count.toNat).take count2.toNat).length⟩ := by
  rw [requeue, hfind]
  simp only [popLoop_zero hcount, popLoop_zero hcount2]

/-- The waiters of the first queue: those that are woken, those that are moved, and the rest. -/
theorem parts_eq (q : List WaiterState) (count count2 : ℤ) :
    q = (q.take count.toNat ++ (q.drop count.toNat).take count2.toNat) ++
      (q.drop count.toNat).drop count2.toNat := by
  rw [append_assoc, take_append_drop, take_append_drop]

/-- The waiters that `requeue` wakes are in no queue after it. -/
theorem Inv.woken_not_mem (h : t.Inv) {w : WaiterState}
    (hw : w ∈ (t.map.queue ⟨addr1, tgid⟩).take count.toNat) :
    ¬ ∃ key, w.tc ∈ (next t.map.queue (.requeue addr1 tgid count count2 addr2) key).map (·.tc) := by
  have hparts := parts_eq (t.map.queue ⟨addr1, tgid⟩) count count2
  have hwoken : w.tc ∈ ((t.map.queue ⟨addr1, tgid⟩).take count.toNat).map (·.tc) :=
    mem_map_of_mem hw
  rw [next, exists_mem_update, not_or, not_exists]
  constructor
  · apply h.not_mem_of_front (Perm.of_eq hparts.symm)
    rw [map_append]
    exact mem_append_left _ hwoken
  · have hnodup := h.fifo.nodup ⟨addr1, tgid⟩
    rw [threads, hparts, map_append, map_append] at hnodup
    exact disjoint_of_nodup_append (nodup_append.mp hnodup).1 hwoken

/-- What `requeue` does where it does not use a missing queue. -/
theorem Inv.requeue_spec (h : t.Inv) (hfind : t.map.find ⟨addr1, tgid⟩ = some waiters)
    (hcount : 0 ≤ count) (hcount2 : 0 ≤ count2) (hsecond : t.map.find ⟨addr2, tgid⟩ ≠ none ∨
      0 < ((waiters.drop count.toNat).take count2.toNat).length) :
    ∃ r, t.map.requeue addr1 tgid count count2 addr2 = some r ∧
      r.map.queue = next t.map.queue (.requeue addr1 tgid count count2 addr2) ∧
      (∀ key, r.map.find key ≠ some []) ∧ r.map.waitingTcs = t.map.waitingTcs ∧
      r.woken = (waiters.take count.toNat).map (·.tc) ∧
      r.joined = ((waiters.drop count.toNat).take count2.toNat).map (·.tc) ∧
      r.returned = (waiters.take count.toNat).length +
        ((waiters.drop count.toNat).take count2.toNat).length := by
  have hqueue := queue_of_some hfind
  have hinsert : update t.map.find ⟨addr1, tgid⟩
      (some ((waiters.drop count.toNat).drop count2.toNat)) ⟨addr2, tgid⟩ ≠ none ∨
      0 < (((waiters.drop count.toNat).take count2.toNat).length : ℤ) := by
    refine hsecond.imp ?_ (by omega)
    intro hne
    by_cases hkeys : (⟨addr2, tgid⟩ : FutexKey) = ⟨addr1, tgid⟩
    · rw [hkeys, update_self]
      exact some_ne_none _
    · rwa [update_of_ne hkeys]
  rw [requeue_eq hfind hcount hcount2, insertAll_eq hinsert]
  refine ⟨_, rfl, ?_, ?_, rfl, rfl, rfl, rfl⟩
  · funext k
    have hleft : (fun k => (update t.map.find ⟨addr1, tgid⟩
        (some ((waiters.drop count.toNat).drop count2.toNat)) k).getD []) =
        update t.map.queue ⟨addr1, tgid⟩ ((waiters.drop count.toNat).drop count2.toNat) :=
      funext getD_update
    rw [queue, getD_eraseIfEmpty, getD_update, hleft, next, movedBy, hqueue,
      ← congrFun hleft ⟨addr2, tgid⟩]
  · refine eraseIfEmpty_ne fun k hk => ?_
    by_cases hkey : k = ⟨addr2, tgid⟩
    · subst hkey
      rw [update_self, update_of_ne hk, ne_eq, some.injEq, append_eq_nil_iff]
      rintro ⟨hold, hmoved⟩
      -- a queue that was there had waiters, and a new one gets some
      rcases hsecond with hne | hpos
      · obtain ⟨waiters2, hfind2⟩ := ne_none_iff_exists'.mp hne
        rw [hfind2, getD_some] at hold
        exact h.noEmpty _ (hold ▸ hfind2)
      · rw [hmoved] at hpos
        exact absurd hpos (lt_irrefl _)
    · rw [update_of_ne hkey, update_of_ne hk]
      exact h.noEmpty k

theorem Inv.correct_requeue (h : t.Inv) (hcount2 : 0 ≤ count2)
    (hsafe : t.RequeueSafe (.requeue addr1 tgid count count2 addr2)) :
    t.Correct (.requeue addr1 tgid count count2 addr2) := by
  cases hfind : t.map.find ⟨addr1, tgid⟩ with
  | none =>
    have hempty := queue_of_none hfind
    refine ⟨⟨t.map, [], [], 0⟩, by rw [call, requeue, hfind], ?_, ?_, ?_, ?_, h.oldest _ _⟩
    · exact h
    · have hleft : update t.map.queue ⟨addr1, tgid⟩ [] = t.map.queue := by
        rw [← hempty, update_eq_self]
      simp only [next, movedBy, hempty, drop_nil, take_nil, append_nil, hleft, update_eq_self]
    · simp [wokenBy, hempty]
    · simp [wokenBy, movedBy, hempty]
  | some waiters =>
    obtain ⟨rfl, hsecond⟩ := hsafe.resolve_left (by rw [hfind]; exact some_ne_none _)
    have hwaiters := queue_of_some hfind
    have hpos : 0 < waiters.length := by
      rw [length_pos_iff]
      rintro rfl
      exact h.noEmpty _ hfind
    have hsecond' : t.map.find ⟨addr2, tgid⟩ ≠ none ∨
        0 < ((waiters.drop (0 : ℤ).toNat).take count2.toNat).length := by
      refine hsecond.symm.imp_right fun hcount => ?_
      rw [length_take, length_drop]
      omega
    obtain ⟨r, hcall, hqueue, hnoEmpty, hset, hwoken, hjoined, hreturned⟩ :=
      h.requeue_spec hfind le_rfl hcount2 hsecond'
    -- nothing is woken, so the first queue is what is moved and the rest
    have hparts := Perm.of_eq (parts_eq (t.map.queue ⟨addr1, tgid⟩) 0 count2).symm
    refine ⟨r, hcall, ?_, hqueue, ?_, ?_, h.oldest _ _⟩
    · rw [after, hjoined, ← hwaiters]
      refine Inv.join ?_ ?_ (fun tc htc => h.not_mem_of_front hparts htc) hqueue hnoEmpty ?_
      · exact h.fifo.sublist fun k =>
          (sublist_update ((drop_sublist _ _).trans (drop_sublist _ _)) k).map _
      · exact (h.fifo.nodup ⟨addr1, tgid⟩).sublist
          (((take_sublist _ _).trans (drop_sublist _ _)).map _)
      · intro tc
        have hsame : r.map.isWaiting tc = t.map.isWaiting tc := by rw [isWaiting, hset, isWaiting]
        rw [hsame, h.waiting, threads_of_queue hqueue, next, exists_mem_update]
        exact exists_mem_front hparts tc
    · rw [hwoken, wokenBy, hwaiters]
    · rw [hreturned, wokenBy, movedBy, hwaiters]

/-- **When `requeue` keeps the books.** -/
theorem Inv.correct_requeue_iff (h : t.Inv) (hcount : 0 ≤ count) (hcount2 : 0 ≤ count2) :
    t.Correct (.requeue addr1 tgid count count2 addr2) ↔
      t.RequeueSafe (.requeue addr1 tgid count count2 addr2) := by
  refine ⟨?_, h.correct_requeue hcount2⟩
  rintro ⟨r, hcall, hinv, hqueue, -⟩
  cases hfind : t.map.find ⟨addr1, tgid⟩ with
  | none => exact .inl hfind
  | some waiters =>
    rw [call, requeue_eq hfind hcount hcount2, map_eq_some_iff] at hcall
    obtain ⟨find, hinsert, rfl⟩ := hcall
    have hwaiters := queue_of_some hfind
    refine .inr ⟨?_, ?_⟩
    · by_contra hne
      obtain ⟨w, ws, rfl⟩ : ∃ w ws, waiters = w :: ws := by
        apply exists_cons_of_ne_nil
        rintro rfl
        exact h.noEmpty _ hfind
      -- the first waiter is woken and stays in the set
      have hfront : w ∈ (t.map.queue ⟨addr1, tgid⟩).take count.toNat := by
        rw [hwaiters, show count.toNat = (count.toNat - 1) + 1 by omega]
        exact mem_cons_self
      have hwaiting : t.map.isWaiting w.tc = true := by
        refine (h.waiting w.tc).mpr ⟨⟨addr1, tgid⟩, ?_⟩
        rw [threads, hwaiters]
        exact mem_cons_self
      have hmem := (hinv.waiting w.tc).mp hwaiting
      rw [after, threads_of_queue hqueue] at hmem
      exact h.woken_not_mem hfront hmem
    · by_contra hnot
      rw [not_or, not_not] at hnot
      obtain ⟨hle, hnone⟩ := hnot
      have hkeys : (⟨addr2, tgid⟩ : FutexKey) ≠ ⟨addr1, tgid⟩ := by
        intro heq
        rw [heq, hfind] at hnone
        exact absurd hnone (some_ne_none _)
      have hzero : count2.toNat = 0 := by omega
      rw [insertAll, update_of_ne hkeys, hnone, hzero] at hinsert
      simp at hinsert

end Requeue

/-! ## Runs -/

theorem inv_init : init.Inv :=
  ⟨Fifo.empty _ _, fun _ h => absurd h (by simp [init]),
    fun tc => iff_of_false (by simp [init, isWaiting]) (by simp [init, threads, queue])⟩

/-- **Which calls keep the books.** -/
theorem Inv.correct_iff (h : t.Inv) (hc : t.Usage c) : t.Correct c ↔ t.RequeueSafe c := by
  cases c with
  | suspend addr tgid tc =>
    exact iff_of_true (h.correct_suspendBitset addr tgid 0xffffffff hc) trivial
  | suspendBitset addr tgid tc bitmask =>
    exact iff_of_true (h.correct_suspendBitset addr tgid bitmask hc) trivial
  | wakeup addr tgid count => exact iff_of_true (h.correct_wakeup addr tgid hc) trivial
  | wakeupBitset addr tgid bitmask => exact iff_of_true (h.correct_wakeupBitset addr tgid bitmask) trivial
  | requeue addr1 tgid count count2 addr2 => exact h.correct_requeue_iff hc.1 hc.2

end Observed

/-- **Futex bookkeeping**: all calls of a run are correct just when every `requeue` of it
finds no waiters, or wakes none and does not use a missing queue. -/
theorem calls_correct_iff {calls : List Call}
    (husage : AllowedSteps Observed.step Observed.Usage Observed.init calls) :
    AllowedSteps Observed.step Observed.Correct Observed.init calls ↔
      AllowedSteps Observed.step Observed.RequeueSafe Observed.init calls := by
  refine husage.correct_iff (fun _ _ h hc => h.correct_iff hc) ?_ Observed.inv_init
  rintro t c t' ⟨r, hcall, hinv, -⟩ hstep
  rw [Observed.step, hcall, map_some, some.injEq] at hstep
  exact hstep ▸ hinv

/-- Two threads wait for two futexes; the second is requeued, then both are woken. -/
def twoWaiters : List Call :=
  [.suspend 0x100 1 7, .suspendBitset 0x200 1 8 1, .requeue 0x200 1 0 1 0x100, .wakeup 0x100 1 2]

theorem calls_correct_iff_twoWaiters :
    AllowedSteps Observed.step Observed.Correct Observed.init twoWaiters := by
  have husage : AllowedSteps Observed.step Observed.Usage Observed.init twoWaiters := by
    refine .cons (fun key => not_mem_nil) rfl (.cons ?_ rfl ?_)
    · intro key
      rw [Observed.after, suspend,
        threads_of_queue (Observed.queue_suspendBitset _ 0x100 1 7 0xffffffff)]
      by_cases hkey : key = ⟨0x100, 1⟩
      · subst hkey
        decide
      · dsimp only
        rw [update_of_ne hkey]
        exact not_mem_nil
    · exact ⟨⟨le_rfl, zero_le_one⟩, fun _ _ => ⟨zero_le_two, fun _ _ => trivial⟩⟩
  exact (calls_correct_iff husage).mpr (by decide +kernel)

/-- A woken thread stays in the set and is in no queue; and nothing is requeued to a futex that
has no queue. -/
theorem requeue_forgets_woken :
    (∃ t, runSteps Observed.step Observed.init
        [.suspend 0x100 1 7, .suspend 0x100 1 8, .requeue 0x100 1 1 1 0x200] = some t ∧
      t.map.isWaiting 7 = true ∧ ∀ key, 7 ∉ t.map.threads key) ∧
    runSteps Observed.step Observed.init [.suspend 0x100 1 7, .requeue 0x100 1 1 0 0x200] = none := by
  refine ⟨⟨_, rfl, by decide +kernel, ?_⟩, by decide +kernel⟩
  intro key
  have hqueue : ∀ w ∈ (if key = ⟨0x200, 1⟩ then some [⟨8, 0xffffffff⟩]
      else if key = ⟨0x100, 1⟩ then some [] else none).getD [], ¬ WaiterState.tc w = 7 := by
    split
    · decide
    · split <;> simp
  rw [threads, queue]
  simpa [Observed.after, getD_eraseIfEmpty, update, suspend, suspendBitset, Observed.init]
    using hqueue

end FutexMap
