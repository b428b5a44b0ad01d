/-
# The lists of the MSHR queue

`Partitioned` says how the allocated, ready and free lists, the two counters and the
iterators kept in the entries belong together.  Every step that is taken as its asserts
require, with `delay` only for entries of the ready list, succeeds and keeps it.
-/
import Gem5.MSHRQueue

open List Option Function

namespace MSHRQueue

open MSHRQueue.Queue

open MSHR NodeList

/-! ## Flags of the targets -/

/-- A write that is not merged with others, but marks bytes of the block if it is the first. -/
def Target.SpecialWrite (t : Target) (blkSize : ℕ) : Prop :=
  t.source = .fromCPU ∧ t.pkt.isWrite ∧ ¬ t.pkt.isMaskedWrite ∧ t.pkt.noMerge ∧
    t.pkt.offset < blkSize ∧ 0 < t.pkt.size

namespace TargetList

variable {l : TargetList} {allocOnFill : Bool} {ts : List Target} {pkt : Packet}

/-- Flags are only ever set. -/
theorem isReset_of_updateFlags {source : Source}
    (h : (l.updateFlags pkt source allocOnFill).isReset) : l.isReset := by
  simp only [updateFlags, updateWriteFlags, isReset] at h ⊢
  split_ifs at h <;> simp_all

theorem resetFlags_updateFlags (l : TargetList) (pkt : Packet) (source : Source)
    (allocOnFill : Bool) : (l.updateFlags pkt source allocOnFill).resetFlags = l.resetFlags := by
  simp only [resetFlags, updateFlags, updateWriteFlags]
  split_ifs <;> simp

@[simp] theorem list_updateFlags (l : TargetList) (pkt : Packet) (source : Source)
    (allocOnFill : Bool) : (l.updateFlags pkt source allocOnFill).list = l.list :=
  (congrArg list (resetFlags_updateFlags l pkt source allocOnFill) :)

@[simp] theorem length_writesBitmap_updateFlags (l : TargetList) (pkt : Packet) (source : Source)
    (allocOnFill : Bool) :
    (l.updateFlags pkt source allocOnFill).writesBitmap.length = l.writesBitmap.length := by
  simpa [resetFlags] using
    congrArg (·.writesBitmap.length) (resetFlags_updateFlags l pkt source allocOnFill)

/-- A request of the CPU leaves a mark in the flags. -/
theorem isReset_updateFlags (hbitmap : l.writesBitmap ≠ [])
    (hclear : l.isReset → ∀ b ∈ l.writesBitmap, b = false) :
    (l.updateFlags pkt .fromCPU allocOnFill).isReset = false := by
  by_contra h
  rw [Bool.not_eq_false] at h
  have hreset := isReset_of_updateFlags h
  have hwhole : l.isWholeLineWrite = false := by
    obtain ⟨b, rest, hb⟩ := exists_cons_of_ne_nil hbitmap
    have hfirst := hclear hreset b (by rw [hb]; exact mem_cons_self)
    simp [isWholeLineWrite, hb, hfirst]
  have hattr := pkt.write_attributes
  simp only [isReset, isWholeLineWrite] at hreset hwhole
  simp only [updateFlags, updateWriteFlags, isReset, isWholeLineWrite] at h
  cases hwrite : pkt.isWrite <;> simp_all

/-- A list of requests of the CPU whose flags tell if there are any. -/
structure Marked (l : TargetList) : Prop where
  fromCPU : ∀ t ∈ l.list, t.source = .fromCPU
  bitmap : l.list ≠ [] → l.writesBitmap ≠ []
  reset : l.isReset → l.list = [] ∧ ∀ b ∈ l.writesBitmap, b = false
  empty : l.list = [] → l.isReset

theorem marked_new : new.Marked := by
  refine ⟨?_, ?_, ?_, ?_⟩ <;> simp [new, isReset]

theorem marked_init {blkSize : ℕ} (h : l.list = []) : (l.init blkSize).Marked := by
  refine ⟨?_, ?_, ?_, ?_⟩ <;> simp [init, resetFlags, isReset, h]

theorem Marked.add (hl : l.Marked) {t : Target} (ht : t.source = .fromCPU)
    (hbitmap : l.writesBitmap ≠ []) : (l.add t).Marked := by
  refine ⟨?_, ?_, ?_, ?_⟩
  · intro t' ht'
    simp only [TargetList.add, list_updateFlags, mem_append, mem_singleton] at ht'
    rcases ht' with ht' | rfl
    · exact hl.fromCPU t' ht'
    · exact ht
  · intro _
    simp only [TargetList.add]
    rw [← length_pos_iff, length_writesBitmap_updateFlags]
    exact length_pos_iff.mpr hbitmap
  · intro hreset
    have hmark : (l.updateFlags t.pkt .fromCPU t.allocOnFill).isReset = false :=
      isReset_updateFlags hbitmap fun h => (hl.reset h).2
    rw [← ht] at hmark
    exact absurd (hmark.symm.trans hreset) (by decide)
  · intro hnil
    exact absurd hnil (append_ne_nil_of_right_ne_nil _ (cons_ne_nil _ _))

abbrev update (l : TargetList) (t : Target) : TargetList :=
  l.updateFlags t.pkt t.source t.allocOnFill

theorem isReset_of_foldl (h : (ts.foldl update l).isReset) : l.isReset := by
  induction ts generalizing l with
  | nil => exact h
  | cons t ts ih => exact isReset_of_updateFlags (ih h)

theorem resetFlags_foldl (l : TargetList) (ts : List Target) :
    (ts.foldl update l).resetFlags = l.resetFlags := by
  induction ts generalizing l with
  | nil => rfl
  | cons t ts ih => rw [foldl_cons, ih, resetFlags_updateFlags]

@[simp] theorem list_populateFlags (l : TargetList) : l.populateFlags.list = l.list :=
  (congrArg list (resetFlags_foldl l.resetFlags l.list) :)

theorem marked_populateFlags (hcpu : ∀ t ∈ l.list, t.source = .fromCPU)
    (hbitmap : l.list ≠ [] → l.writesBitmap ≠ []) : l.populateFlags.Marked := by
  have hlen : l.populateFlags.writesBitmap.length = l.writesBitmap.length := by
    have hreset := congrArg (·.writesBitmap.length) (resetFlags_foldl l.resetFlags l.list)
    simpa [populateFlags, resetFlags] using hreset
  refine ⟨by rwa [list_populateFlags], ?_, ?_, ?_⟩
  · intro hne
    rw [list_populateFlags] at hne
    rw [← length_pos_iff, hlen]
    exact length_pos_iff.mpr (hbitmap hne)
  · intro hreset
    cases hlist : l.list with
    | nil =>
      refine ⟨by rw [list_populateFlags, hlist], ?_⟩
      simp [populateFlags, hlist, resetFlags]
    | cons t ts =>
      -- the first target leaves its mark, and the others do not take it back
      rw [populateFlags, hlist, foldl_cons] at hreset
      have hfirst := isReset_of_foldl hreset
      have ht : t.source = .fromCPU := hcpu t (by rw [hlist]; exact mem_cons_self)
      have hne : l.resetFlags.writesBitmap ≠ [] := by
        simpa [resetFlags] using hbitmap (by rw [hlist]; exact cons_ne_nil _ _)
      rw [ht, isReset_updateFlags hne (by simp [resetFlags])] at hfirst
      cases hfirst
  · intro hnil
    rw [list_populateFlags] at hnil
    simp [populateFlags, hnil, resetFlags, isReset]

/-- `updateFlags` sees of the list only whether it is empty. -/
theorem update_withList (hl : l.list ≠ []) (hts : ts ≠ []) (t : Target) :
    update { l with list := ts } t = { l.update t with list := ts } := by
  simp only [updateFlags, updateWriteFlags, isWholeLineWrite, isEmpty_eq_false_iff.mpr hl,
    isEmpty_eq_false_iff.mpr hts]
  split_ifs <;> rfl

theorem foldl_add (hne : l.list ≠ []) (ts : List Target) :
    ts.foldl add l = ts.foldl update { l with list := l.list ++ ts } := by
  induction ts generalizing l with
  | nil => rw [append_nil]; rfl
  | cons t ts ih =>
    rw [foldl_cons, ih (append_ne_nil_of_right_ne_nil _ (cons_ne_nil _ _)), foldl_cons,
      update_withList hne (append_ne_nil_of_left_ne_nil hne _)]
    simp [add]

/-- Once writes are not merged any more, the bitmap stays. -/
theorem writesBitmap_foldl (h : l.canMergeWrites = false) (ts : List Target) :
    (ts.foldl update l).writesBitmap = l.writesBitmap := by
  induction ts generalizing l with
  | nil => rfl
  | cons t ts ih =>
    have hstep : (l.update t).canMergeWrites = false ∧
        (l.update t).writesBitmap = l.writesBitmap := by
      simp only [updateFlags, updateWriteFlags]
      split_ifs <;> simp_all
    rw [foldl_cons, ih hstep.1, hstep.2]

section First

variable {t : Target} {n : ℕ} (hbitmap : l.writesBitmap = replicate n false)
include hbitmap

/-- The first byte of a special write is marked only in an empty list. -/
theorem update_special (ht : t.SpecialWrite n) (hmerge : l.canMergeWrites) :
    (l.update t).canMergeWrites = false ∧
      (l.update t).writesBitmap[t.pkt.offset]? = some l.list.isEmpty := by
  obtain ⟨hcpu, hwrite, hmasked, hnoMerge, hoffset, hsize⟩ := ht
  have hwhole : (replicate n false).all id = false := by
    simpa using (by omega : n ≠ 0)
  cases hl : l.list.isEmpty <;>
    simp [updateFlags, updateWriteFlags, isWholeLineWrite, hcpu, hwrite, hmasked, hnoMerge, hmerge,
      hbitmap, hwhole, hl, hoffset, hsize]

theorem update_of_not_special (ht : ¬ t.SpecialWrite n) (ts : List Target) :
    update { l with list := ts } t = { l.update t with list := ts } := by
  -- a write that is special but for its bytes has none in the block
  have hnone : t.source = .fromCPU → t.pkt.isWrite → ¬ t.pkt.isMaskedWrite → t.pkt.noMerge →
      (l.writesBitmap.mapIdx fun k b =>
        b || (t.pkt.offset ≤ k && k < t.pkt.offset + t.pkt.size)) = l.writesBitmap := by
    intro hcpu hwrite hmasked hmerge
    refine ext_getElem (by rw [length_mapIdx]) fun k _ hk => ?_
    rw [hbitmap, length_replicate] at hk
    have hout : ¬ (t.pkt.offset ≤ k ∧ k < t.pkt.offset + t.pkt.size) :=
      fun hin => ht ⟨hcpu, hwrite, hmasked, hmerge, by omega, by omega⟩
    simpa [hbitmap] using hout
  cases hs : t.source <;> simp only [updateFlags, updateWriteFlags, isWholeLineWrite, hs]
  · split_ifs <;> simp_all
  · rfl
  · rfl

end First

theorem populateFlags_foldl_add (hlist : l.list = []) (hreset : l.resetFlags = l) (t : Target)
    (ts : List Target) :
    (t :: ts).foldl add l = ts.foldl update { l.update t with list := t :: ts } ∧
      ((t :: ts).foldl add l).populateFlags =
        ts.foldl update (update { l with list := t :: ts } t) := by
  have hadd : (t :: ts).foldl add l = ts.foldl update { l.update t with list := t :: ts } := by
    rw [foldl_cons, foldl_add (append_ne_nil_of_right_ne_nil _ (cons_ne_nil _ _))]
    simp [add, hlist]
  have hfresh : ((t :: ts).foldl add l).resetFlags = { l.resetFlags with list := t :: ts } := by
    rw [hadd, resetFlags_foldl, ← resetFlags_updateFlags l t.pkt t.source t.allocOnFill]
    rfl
  refine ⟨hadd, ?_⟩
  have hall := congrArg list hfresh
  rw [populateFlags, hfresh, hreset, show ((t :: ts).foldl add l).list = t :: ts from hall]
  rfl

/-- Targets added to an empty list have the flags that `populateFlags` gives the list, unless
the first is a special write: `add` finds the list empty, `populateFlags` does not and leaves
the bytes of that write unmarked. -/
theorem populateFlags_added (blkSize : ℕ) (ts : List Target) :
    (ts.foldl add (new.init blkSize)).populateFlags = ts.foldl add (new.init blkSize) ↔
      ∀ t ∈ ts.head?, ¬ t.SpecialWrite blkSize := by
  have hclear : (new.init blkSize).writesBitmap = replicate blkSize false := map_replicate ..
  have hreset : (new.init blkSize).resetFlags = new.init blkSize := by simp [init, resetFlags]
  cases ts with
  | nil => rw [foldl_nil, populateFlags]; simp [init, resetFlags, new]
  | cons t ts =>
    obtain ⟨hadd, hpopulate⟩ := populateFlags_foldl_add rfl hreset t ts
    rw [hpopulate, hadd, head?_cons]
    simp only [mem_some_iff, forall_eq']
    by_cases ht : t.SpecialWrite blkSize
    · refine iff_of_false ?_ (not_not.mpr ht)
      intro h
      have hadded := update_special hclear ht rfl
      have hagain := update_special (l := { new.init blkSize with list := t :: ts }) hclear ht rfl
      replace h := congrArg (·.writesBitmap[t.pkt.offset]?) h
      rw [writesBitmap_foldl hagain.1, hagain.2, writesBitmap_foldl] at h
      · cases h.trans hadded.2
      · exact hadded.1
    · rw [update_of_not_special hclear ht, iff_true_left rfl]
      exact ht

/-- A secure write of a whole block of one byte. -/
def secureWrite : Target :=
  ⟨⟨false, true, false, false, true, false, true, false, 0, 1, fun _ => .inl rfl⟩, 0, 0, .fromCPU,
    false⟩

/-- Adding a secure write of the whole block marks the block, recomputing the flags clears it. -/
theorem secureWrite_forgotten :
    ((new.init 1).add secureWrite).isWholeLineWrite = true ∧
      ((new.init 1).add secureWrite).populateFlags.isWholeLineWrite = false :=
  ⟨rfl, rfl⟩

end TargetList

/-! ## Counting -/

theorem countP_update_of_notMem {α : Type*} [DecidableEq α] {l : List α} {i : α} (f : α → Bool)
    (hi : i ∉ l) (x : Bool) : l.countP (update f i x) = l.countP f := by
  apply countP_congr
  intro j hj
  rw [update_of_ne (ne_of_mem_of_not_mem hj hi)]

/-- Counting after one item of a list changed. -/
theorem countP_update {α : Type*} [DecidableEq α] {l : List α} {i : α} (f : α → Bool)
    (hnodup : l.Nodup) (hi : i ∈ l) (x : Bool) :
    l.countP (update f i x) + (f i).toNat = l.countP f + x.toNat := by
  have hperm := perm_cons_erase hi
  have hrest := countP_update_of_notMem f (hnodup.not_mem_erase (a := i)) x
  rw [hperm.countP_eq, hperm.countP_eq f, countP_cons, countP_cons, hrest]
  cases f i <;> cases x <;> simp

/-! ## The invariant -/

section Lists

variable {n : ℕ} {l : NodeList (Fin n)}

/-- The allocated list and the free list partition the entries. -/
structure AllocOk (allocatedList : NodeList (Fin n)) (freeList : List (Fin n))
    (allocIter : Fin n → ℕ) (allocated : ℤ) : Prop where
  nodup : allocatedList.items.Nodup
  free_nodup : freeList.Nodup
  mem_free : ∀ i, i ∈ freeList ↔ i ∉ allocatedList.items
  length : allocated = allocatedList.items.length
  iter : ∀ i ∈ allocatedList.items, allocatedList.deref (allocIter i) = some i

/-- The ready list has the allocated entries that are not in service. -/
structure ReadyOk (readyList : NodeList (Fin n)) (allocated : List (Fin n))
    (inService : Fin n → Bool) (readyIter : Fin n → ℕ) (numInService : ℤ) : Prop where
  nodup : readyList.items.Nodup
  mem : ∀ i, i ∈ readyList.items ↔ i ∈ allocated ∧ inService i = false
  count : numInService = allocated.countP inService
  iter : ∀ i ∈ readyList.items, readyList.deref (readyIter i) = some i

namespace AllocOk

variable {allocatedList : NodeList (Fin n)} {freeList : List (Fin n)} {iter : Fin n → ℕ}
  {allocated : ℤ} {i : Fin n}

theorem push (h : AllocOk allocatedList (i :: freeList) iter allocated) :
    AllocOk (allocatedList.pushBack i) freeList (update iter i allocatedList.fresh)
      (allocated + 1) where
  nodup := nodup_items_insertWhere ((h.mem_free i).mp mem_cons_self) h.nodup
  free_nodup := (nodup_cons.mp h.free_nodup).2
  mem_free := by
    intro j
    have hnew := (nodup_cons.mp h.free_nodup).1
    have hj := h.mem_free j
    rw [mem_cons] at hj
    rw [items_pushBack, mem_append, mem_singleton]
    constructor
    · intro hfree
      rintro (hmem | rfl)
      · exact hj.mp (.inr hfree) hmem
      · exact hnew hfree
    · intro hno
      rcases hj.mpr (fun hmem => hno (.inl hmem)) with rfl | hfree
      · exact absurd (.inr rfl) hno
      · exact hfree
  length := by rw [items_pushBack, length_append, h.length]; simp
  iter := Indexed.insertWhere h.iter

theorem erase (h : AllocOk allocatedList freeList iter allocated)
    (hperm : allocatedList.items.Perm (i :: l.items))
    (hderef : ∀ j b, l.deref j = some b ↔ allocatedList.deref j = some b ∧ j ≠ iter i) (x : ℕ) :
    AllocOk l (i :: freeList) (update iter i x) (allocated - 1) := by
  have hnodup := nodup_cons.mp (hperm.nodup_iff.mp h.nodup)
  have hmem : ∀ j, j ∈ allocatedList.items ↔ j = i ∨ j ∈ l.items := fun j => by
    rw [hperm.mem_iff, mem_cons]
  have hi : i ∈ allocatedList.items := (hmem i).mpr (.inl rfl)
  refine ⟨hnodup.2, ?_, ?_, ?_, ?_⟩
  · refine nodup_cons.mpr ⟨?_, h.free_nodup⟩
    intro hfree
    exact (h.mem_free i).mp hfree hi
  · intro j
    rw [mem_cons, h.mem_free j, hmem]
    constructor
    · rintro (rfl | hno)
      · exact hnodup.1
      · exact fun hj => hno (.inr hj)
    · intro hno
      rcases eq_or_ne j i with rfl | hne
      · exact .inl rfl
      · exact .inr (not_or.mpr ⟨hne, hno⟩)
  · rw [h.length, hperm.length_eq, length_cons]
    push_cast
    ring
  · exact Indexed.erase h.iter h.nodup hperm hderef x

end AllocOk

namespace ReadyOk

variable {readyList : NodeList (Fin n)} {allocated : List (Fin n)} {inService : Fin n → Bool}
  {iter : Fin n → ℕ} {num : ℤ} {i : Fin n} {p : ℕ × Fin n → Bool}

variable (h : ReadyOk readyList allocated inService iter num)

include h

/-- A new entry that waits. -/
theorem push (hnew : i ∉ allocated) :
    ReadyOk (readyList.insertWhere p i) (allocated ++ [i]) (update inService i false)
      (update iter i readyList.fresh) num where
  nodup := nodup_items_insertWhere (fun hmem => hnew ((h.mem i).mp hmem).1) h.nodup
  mem := by
    intro j
    rw [mem_items_insertWhere, mem_append, mem_singleton]
    rcases eq_or_ne j i with rfl | hne
    · simp
    · rw [or_iff_right hne, or_iff_left hne, h.mem, update_of_ne hne]
  count := by
    rw [countP_append, countP_update_of_notMem _ hnew, h.count]
    simp
  iter := Indexed.insertWhere h.iter

/-- An entry in service waits again. -/
theorem enter (hnodup : allocated.Nodup) (hmem : i ∈ allocated) (hserved : inService i = true) :
    ReadyOk (readyList.insertWhere p i) allocated (update inService i false)
      (update iter i readyList.fresh) (num - 1) where
  nodup := by
    refine nodup_items_insertWhere ?_ h.nodup
    intro hready
    rw [((h.mem i).mp hready).2] at hserved
    cases hserved
  mem := by
    intro j
    rw [mem_items_insertWhere]
    rcases eq_or_ne j i with rfl | hne
    · simp [hmem]
    · rw [or_iff_right hne, h.mem, update_of_ne hne]
  count := by
    have hcount := countP_update inService hnodup hmem false
    rw [hserved] at hcount
    simp only [Bool.toNat_true, Bool.toNat_false] at hcount
    rw [h.count]
    omega
  iter := Indexed.insertWhere h.iter

/-- A waiting entry is sent. -/
theorem leave (hnodup : allocated.Nodup) (hi : i ∈ readyList.items)
    (hperm : readyList.items.Perm (i :: l.items))
    (hderef : ∀ j b, l.deref j = some b ↔ readyList.deref j = some b ∧ j ≠ iter i) (x : ℕ) :
    ReadyOk l allocated (update inService i true) (update iter i x) (num + 1) := by
  have hparts := nodup_cons.mp (hperm.nodup_iff.mp h.nodup)
  refine ⟨hparts.2, ?_, ?_, Indexed.erase h.iter h.nodup hperm hderef x⟩
  · intro j
    rcases eq_or_ne j i with rfl | hne
    · simp [hparts.1]
    · have hj := h.mem j
      rw [hperm.mem_iff, mem_cons, or_iff_right hne] at hj
      rw [hj, update_of_ne hne]
  · have hmem := (h.mem i).mp hi
    have hcount := countP_update inService hnodup hmem.1 true
    rw [hmem.2] at hcount
    simp only [Bool.toNat_true, Bool.toNat_false] at hcount
    rw [h.count]
    omega

/-- A waiting entry is unlinked and put in at another place. -/
theorem move (hperm : readyList.items.Perm (i :: l.items))
    (hderef : ∀ j b, l.deref j = some b ↔ readyList.deref j = some b ∧ j ≠ iter i) :
    ReadyOk (l.insertWhere p i) allocated inService (update iter i l.fresh) num := by
  have hparts := nodup_cons.mp (hperm.nodup_iff.mp h.nodup)
  refine ⟨nodup_items_insertWhere hparts.1 hparts.2, ?_, h.count, ?_⟩
  · intro j
    rw [mem_items_insertWhere, ← h.mem j, hperm.mem_iff, mem_cons]
  · rw [← update_idem]
    exact (Indexed.erase h.iter h.nodup hperm hderef 0).insertWhere

/-- An entry goes, with `l` the ready list without it. -/
theorem pop {allocated' : List (Fin n)} (halloc : allocated.Perm (i :: allocated'))
    (hnodup : allocated.Nodup) (hl : l.items.Nodup)
    (hmem : ∀ j, j ∈ l.items ↔ j ∈ readyList.items ∧ j ≠ i) (hiter : l.Indexed iter) :
    ReadyOk l allocated' (update inService i false) iter (if inService i then num - 1 else num) := by
  have hparts := nodup_cons.mp (halloc.nodup_iff.mp hnodup)
  refine ⟨hl, ?_, ?_, hiter⟩
  · intro j
    rw [hmem, h.mem, halloc.mem_iff, mem_cons]
    rcases eq_or_ne j i with rfl | hne
    · simp [hparts.1]
    · rw [update_of_ne hne, or_iff_right hne, and_iff_left hne]
  · rw [countP_update_of_notMem _ hparts.1, h.count, halloc.countP_eq, countP_cons]
    split_ifs <;> simp

end ReadyOk

end Lists

variable {m : MSHR}

namespace Queue

variable {n : ℕ} {q : Queue n} {i : Fin n} {β : Type*}

/-- **How the lists, counters and iterators belong together.** -/
structure Partitioned (q : Queue n) : Prop where
  alloc : AllocOk q.allocatedList q.freeList (fun i => (q.entries i).allocIter) q.allocated
  ready : ReadyOk q.readyList q.allocatedList.items (fun i => (q.entries i).inService)
    (fun i => (q.entries i).readyIter) q.numInService

/-- A free entry has no targets, and the flags of deferred targets tell if there are any. -/
structure Inv (q : Queue n) : Prop extends Partitioned q where
  free_targets : ∀ i ∈ q.freeList, (q.entries i).getNumTargets = 0
  marked : ∀ i, (q.entries i).deferredTargets.Marked

/-! ## Steps -/

@[simp] theorem entries_setEntry_self (q : Queue n) (i : Fin n) (m : MSHR) :
    (q.setEntry i m).entries i = m :=
  Function.update_self ..

theorem entries_setEntry_of_ne (q : Queue n) {i j : Fin n} (m : MSHR) (h : j ≠ i) :
    (q.setEntry i m).entries j = q.entries j :=
  Function.update_of_ne h ..

theorem inv_new (numEntries reserve : ℕ) : (new numEntries reserve).Inv where
  alloc := ⟨nodup_nil, nodup_finRange _, by simp [new], rfl, by simp [new]⟩
  ready := ⟨nodup_nil, by simp [new], rfl, by simp [new]⟩
  free_targets := fun _ _ => rfl
  marked := fun _ => TargetList.marked_new

/-- What a step leaves alone in an entry. -/
theorem update_entries (f : MSHR → β) (h : f m = f (q.entries i)) :
    update (fun j => f (q.entries j)) i (f m) = fun j => f (q.entries j) :=
  update_eq_self_iff.mpr h

theorem comp_setEntry (f : MSHR → β) :
    (fun j => f ((q.setEntry i m).entries j)) = update (fun j => f (q.entries j)) i (f m) :=
  funext (apply_update (fun _ => f) q.entries i m)

theorem Inv.marked_setEntry (hq : q.Inv) (hm : m.deferredTargets.Marked) (j : Fin n) :
    ((q.setEntry i m).entries j).deferredTargets.Marked := by
  rcases eq_or_ne j i with rfl | hne
  · rwa [entries_setEntry_self]
  · rw [entries_setEntry_of_ne q m hne]
    exact hq.marked j

/-- Steps that only move an entry in or out of the ready list. -/
theorem Inv.setReady (hq : q.Inv) (hi : i ∈ q.allocatedList.items)
    {readyList : NodeList (Fin n)} {num : ℤ} (halloc : m.allocIter = (q.entries i).allocIter)
    (hmarked : m.deferredTargets.Marked)
    (hready : ReadyOk readyList q.allocatedList.items
      (update (fun j => (q.entries j).inService) i m.inService)
      (update (fun j => (q.entries j).readyIter) i m.readyIter) num) :
    ({ q with readyList := readyList, numInService := num }.setEntry i m).Inv := by
  rw [← comp_setEntry inService, ← comp_setEntry readyIter] at hready
  refine ⟨⟨?_, hready⟩, ?_, hq.marked_setEntry hmarked⟩
  · show AllocOk q.allocatedList q.freeList (fun j => ((q.setEntry i m).entries j).allocIter) _
    rw [comp_setEntry allocIter, update_entries allocIter halloc]
    exact hq.alloc
  · intro j hj
    have hne : j ≠ i := by
      rintro rfl
      exact (hq.alloc.mem_free j).mp hj hi
    show ((q.setEntry i m).entries j).getNumTargets = 0
    rw [entries_setEntry_of_ne q m hne]
    exact hq.free_targets j hj

/-- Targets and times of an allocated entry do not matter to the lists. -/
theorem Inv.setEntry (hq : q.Inv) (hi : i ∈ q.allocatedList.items)
    (hserved : m.inService = (q.entries i).inService)
    (halloc : m.allocIter = (q.entries i).allocIter)
    (hready : m.readyIter = (q.entries i).readyIter) (hmarked : m.deferredTargets.Marked) :
    (q.setEntry i m).Inv := by
  apply hq.setReady hi halloc hmarked
  rw [update_entries inService hserved, update_entries readyIter hready]
  exact hq.ready

/-- `addToReadyList` does not panic: if the last entry is not early enough, it is one that
is ready later. -/
theorem addToReadyList_eq (q : Queue n) (i : Fin n) :
    ∃ p, q.addToReadyList i = some (q.readyList.insertWhere p i) := by
  rw [addToReadyList]
  split_ifs with hback hlater
  · exact ⟨_, rfl⟩
  · exact ⟨_, rfl⟩
  · cases hlast : q.readyList.items.getLast? with
    | none => simp [hlast] at hback
    | some back =>
      refine absurd (any_eq_true.mpr ⟨back, mem_of_getLast? hlast, ?_⟩) hlater
      simpa [hlast] using hback

variable (hq : q.Inv)

include hq

theorem Inv.mem_ready (hi : i ∈ q.allocatedList.items) (hwait : (q.entries i).inService = false) :
    i ∈ q.readyList.items :=
  (hq.ready.mem i).mpr ⟨hi, hwait⟩

theorem Inv.exists_free (hfull : q.isFull = false) : ∃ i freeList, q.freeList = i :: freeList := by
  apply exists_cons_of_ne_nil
  intro hnil
  -- then all entries are allocated
  have hall : ∀ i : Fin n, i ∈ q.allocatedList.items := by
    intro i
    by_contra hno
    have hfree := (hq.alloc.mem_free i).mpr hno
    rw [hnil] at hfree
    cases hfree
  have hlen : n ≤ q.allocatedList.items.length := by
    have hsub : finRange n ⊆ q.allocatedList.items := fun i _ => hall i
    simpa using (nodup_finRange n).subperm hsub |>.length_le
  rw [isFull, decide_eq_false_iff_not, hq.alloc.length] at hfull
  omega

theorem Inv.allocate (hfull : q.isFull = false) (blkSize : ℕ) (pkt : Packet) (whenReady order : ℕ)
    (allocOnFill : Bool) :
    ∃ q' i, q.allocate blkSize pkt whenReady order allocOnFill = some (q', i) ∧ q'.Inv := by
  obtain ⟨i, freeList, hfree⟩ := hq.exists_free hfull
  have hnone : (q.entries i).getNumTargets = 0 :=
    hq.free_targets i (by rw [hfree]; exact mem_cons_self)
  have hdeferred : (q.entries i).deferredTargets.list = [] := by
    rw [getNumTargets] at hnone
    exact length_eq_zero_iff.mp (by omega)
  have halloc := hq.alloc
  rw [hfree] at halloc
  have hnew : i ∉ q.allocatedList.items := (halloc.mem_free i).mp mem_cons_self
  set m : MSHR := { (q.entries i).allocate blkSize pkt whenReady order allocOnFill with
    allocIter := q.allocatedList.fresh, readyIter := q.readyList.fresh } with hm
  set q1 : Queue n := { q with freeList := freeList }.setEntry i m with hq1
  obtain ⟨p, hp⟩ := addToReadyList_eq q1 i
  refine ⟨{ q1 with
    allocatedList := q.allocatedList.pushBack i
    readyList := q.readyList.insertWhere p i
    allocated := q.allocated + 1 }, i, ?_, ⟨?_, ?_⟩, ?_,
    hq.marked_setEntry (TargetList.marked_init hdeferred)⟩
  · rw [Queue.allocate, hfree]
    simp only [hnone, ne_eq]
    rw [← hm, hp]
    rfl
  · show AllocOk _ _ (fun j => ((q.setEntry i m).entries j).allocIter) _
    rw [comp_setEntry allocIter]
    exact halloc.push
  · show ReadyOk _ (q.allocatedList.pushBack i).items (fun j => ((q.setEntry i m).entries j).inService)
      (fun j => ((q.setEntry i m).entries j).readyIter) _
    rw [items_pushBack, comp_setEntry inService, comp_setEntry readyIter]
    exact hq.ready.push hnew
  · intro j hj
    have hne : j ≠ i := by
      rintro rfl
      exact (nodup_cons.mp halloc.free_nodup).1 hj
    have hold : q1.entries j = q.entries j := entries_setEntry_of_ne _ m hne
    rw [hold]
    exact hq.free_targets j (by rw [hfree]; exact mem_cons_of_mem i hj)

variable (hi : i ∈ q.allocatedList.items)

include hi

theorem Inv.readyWithout_eq :
    ∃ l, q.readyWithout i = some l ∧ l.items.Nodup ∧ l.items.Sublist q.readyList.items ∧
      (∀ j, j ∈ l.items ↔ j ∈ q.readyList.items ∧ j ≠ i) ∧
      ∀ j ∈ l.items, l.deref (q.entries j).readyIter = some j := by
  rw [readyWithout]
  split_ifs with hserved
  · refine ⟨q.readyList, rfl, hq.ready.nodup, .refl _, ?_, hq.ready.iter⟩
    intro j
    refine ⟨fun hj => ⟨hj, ?_⟩, And.left⟩
    rintro rfl
    have hwait := ((hq.ready.mem j).mp hj).2
    rw [hserved] at hwait
    cases hwait
  · have hready := hq.mem_ready hi (Bool.not_eq_true _ ▸ hserved)
    obtain ⟨l, hl, hperm, hsub, hderef⟩ := erase_eq (hq.ready.iter i hready)
    have hparts := nodup_cons.mp (hperm.nodup_iff.mp hq.ready.nodup)
    have hiter := Indexed.erase hq.ready.iter hq.ready.nodup hperm hderef (q.entries i).readyIter
    rw [update_entries readyIter rfl] at hiter
    refine ⟨l, hl, hparts.2, hsub, ?_, hiter⟩
    intro j
    rw [hperm.mem_iff, mem_cons]
    constructor
    · intro hj
      exact ⟨.inr hj, fun heq => hparts.1 (heq ▸ hj)⟩
    · rintro ⟨rfl | hj, hne⟩
      · exact absurd rfl hne
      · exact hj

theorem Inv.deallocate (htargets : (q.entries i).targets.list = [])
    (hreset : (q.entries i).deferredTargets.isReset) : ∃ q', q.deallocate i = some q' ∧ q'.Inv := by
  obtain ⟨allocatedList, hallocated, hperm, -, hderef⟩ := erase_eq (hq.alloc.iter i hi)
  obtain ⟨readyList, hready, hnodup, -, hmem, hiter⟩ := hq.readyWithout_eq hi
  set m : MSHR := { q.entries i with
    targets := (q.entries i).targets.resetFlags, inService := false } with hm
  have hdealloc : (q.entries i).deallocate = some m := by
    rw [MSHR.deallocate, if_pos ⟨htargets, hreset⟩]
  refine ⟨_, by rw [Queue.deallocate, hallocated, hready, hdealloc]; rfl, ⟨?_, ?_⟩, ?_, ?_⟩
  · show AllocOk _ _ (fun j => ((q.setEntry i m).entries j).allocIter) _
    rw [comp_setEntry allocIter]
    exact hq.alloc.erase hperm hderef _
  · show ReadyOk _ _ (fun j => ((q.setEntry i m).entries j).inService)
      (fun j => ((q.setEntry i m).entries j).readyIter) _
    rw [comp_setEntry inService, comp_setEntry readyIter, update_entries readyIter rfl]
    exact hq.ready.pop hperm hq.alloc.nodup hnodup hmem hiter
  · intro j hj
    show ((q.setEntry i m).entries j).getNumTargets = 0
    rcases eq_or_ne j i with rfl | hne
    · have hdeferred := ((hq.marked j).reset hreset).1
      simp [hm, getNumTargets, TargetList.resetFlags, htargets, hdeferred]
    · rw [entries_setEntry_of_ne q m hne]
      exact hq.free_targets j (mem_of_ne_of_mem hne hj)
  · exact hq.marked_setEntry (hq.marked i)

theorem Inv.markInService (hwait : (q.entries i).inService = false) :
    ∃ q', q.markInService i = some q' ∧ q'.Inv := by
  have hready := hq.mem_ready hi hwait
  obtain ⟨l, hl, hperm, -, hderef⟩ := erase_eq (hq.ready.iter i hready)
  set m : MSHR := { q.entries i with inService := true } with hm
  have hmark : (q.entries i).markInService = some m := by
    rw [MSHR.markInService, hwait]
    rfl
  have hleave := hq.ready.leave hq.alloc.nodup hready hperm hderef m.readyIter
  refine ⟨_, ?_, hq.setReady (m := m) hi rfl (hq.marked i) hleave⟩
  rw [Queue.markInService, hmark, bind_eq_bind, bind_some, hl]
  rfl

theorem Inv.markPending (hserved : (q.entries i).inService = true) :
    ∃ q', q.markPending i = some q' ∧ q'.Inv := by
  set m : MSHR := { q.entries i with inService := false, readyIter := q.readyList.fresh } with hm
  obtain ⟨p, hp⟩ := addToReadyList_eq (q.setEntry i m) i
  have henter := hq.ready.enter (p := p) hq.alloc.nodup hi hserved
  refine ⟨_, ?_, hq.setReady (m := m) hi rfl (hq.marked i) henter⟩
  rw [Queue.markPending, hserved]
  simp only [Bool.not_true]
  rw [hp]
  rfl

theorem Inv.moveToFront : ∃ q', q.moveToFront i = some q' ∧ q'.Inv := by
  rw [Queue.moveToFront]
  split_ifs with hserved hderef
  · exact ⟨q, rfl, hq⟩
  · have hready := hq.mem_ready hi (Bool.not_eq_true _ ▸ hserved)
    exact absurd (hq.ready.iter i hready) hderef
  · have hready := hq.mem_ready hi (Bool.not_eq_true _ ▸ hserved)
    obtain ⟨l, hl, hperm, -, hderef⟩ := erase_eq (hq.ready.iter i hready)
    set m : MSHR := { q.entries i with readyIter := l.fresh } with hm
    refine ⟨{ q with readyList := l.pushFront i }.setEntry i m, ?_,
      hq.setReady (m := m) hi rfl (hq.marked i) ?_⟩
    · rw [hl, bind_eq_bind, bind_some]
    · rw [update_entries inService rfl]
      exact hq.ready.move hperm hderef

/-- **A delayed entry stays where it is**: the search for its new place starts with the
entry itself. -/
theorem Inv.delay_eq (hwait : (q.entries i).inService = false)
    (htime : (q.entries i).readyTime ≤ q.curTick) (ticks : ℕ) :
    q.delay i ticks = some (q.setEntry i { q.entries i with readyTime := q.curTick + ticks }) := by
  have hready := hq.mem_ready hi hwait
  set m : MSHR := { q.entries i with readyTime := q.curTick + ticks } with hm
  have hdelay : (q.entries i).delay q.curTick ticks = some m := by
    rw [MSHR.delay, if_pos htime]
  have hfind : (q.setEntry i m).readyList.findFrom m.readyIter
      (fun j => (q.setEntry i m).readyTime j ≤ m.readyTime) = some (some m.readyIter) := by
    apply findFrom_self (hq.ready.iter i hready)
    rw [readyTime, entries_setEntry_self]
    exact decide_eq_true le_rfl
  rw [delay, hdelay]
  simp only [bind_eq_bind, bind_some]
  rw [hfind, bind_some, NodeList.splice, if_pos rfl, bind_some]

theorem Inv.delay (hwait : (q.entries i).inService = false)
    (htime : (q.entries i).readyTime ≤ q.curTick) (ticks : ℕ) :
    ∃ q', q.delay i ticks = some q' ∧ q'.Inv :=
  ⟨_, hq.delay_eq hi hwait htime ticks, hq.setEntry hi rfl rfl rfl (hq.marked i)⟩

end Queue

/-! ## Promotion of deferred targets -/

theorem MSHR.sublist_promoted (targets deferred : List Target) :
    (promoted targets deferred).2.Sublist deferred := by
  simp only [promoted]
  split_ifs
  · exact dropWhile_sublist _
  · exact drop_sublist _ _
  · exact .refl _

theorem MSHR.promoted_ne_nil {targets deferred : List Target}
    (h : ¬ (targets = [] ∧ deferred = [])) : (promoted targets deferred).1 ≠ [] := by
  simp only [promoted]
  split_ifs with hfirst htargets
  · exact append_ne_nil_of_right_ne_nil _ (by simpa using hfirst)
  · have hnil : targets = [] := isEmpty_iff.mp htargets
    simpa using fun hdeferred => h ⟨hnil, hdeferred⟩
  · simpa using htargets

/-- Promoting keeps what the queue knows of an entry; there is nothing to promote only if
both lists are empty. -/
theorem MSHR.promoteDeferredTargets_eq (hm : m.deferredTargets.Marked) (curTick : ℕ) :
    ∃ more m', m.promoteDeferredTargets curTick = some (more, m') ∧
      m'.inService = m.inService ∧ m'.allocIter = m.allocIter ∧ m'.readyIter = m.readyIter ∧
      m'.deferredTargets.Marked ∧
      (more = false → m' = m ∧ m.targets.list = [] ∧ m.deferredTargets.list = []) := by
  rw [promoteDeferredTargets]
  by_cases hempty : m.targets.list = [] ∧ m.deferredTargets.list = []
  · refine ⟨false, m, ?_, rfl, rfl, rfl, hm, fun _ => ⟨rfl, hempty⟩⟩
    simp [hempty.1, hempty.2]
  · have htest : ¬ (m.targets.list.isEmpty && m.deferredTargets.list.isEmpty) = true := by
      simpa using hempty
    obtain ⟨front, rest, hfront⟩ := exists_cons_of_ne_nil (promoted_ne_nil hempty)
    have hsub := sublist_promoted m.targets.list m.deferredTargets.list
    refine ⟨true, { m with
      targets := TargetList.populateFlags { m.targets with list := front :: rest }
      deferredTargets := TargetList.populateFlags { m.deferredTargets with
        list := (promoted m.targets.list m.deferredTargets.list).2 }
      order := front.order
      readyTime := max curTick front.readyTime }, ?_, rfl, rfl, rfl, ?_, fun h => by cases h⟩
    · rw [if_neg htest]
      simp only [hfront]
    · refine TargetList.marked_populateFlags ?_ ?_
      · intro t ht
        exact hm.fromCPU t (hsub.subset ht)
      · intro hne
        apply hm.bitmap
        intro hnil
        have hshort := hsub.length_le
        rw [length_eq_zero_iff.mpr hnil] at hshort
        exact hne (length_eq_zero_iff.mp (Nat.le_zero.mp hshort))

namespace Queue

variable {n : ℕ} {q : Queue n} {i : Fin n}

theorem Inv.forceDeallocateTarget (hq : q.Inv) (hi : i ∈ q.allocatedList.items)
    (htargets : (q.entries i).hasTargets) :
    ∃ q' notFull, q.forceDeallocateTarget i = some (q', notFull) ∧ q'.Inv := by
  suffices hstep : ∃ q', q.dropTarget i = some q' ∧ q'.Inv by
    obtain ⟨q', hq', hinv⟩ := hstep
    refine ⟨q', q.isFull && !q'.isFull, ?_, hinv⟩
    rw [Queue.forceDeallocateTarget, htargets, hq']
    rfl
  set m := (q.entries i).popTarget with hm
  have hpop : (q.setEntry i m).Inv := hq.setEntry hi rfl rfl rfl (hq.marked i)
  simp only [dropTarget]
  split_ifs with hmore
  · exact ⟨_, rfl, hpop⟩
  · obtain ⟨more, m', hpromote, hserved, halloc, hready, hmarked, hnone⟩ :=
      promoteDeferredTargets_eq (m := m) (hq.marked i) q.curTick
    rw [← hm, hpromote]
    cases more with
    | true => exact ⟨_, rfl, hq.setEntry hi hserved halloc hready hmarked⟩
    | false =>
      -- no target is left, so the entry goes
      obtain ⟨rfl, hnil, hdeferred⟩ := hnone rfl
      refine hpop.deallocate hi ?_ ?_
      · rw [entries_setEntry_self]
        exact hnil
      · rw [entries_setEntry_self]
        exact (hq.marked i).empty hdeferred

/-- **Every allowed step** succeeds and keeps the invariant. -/
theorem Inv.step (hq : q.Inv) {a : Step n} (ha : q.Allowed a) : ∃ q', q.step a = some q' ∧ q'.Inv := by
  obtain ⟨hassert, hready⟩ := ha
  cases a with
  | allocate blkSize pkt whenReady order allocOnFill =>
    obtain ⟨q', i, hstep, hinv⟩ := hq.allocate hassert blkSize pkt whenReady order allocOnFill
    exact ⟨q', by rw [Queue.step, hstep, map_some], hinv⟩
  | deallocate i => exact hq.deallocate hassert.1 hassert.2.1 hassert.2.2
  | markInService i => exact hq.markInService hassert.1 hassert.2
  | markPending i => exact hq.markPending hassert.1 hassert.2
  | delay i ticks => exact hq.delay hassert.1 (hready i ticks rfl) hassert.2 ticks
  | moveToFront i => exact hq.moveToFront hassert
  | forceDeallocateTarget i =>
    obtain ⟨q', notFull, hstep, hinv⟩ := hq.forceDeallocateTarget hassert.1 hassert.2
    exact ⟨q', by rw [Queue.step, hstep, map_some], hinv⟩
  | advance ticks => exact ⟨_, rfl, ⟨hq.alloc, hq.ready⟩, hq.free_targets, hq.marked⟩
  | allocateTarget i deferred t =>
    refine ⟨_, rfl, ?_⟩
    cases deferred with
    | true => exact hq.setEntry hassert.1 rfl rfl rfl ((hq.marked i).add hassert.2.1 hassert.2.2)
    | false => exact hq.setEntry hassert.1 rfl rfl rfl (hq.marked i)
  | extractServiceableTargets i rest =>
    exact ⟨_, rfl, hq.setEntry hassert.1 rfl rfl rfl (hq.marked i)⟩
  | promoteDeferredTargets i =>
    obtain ⟨more, m', hpromote, hserved, halloc, hiter, hmarked, -⟩ :=
      promoteDeferredTargets_eq (hq.marked i) q.curTick
    refine ⟨q.setEntry i m', ?_, hq.setEntry hassert.1 hserved halloc hiter hmarked⟩
    rw [Queue.step, hpromote, map_some]

end Queue

/-- **The lists of the queue stay partitioned**: in every run of allowed steps no assert fails,
`addToReadyList` does not panic, no dangling iterator is used, and the lists, counters and
iterators belong together. -/
theorem run_partitioned (numEntries reserve : ℕ) {as : List (Step (numEntries + reserve))}
    (hallowed : AllowedSteps step Queue.Allowed (new numEntries reserve) as) :
    ∃ q, runSteps step (new numEntries reserve) as = some q ∧ q.Partitioned := by
  obtain ⟨q, hrun, hinv⟩ := AllowedSteps.run (fun _ _ hq ha => Queue.Inv.step hq ha)
    (inv_new numEntries reserve) hallowed
  exact ⟨q, hrun, hinv.toPartitioned⟩

/-- A read request of the CPU. -/
def readReq : Packet where
  isHardPFReq := false
  needsWritable := false
  isUpgrade := false
  fromCache := false
  isWrite := false
  isMaskedWrite := false
  noMerge := false
  isCacheMaintenance := false
  offset := 0
  size := 4
  write_attributes := by decide

/-- An entry is delayed, sent and sent again. -/
theorem run_partitioned_resend : ∃ q, runSteps step (new 1 1)
        [.allocate 64 readReq 0 0 true, .delay 0 5, .markInService 0, .markPending 0] = some q ∧
      q.Partitioned := by
  refine run_partitioned 1 1 (.cons ⟨rfl, nofun⟩ rfl ?_)
  refine .cons ⟨⟨by decide, Nat.le_refl 0⟩, ?_⟩ rfl ?_
  · rintro i ticks h
    cases h
    rfl
  refine .cons ⟨⟨by decide, rfl⟩, nofun⟩ rfl ?_
  exact .cons ⟨⟨by decide, rfl⟩, nofun⟩ rfl trivial

/-- The assert of `delay` holds of an entry in service, but its place in the ready list is
gone. -/
theorem delay_in_service_dangling : AllowedSteps step Queue.Asserts (new 1 0)
        [.allocate 64 readReq 0 0 true, .markInService 0, .delay 0 5] ∧
      runSteps step (new 1 0)
        [.allocate 64 readReq 0 0 true, .markInService 0, .delay 0 5] = none := by
  refine ⟨.cons rfl rfl (.cons ⟨by decide, rfl⟩ rfl ?_), rfl⟩
  refine ⟨⟨by decide, Nat.le_refl 0⟩, ?_⟩
  rintro q hq
  trivial

end MSHRQueue
