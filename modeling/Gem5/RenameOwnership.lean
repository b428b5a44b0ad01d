/-
# Conservation of physical registers

Every physical register of a renameable class has exactly one owner at all
times: its free list, one entry of one thread's rename map, one history entry
that will free it at commit, or one thread's list of registers being freed.

`Inv` fixes the count of the places for every register and adds that every history
can be rolled back.
-/
import Gem5.RenameSpec

open Function List
open RenameHistory

/-! ## Sums and updates -/

variable {ι β : Type*}

/-- Replacing one component of a family exchanges its contribution to a sum. -/
theorem sum_update_add [Fintype ι] [DecidableEq ι] (f : ι → β) (i : ι) (v : β)
    (g : β → ℕ) : (∑ j, g (update f i v j)) + g (f i) = (∑ j, g (f j)) + g v := by
  have hcomp : ∀ j, g (update f i v j) = update (g ∘ f) i (g v) j := by
    intro j
    by_cases hj : j = i
    · subst hj
      simp
    · simp [hj]
  have hsplit := Finset.add_sum_erase Finset.univ (g ∘ f) (Finset.mem_univ i)
  simp only [hcomp, Finset.sum_update_of_mem (Finset.mem_univ i), Finset.sdiff_singleton_eq_erase]
  simp only [comp_apply] at hsplit ⊢
  omega

/-- Overwriting an element exchanges one occurrence. -/
theorem count_set_add {β : Type*} [DecidableEq β] {l : List β} {i : ℕ} {x : β} (y : β)
    (h : l[i]? = some x) (z : β) : (l.set i y).count z + [x].count z = l.count z + [y].count z := by
  induction l generalizing i with
  | nil => simp at h
  | cons a l ih =>
    cases i with
    | zero =>
      obtain rfl : a = x := by simpa using h
      simp only [set_cons_zero, count_cons]
      omega
    | succ i =>
      have ih := ih (by simpa using h)
      simp only [set_cons_succ, count_cons] at ih ⊢
      omega

namespace Rename

variable {n : ℕ} {s s' : Rename n} {tid : Fin n} {p : PhysRegId} {m : RenameMap}
  {h : List RenameHistory} {r : RegId} {params : Params}

/-! ## Owners -/

section

variable (s : Rename n)

section

variable (p : PhysRegId)

/-- How often the register stands on the free lists. -/
def inFreeList : ℕ := ∑ c, (s.freeList c).count p

/-- How often one rename map maps an architectural register to it. -/
def inMap (m : RenameMap) (p : PhysRegId) : ℕ := ∑ c, (m c).count p

/-- How many entries of the threads' rename maps are the register. -/
def inRenameMaps : ℕ := ∑ t, inMap (s.renameMap t) p

/-- How many history entries that were a change have it as previous register. -/
def inHistory : ℕ := ∑ t, (held (s.historyBuffer t)).count p

/-- How often it waits to be freed. -/
def inFreeing : ℕ := ∑ t, (s.freeingInProgress t).count p

/-- The number of places that hold the register. -/
def owners : ℕ :=
  s.inFreeList p + s.inRenameMaps p + s.inHistory p + s.inFreeing p

end

end

/-! ## How updates move a register -/

theorem inMap_set {prev : PhysRegId} (new : PhysRegId)
    (hprev : (m r.classValue)[r.index]? = some prev) (p : PhysRegId) :
    inMap (m.set r new) p + [prev].count p = inMap m p + [new].count p := by
  have hsum := sum_update_add m r.classValue ((m r.classValue).set r.index new) (·.count p)
  have hcount := count_set_add new hprev p
  simp only [inMap, RenameMap.set] at hsum ⊢
  omega

theorem sum_count_filter_class (ps : List PhysRegId) (p : PhysRegId) :
    ∑ c, (ps.filter (·.classValue = c)).count p = ps.count p := by
  have hc : ∀ c, (ps.filter (·.classValue = c)).count p
      = if p.classValue = c then ps.count p else 0 := by
    intro c
    split
    · rename_i h
      exact count_filter (by simpa using h)
    · rename_i h
      rw [count_eq_zero]
      intro hmem
      exact h (by simpa using of_mem_filter hmem)
  simp [hc]

theorem inFreeList_addAll (f : RegClassType → List PhysRegId) (ps : List PhysRegId)
    (p : PhysRegId) : ∑ c, (addAll f ps c).count p = (∑ c, (f c).count p) + ps.count p := by
  simp [addAll, Finset.sum_add_distrib, sum_count_filter_class]

theorem held_append (h h' : List RenameHistory) : held (h ++ h') = held h ++ held h' := by
  simp [held]

/-- Undoing entries puts what they held back into the map, and takes what they
gained out of it. -/
theorem inMap_foldl_undo (hu : Undoable m h) (p : PhysRegId) :
    inMap (h.foldl undo m) p + (gained h).count p = inMap m p + (held h).count p := by
  induction h generalizing m with
  | nil => simp [held, gained]
  | cons hb h ih =>
    have ih := ih hu.2
    by_cases hc : hb.isChange
    · obtain ⟨-, hget, -⟩ := hu.1 hc
      have hset := inMap_set hb.prevPhysReg hget p
      simp only [undo, hc, foldl_cons] at ih ⊢
      simp only [held, gained, filter_cons, hc, if_true, map_cons, count_cons] at ih hset ⊢
      omega
    · simpa [held, gained, undo, hc] using ih

/-! ## The invariant -/

/-- The register is one of the register file's renameable registers. -/
def IsPhysReg (numPhysRegs : RegClassType → ℕ) (p : PhysRegId) : Prop :=
  p.classValue.isRenameable ∧ p.index < numPhysRegs p.classValue

instance (numPhysRegs : RegClassType → ℕ) (p : PhysRegId) :
    Decidable (IsPhysReg numPhysRegs p) :=
  inferInstanceAs (Decidable (_ ∧ _))

/-- The entries of a rename map are of the class they stand for. -/
def MapClass (m : RenameMap) : Prop := ∀ c, ∀ q ∈ m c, q.classValue = c

/-- **Ownership invariant.** -/
structure Inv (numPhysRegs : RegClassType → ℕ) (s : Rename n) : Prop where
  owners_eq : ∀ p, s.owners p = if IsPhysReg numPhysRegs p then 1 else 0
  freeClass : ∀ c, ∀ q ∈ s.freeList c, q.classValue = c
  mapClass : ∀ t, MapClass (s.renameMap t)
  undoable : ∀ t, Undoable (s.renameMap t) (s.historyBuffer t)

theorem MapClass.set (hm : MapClass m) {q : PhysRegId}
    (hq : q.classValue = r.classValue) : MapClass (m.set r q) := by
  intro c q' hq'
  by_cases hc : c = r.classValue
  · subst hc
    simp only [RenameMap.set, update_self] at hq'
    rcases mem_or_eq_of_mem_set hq' with hmem | rfl
    · exact hm _ _ hmem
    · exact hq
  · simp only [RenameMap.set, update_of_ne hc] at hq'
    exact hm _ _ hq'

theorem MapClass.foldl_undo (hm : MapClass m) (hu : Undoable m h) : MapClass (h.foldl undo m) := by
  induction h generalizing m with
  | nil => exact hm
  | cons hb h ih =>
    refine ih ?_ hu.2
    by_cases hc : hb.isChange
    · simpa [undo, hc] using hm.set (hu.1 hc).2.2
    · simpa [undo, hc] using hm

theorem addAll_class {f : RegClassType → List PhysRegId} (hf : ∀ c, ∀ q ∈ f c, q.classValue = c)
    (ps : List PhysRegId) : ∀ c, ∀ q ∈ addAll f ps c, q.classValue = c := by
  intro c q hq
  rcases mem_append.mp hq with h | h
  · exact hf c q h
  · simpa using of_mem_filter h

theorem forall_update [DecidableEq ι] {f : ι → β} {i : ι} {v : β} {P : ι → β → Prop}
    (hf : ∀ j, P j (f j)) (hv : P i v) : ∀ j, P j (update f i v j) := by
  intro j
  by_cases hj : j = i
  · subst hj
    simpa using hv
  · simpa [hj] using hf j

namespace Inv

variable {numPhysRegs : RegClassType → ℕ} {sn : InstSeqNum} {a : Step n}

/-! ## Every step keeps it -/

variable (hi : Inv numPhysRegs s)

include hi

theorem setPins (pins : PhysRegId → Pins) : Inv numPhysRegs { s with pins := pins } :=
  ⟨hi.owners_eq, hi.freeClass, hi.mapClass, hi.undoable⟩

/-- A register on the free list is not in a rename map. -/
theorem ne_of_free_of_mapped {c c' : RegClassType} {q q' : PhysRegId} (hfree : q ∈ s.freeList c)
    (hmap : q' ∈ s.renameMap tid c') : q ≠ q' := by
  rintro rfl
  have h1 : (s.freeList c).count q ≤ s.inFreeList q :=
    Finset.single_le_sum (f := fun c => (s.freeList c).count q) (by simp) (Finset.mem_univ c)
  have h2 : (s.renameMap tid c').count q ≤ inMap (s.renameMap tid) q :=
    Finset.single_le_sum (f := fun c => (s.renameMap tid c).count q) (by simp)
      (Finset.mem_univ c')
  have h3 : inMap (s.renameMap tid) q ≤ s.inRenameMaps q :=
    Finset.single_le_sum (f := fun t => inMap (s.renameMap t) q) (by simp) (Finset.mem_univ tid)
  have hf := count_pos_iff.mpr hfree
  have hm := count_pos_iff.mpr hmap
  have ho := hi.owners_eq q
  unfold owners at ho
  split at ho <;> omega

/-- A history entry that was not a change holds nothing. -/
theorem pushSame {hb : RenameHistory} (hc : ¬ hb.isChange) :
    Inv numPhysRegs (s.pushHistory tid hb) where
  owners_eq q := by
    have hheld : held (hb :: s.historyBuffer tid) = held (s.historyBuffer tid) := by
      simp [held, hc]
    have hsum := sum_update_add s.historyBuffer tid (hb :: s.historyBuffer tid)
      (fun h => (held h).count q)
    have ho := hi.owners_eq q
    simp only [owners, inFreeList, inRenameMaps, inHistory, inFreeing, pushHistory, hheld]
      at hsum ho ⊢
    omega
  freeClass := hi.freeClass
  mapClass := hi.mapClass
  undoable := by
    refine forall_update (P := fun t h => Undoable (s.renameMap t) h) hi.undoable ⟨?_, ?_⟩
    · exact fun h => absurd h hc
    · simpa [undo, hc] using hi.undoable tid

/-- Updating the map and the history of one thread keeps every history
undoable if it keeps this thread's. -/
theorem undoable_update (hu : Undoable m h) (t : Fin n) :
    Undoable (update s.renameMap tid m t) (update s.historyBuffer tid h t) := by
  by_cases ht : t = tid
  · subst ht
    simpa using hu
  · simpa [ht] using hi.undoable t

theorem renameDestReg {info : RenameInfo}
    (h : s.renameDestReg tid sn r = some (info, s')) : Inv numPhysRegs s' := by
  obtain ⟨⟨info, s1⟩, hren, h⟩ := Option.bind_eq_some_iff.mp h
  cases h
  rcases renameReg_cases hren with ⟨hsame, pins, rfl⟩ | ⟨hr, hprev, rest, pins, hfree, rfl⟩
  · exact (hi.setPins pins).pushSame (by simp [isChange, hsame])
  · have hnew : info.newPhysReg ∈ s.freeList r.classValue := by simp [hfree]
    have hold := mem_of_getElem? hprev
    have hne := hi.ne_of_free_of_mapped hnew hold
    constructor
    · intro q
      have hmap := sum_update_add s.renameMap tid ((s.renameMap tid).set r info.newPhysReg)
        (inMap · q)
      have hset := inMap_set info.newPhysReg hprev q
      have hlist := sum_update_add s.freeList r.classValue rest (·.count q)
      have hhist := sum_update_add s.historyBuffer tid
        (⟨sn, r, info.newPhysReg, info.prevPhysReg⟩ :: s.historyBuffer tid)
        (fun h => (held h).count q)
      have ho := hi.owners_eq q
      simp only [hfree, held, filter_cons, isChange, hne, ne_eq, not_false_eq_true, decide_true,
        if_true, map_cons, count_cons]
        at hset hlist hhist
      simp only [owners, inFreeList, inRenameMaps, inHistory, inFreeing, pushHistory, held] at ho ⊢
      omega
    · refine forall_update (P := fun c (l : List PhysRegId) => ∀ q ∈ l, q.classValue = c)
        hi.freeClass ?_
      intro q hq
      exact hi.freeClass _ q (by simp [hfree, hq])
    · exact forall_update hi.mapClass ((hi.mapClass tid).set (hi.freeClass _ _ hnew))
    · refine hi.undoable_update ⟨fun _ => ⟨hr, ?_, hi.mapClass tid _ _ hold⟩, ?_⟩
      · obtain ⟨hlt, -⟩ := List.getElem?_eq_some_iff.mp hprev
        simp [RenameMap.set, hlt]
      · have hundo : ((s.renameMap tid).set r info.newPhysReg).set r info.prevPhysReg
            = s.renameMap tid := RenameMap.set_set_self hprev
        simpa [undo, isChange, hne, hundo] using hi.undoable tid

theorem renameDestRegsLoop {rs : List RegId} {infos : List (RegId × RenameInfo)}
    (h : s.renameDestRegsLoop tid sn rs = some (infos, s')) : Inv numPhysRegs s' := by
  induction rs generalizing s infos with
  | nil =>
    cases h
    exact hi
  | cons r rs ih =>
    obtain ⟨⟨info, s1⟩, h1, h⟩ := Option.bind_eq_some_iff.mp h
    obtain ⟨⟨infos1, s2⟩, h2, h⟩ := Option.bind_eq_some_iff.mp h
    cases h
    exact ih (hi.renameDestReg h1) h2

theorem doSquash (h : s.doSquash sn tid = some s') : Inv numPhysRegs s' := by
  have hu := hi.undoable tid
  rw [doSquash_eq sn hu] at h
  cases h
  -- the history splits into the squashed entries and the rest
  have hsplit := takeWhile_append_dropWhile (p := (sn < ·.instSeqNum)) (l := s.historyBuffer tid)
  set young := (s.historyBuffer tid).takeWhile (sn < ·.instSeqNum)
  set old := (s.historyBuffer tid).dropWhile (sn < ·.instSeqNum)
  rw [← hsplit] at hu
  constructor
  · intro q
    have hmap := sum_update_add s.renameMap tid (young.foldl undo (s.renameMap tid)) (inMap · q)
    have hundo := inMap_foldl_undo hu.left q
    have hhist := sum_update_add s.historyBuffer tid old (fun h => (held h).count q)
    have hfreeing := sum_update_add s.freeingInProgress tid
      (s.freeingInProgress tid ++ gained young) (·.count q)
    have hheld : (held (s.historyBuffer tid)).count q = (held young).count q + (held old).count q := by
      rw [← hsplit, held_append, count_append]
    have ho := hi.owners_eq q
    simp only [count_append] at hfreeing
    simp only [owners, inFreeList, inRenameMaps, inHistory, inFreeing] at ho ⊢
    omega
  · exact hi.freeClass
  · exact forall_update hi.mapClass ((hi.mapClass tid).foldl_undo hu.left)
  · exact hi.undoable_update hu.right

theorem removeFromHistory (sn : InstSeqNum) (tid : Fin n) :
    Inv numPhysRegs (s.removeFromHistory sn tid) := by
  rw [removeFromHistory_eq]
  have hsplit : (s.historyBuffer tid).rdropWhile (·.instSeqNum ≤ sn)
      ++ (s.historyBuffer tid).rtakeWhile (·.instSeqNum ≤ sn) = s.historyBuffer tid := by
    rw [rdropWhile, rtakeWhile, ← reverse_append, takeWhile_append_dropWhile, reverse_reverse]
  set young := (s.historyBuffer tid).rdropWhile (·.instSeqNum ≤ sn)
  set old := (s.historyBuffer tid).rtakeWhile (·.instSeqNum ≤ sn)
  constructor
  · intro q
    have hfree := inFreeList_addAll s.freeList (held old.reverse) q
    have hrev : (held old.reverse).count q = (held old).count q := by
      simp [held]
    have hhist := sum_update_add s.historyBuffer tid young (fun h => (held h).count q)
    have hheld : (held (s.historyBuffer tid)).count q = (held young).count q + (held old).count q := by
      rw [← hsplit, held_append, count_append]
    have ho := hi.owners_eq q
    simp only [owners, inFreeList, inRenameMaps, inHistory, inFreeing] at ho ⊢
    omega
  · exact addAll_class hi.freeClass _
  · exact hi.mapClass
  · apply forall_update hi.undoable
    have hu := hi.undoable tid
    rw [← hsplit] at hu
    exact hu.left

theorem checkSignalsAndUpdate {info : CommitInfo} (h : s.checkSignalsAndUpdate tid info = some s') :
    Inv numPhysRegs s' := by
  rcases checkSignalsAndUpdate_cases h with ⟨-, hsq⟩ | ⟨-, rfl⟩ | ⟨-, rfl⟩
  · exact hi.doSquash hsq
  · refine ⟨?_, addAll_class hi.freeClass _, hi.mapClass, hi.undoable⟩
    intro q
    have hfree := inFreeList_addAll s.freeList (s.freeingInProgress tid) q
    have hfreeing := sum_update_add s.freeingInProgress tid [] (·.count q)
    have ho := hi.owners_eq q
    simp only [count_nil] at hfreeing
    simp only [owners, inFreeList, inRenameMaps, inHistory, inFreeing] at ho ⊢
    omega
  · exact hi

theorem step (h : s.step a = some s') : Inv numPhysRegs s' := by
  cases a with
  | renameDestRegs inst tid =>
    obtain ⟨⟨infos, s1⟩, hren, rfl⟩ := Option.map_eq_some_iff.mp h
    exact hi.renameDestRegsLoop hren
  | doSquash sn tid => exact hi.doSquash h
  | removeFromHistory sn tid =>
    cases h
    exact hi.removeFromHistory sn tid
  | checkSignalsAndUpdate tid info => exact hi.checkSignalsAndUpdate h
  | setPins reg pins =>
    cases h
    exact hi.setPins _

/-- The operations other than renaming never fail. -/
theorem step_isSome (ha : ∀ inst tid, a ≠ .renameDestRegs inst tid) : (s.step a).isSome := by
  cases a with
  | renameDestRegs inst tid => exact absurd rfl (ha inst tid)
  | doSquash sn tid => simp [Rename.step, doSquash_eq sn (hi.undoable tid)]
  | removeFromHistory sn tid => rfl
  | checkSignalsAndUpdate tid info =>
    simp only [Rename.step, Rename.checkSignalsAndUpdate]
    split
    · simp [doSquash_eq info.doneSeqNum (hi.undoable tid)]
    · split <;> rfl
  | setPins reg pins => rfl

end Inv

/-! ## The constructor establishes it -/

theorem count_initFreeList (numPhysRegs : RegClassType → ℕ) (c : RegClassType) (q : PhysRegId) :
    (initFreeList numPhysRegs c).count q
      = if q.classValue = c then if IsPhysReg numPhysRegs q then 1 else 0 else 0 := by
  have hnodup : (initFreeList numPhysRegs c).Nodup := by
    unfold initFreeList
    split
    · exact nodup_range.map fun i j hij => by simpa using hij
    · simp
  have hmem : q ∈ initFreeList numPhysRegs c ↔ q.classValue = c ∧ IsPhysReg numPhysRegs q := by
    unfold initFreeList IsPhysReg
    split
    · simp only [mem_map, mem_range]
      constructor
      · rintro ⟨i, hi, rfl⟩
        exact ⟨rfl, ‹_›, hi⟩
      · rintro ⟨rfl, -, hi⟩
        exact ⟨q.index, hi, rfl⟩
    · rename_i hc
      simp only [not_mem_nil, false_iff]
      rintro ⟨rfl, hr, -⟩
      exact hc hr
  rw [hnodup.count]
  split <;> simp_all

/-- Nothing is renamed yet. -/
def Fresh (s : Rename n) : Prop := ∀ t, s.historyBuffer t = []

theorem start_inv (params : Params) : Inv params.numPhysRegs (start n params) where
  owners_eq q := by
    simp [owners, inFreeList, inRenameMaps, inMap, inHistory, inFreeing, start, held,
      count_initFreeList]
  freeClass c q hq := by
    have hpos := count_pos_iff.mpr hq
    rw [start, count_initFreeList] at hpos
    split at hpos
    · assumption
    · omega
  mapClass t c q hq := by simp [start] at hq
  undoable t := trivial

theorem mapReg_inv {numPhysRegs : RegClassType → ℕ} {slot : Fin n × RegClassType}
    (hi : Inv numPhysRegs s ∧ s.Fresh) (h : s.mapReg slot = some s') :
    Inv numPhysRegs s' ∧ s'.Fresh := by
  obtain ⟨hi, hfresh⟩ := hi
  obtain ⟨⟨q, s1⟩, hget, h⟩ := Option.bind_eq_some_iff.mp h
  cases h
  unfold getReg at hget
  split at hget
  · cases hget
  · rename_i q rest hfree
    cases hget
    obtain ⟨tid, c⟩ := slot
    refine ⟨⟨?_, ?_, ?_, ?_⟩, hfresh⟩
    · intro q'
      have hlist := sum_update_add s.freeList c rest (·.count q')
      have hmap := sum_update_add s.renameMap tid
        (update (s.renameMap tid) c (s.renameMap tid c ++ [q])) (inMap · q')
      have hin := sum_update_add (s.renameMap tid) c (s.renameMap tid c ++ [q]) (·.count q')
      have ho := hi.owners_eq q'
      simp only [hfree, count_append, count_cons, count_nil] at hlist hin
      simp only [inMap] at hmap hin
      simp only [owners, inFreeList, inRenameMaps, inMap, inHistory, inFreeing] at ho ⊢
      omega
    · refine forall_update (P := fun c (l : List PhysRegId) => ∀ q ∈ l, q.classValue = c)
        hi.freeClass ?_
      intro q' hq'
      exact hi.freeClass _ q' (by simp [hfree, hq'])
    · apply forall_update hi.mapClass
      refine forall_update (P := fun c (l : List PhysRegId) => ∀ q ∈ l, q.classValue = c)
        (hi.mapClass tid) ?_
      intro q' hq'
      rcases mem_append.mp hq' with hq' | hq'
      · exact hi.mapClass tid c q' hq'
      · obtain rfl := mem_singleton.mp hq'
        exact hi.freeClass c q' (by simp [hfree])
    · intro t
      simp only [hfresh t]
      trivial

theorem init_inv (h : init n params = some s) : Inv params.numPhysRegs s ∧ s.Fresh := by
  unfold init at h
  split at h
  · cases h
  · exact runSteps_invariant (I := fun s => Inv params.numPhysRegs s ∧ s.Fresh)
      (fun _ _ _ => mapReg_inv) ⟨start_inv params, fun _ => rfl⟩ h

theorem run_inv {s0 : Rename n} {steps : List (Step n)} (hinit : init n params = some s0)
    (hrun : runSteps step s0 steps = some s) : Inv params.numPhysRegs s :=
  runSteps_invariant (fun _ _ _ hi h => hi.step h) (init_inv hinit).1 hrun

/-- **Conservation of physical registers.**  In every state a run of the rename
stage reaches, every renameable physical register stands in exactly one place,
free lists and maps only hold registers of their own class, and no operation
other than a rename can fail. -/
theorem physReg_conservation {params : Params} {s₀ : Rename n} {steps : List (Step n)}
    (hinit : init n params = some s₀) (hrun : runSteps step s₀ steps = some s) :
    (∀ p : PhysRegId, p.classValue.isRenameable → p.index < params.numPhysRegs p.classValue →
      s.inFreeList p + s.inRenameMaps p + s.inHistory p + s.inFreeing p = 1) ∧
    (∀ c, ∀ p ∈ s.freeList c, p.classValue = c) ∧ (∀ t c, ∀ p ∈ s.renameMap t c, p.classValue = c) ∧
    (∀ a : Step n, (∀ inst tid, a ≠ .renameDestRegs inst tid) → (s.step a).isSome) := by
  have hi := run_inv hinit hrun
  refine ⟨?_, hi.freeClass, hi.mapClass, fun a ha => hi.step_isSome ha⟩
  intro p hclass hindex
  have ho := hi.owners_eq p
  rwa [if_pos ⟨hclass, hindex⟩] at ho

/-- Two threads with one integer register each and six physical registers. -/
def twoThreads : Params where
  activeThreads := 2
  numPhysRegs c := if c = .IntRegClass then 6 else 0
  numRegs c := if c = .IntRegClass then 1 else 0

attribute [local instance] neZero_two

/-- A pinned rename and its second write, a commit of the first, a rename by
the other thread that is squashed, and the delayed free. -/
def twoThreadsSteps : List (Step 2) :=
  [.renameDestRegs ⟨1, [⟨.IntRegClass, 0, 1⟩]⟩ 0,
   .renameDestRegs ⟨2, [⟨.IntRegClass, 0, 0⟩, ⟨.MiscRegClass, 7, 0⟩]⟩ 0,
   .renameDestRegs ⟨3, [⟨.IntRegClass, 0, 0⟩, ⟨.IntRegClass, 0, 0⟩]⟩ 1,
   .removeFromHistory 1 0,
   .checkSignalsAndUpdate 1 ⟨true, 2, true⟩,
   .checkSignalsAndUpdate 1 ⟨false, 2, false⟩]

theorem physReg_conservation_two_threads :
    ∃ s₀ s, init 2 twoThreads = some s₀ ∧ runSteps step s₀ twoThreadsSteps = some s ∧
      s.inFreeList ⟨.IntRegClass, 0⟩ + s.inRenameMaps ⟨.IntRegClass, 0⟩
        + s.inHistory ⟨.IntRegClass, 0⟩ + s.inFreeing ⟨.IntRegClass, 0⟩ = 1 := by
  obtain ⟨s₀, s, hinit, hrun⟩ : ∃ s₀ s, init 2 twoThreads = some s₀ ∧
      runSteps step s₀ twoThreadsSteps = some s := ⟨_, _, rfl, rfl⟩
  exact ⟨s₀, s, hinit, hrun, (physReg_conservation hinit hrun).1 ⟨.IntRegClass, 0⟩ rfl (by decide)⟩

end Rename
