/-
# What each rename operation does

One lemma for each operation of the rename stage that says what it does to
the whole state.  Later proofs use these and never look inside the loops.

`Undoable m h` says that the history `h` can be rolled back from the map `m`:
every entry that was a change finds its new register still in the map when
its turn comes.
-/
import Gem5.Rename

/-! ## History entries -/

open Function

variable {m : RenameMap} {r : RegId}

namespace RenameHistory

/-- The entry was a change of the mapping. -/
def isChange (hb : RenameHistory) : Bool := hb.newPhysReg ≠ hb.prevPhysReg

/-- The map before the entry was made. -/
def undo (m : RenameMap) (hb : RenameHistory) : RenameMap :=
  if hb.isChange then m.set hb.archReg hb.prevPhysReg else m

/-- The registers the entries give back when they commit. -/
def held (h : List RenameHistory) : List PhysRegId :=
  (h.filter isChange).map prevPhysReg

/-- The registers the entries give back when they are squashed. -/
def gained (h : List RenameHistory) : List PhysRegId :=
  (h.filter isChange).map newPhysReg

/-- The history can be rolled back from the map. -/
def Undoable : RenameMap → List RenameHistory → Prop
  | _, [] => True
  | m, hb :: h =>
    (hb.isChange → hb.archReg.isRenameable ∧
      (m hb.archReg.classValue)[hb.archReg.index]? = some hb.newPhysReg ∧
      hb.prevPhysReg.classValue = hb.archReg.classValue) ∧
    Undoable (hb.undo m) h

variable {h h' : List RenameHistory}

theorem Undoable.left (hu : Undoable m (h ++ h')) : Undoable m h := by
  induction h generalizing m with
  | nil => trivial
  | cons hb h ih => exact ⟨hu.1, ih hu.2⟩

theorem Undoable.right (hu : Undoable m (h ++ h')) : Undoable (h.foldl undo m) h' := by
  induction h generalizing m with
  | nil => exact hu
  | cons hb h ih => exact ih hu.2

end RenameHistory

/-- Writing an entry and then its old value back changes nothing. -/
theorem RenameMap.set_set_self {p q : PhysRegId}
    (h : (m r.classValue)[r.index]? = some q) : (m.set r p).set r q = m := by
  have hlist : ((m r.classValue).set r.index p).set r.index q = m r.classValue := by
    rw [List.set_set]
    obtain ⟨hlt, rfl⟩ := List.getElem?_eq_some_iff.mp h
    exact List.set_getElem_self hlt
  simp [RenameMap.set, hlist]

namespace Rename

open RenameHistory

variable {n : ℕ} {s s' : Rename n} {tid : Fin n} {h : List RenameHistory}

/-! ## Renaming -/

/-- The effect of renaming one register: no change of the mapping, or the
first free register of the class replaces the previous one. -/
theorem renameReg_cases {info : RenameInfo} (h : s.renameReg tid r = some (info, s')) :
    (info.newPhysReg = info.prevPhysReg ∧ ∃ pins, s' = { s with pins := pins }) ∨
    (r.isRenameable ∧ (s.renameMap tid r.classValue)[r.index]? = some info.prevPhysReg ∧
      ∃ rest pins, s.freeList r.classValue = info.newPhysReg :: rest ∧
        s' = { s with
          renameMap := update s.renameMap tid ((s.renameMap tid).set r info.newPhysReg)
          freeList := update s.freeList r.classValue rest
          pins := pins }) := by
  unfold renameReg at h
  split at h
  · obtain ⟨p, -, h⟩ := Option.bind_eq_some_iff.mp h
    cases h
    exact .inl ⟨rfl, _, rfl⟩
  · rename_i hr
    obtain ⟨prev, hprev, h⟩ := Option.bind_eq_some_iff.mp h
    split at h
    · split at h
      · cases h
        exact .inl ⟨rfl, _, rfl⟩
      · cases h
    · split at h
      · split at h
        · cases h
        · cases h
          exact .inl ⟨rfl, _, rfl⟩
      · obtain ⟨⟨renamed, s1⟩, hget, h⟩ := Option.bind_eq_some_iff.mp h
        unfold getReg at hget
        split at hget
        · cases hget
        · rename_i p ps hfree
          cases hget
          cases h
          exact .inr ⟨by simpa using hr, hprev, ps, _, hfree, rfl⟩

/-! ## Squashing -/

/-- Undoing one entry that can be undone never fails. -/
theorem undoEntry_eq {hb : RenameHistory} (hu : Undoable (s.renameMap tid) (hb :: h)) :
    s.undoEntry tid hb = some { s with
      renameMap := update s.renameMap tid (hb.undo (s.renameMap tid))
      freeingInProgress := update s.freeingInProgress tid
        (s.freeingInProgress tid ++ gained [hb]) } := by
  by_cases hc : hb.newPhysReg = hb.prevPhysReg
  · simp [undoEntry, undo, gained, isChange, hc]
  · obtain ⟨hren, hget, hclass⟩ := hu.1 (by simpa [isChange] using hc)
    obtain ⟨hlt, -⟩ := List.getElem?_eq_some_iff.mp hget
    simp [undoEntry, setEntry, setMap, undo, gained, isChange, hc, hren, hclass, hlt]

variable (sn : InstSeqNum)

theorem doSquashLoop_eq (hu : Undoable (s.renameMap tid) h) :
    s.doSquashLoop sn tid h = some { s with
      renameMap := update s.renameMap tid
        ((h.takeWhile (sn < ·.instSeqNum)).foldl undo (s.renameMap tid))
      historyBuffer := update s.historyBuffer tid (h.dropWhile (sn < ·.instSeqNum))
      freeingInProgress := update s.freeingInProgress tid
        (s.freeingInProgress tid ++ gained (h.takeWhile (sn < ·.instSeqNum))) } := by
  induction h generalizing s with
  | nil => simp [doSquashLoop, gained]
  | cons hb h ih =>
    by_cases hlt : sn < hb.instSeqNum
    · rw [doSquashLoop, undoEntry_eq hu]
      simp only [Option.bind_eq_bind, Option.bind_some]
      rw [ih (by simpa using hu.2)]
      simp only [update_self, update_idem, List.takeWhile_cons, hlt, decide_true, if_true,
        List.dropWhile_cons, List.foldl_cons]
      simp [gained, List.filter_cons]
      split <;> simp
    · simp [doSquashLoop, hlt, gained]

/-- **A squash** takes the younger entries off the history buffer and undoes
them in the map; the registers they had allocated wait to be freed. -/
theorem doSquash_eq (hu : Undoable (s.renameMap tid) (s.historyBuffer tid)) :
    s.doSquash sn tid = some { s with
      renameMap := update s.renameMap tid
        (((s.historyBuffer tid).takeWhile (sn < ·.instSeqNum)).foldl undo (s.renameMap tid))
      historyBuffer := update s.historyBuffer tid
        ((s.historyBuffer tid).dropWhile (sn < ·.instSeqNum))
      freeingInProgress := update s.freeingInProgress tid
        (s.freeingInProgress tid ++
          gained ((s.historyBuffer tid).takeWhile (sn < ·.instSeqNum))) } :=
  doSquashLoop_eq sn hu

/-! ## Committing and freeing -/

variable (f : RegClassType → List PhysRegId)

/-- Free lists after some registers are added, in order. -/
def addAll (ps : List PhysRegId) : RegClassType → List PhysRegId :=
  fun c => f c ++ ps.filter (·.classValue = c)

@[simp] theorem addAll_nil : addAll f [] = f := by
  funext c
  simp [addAll]

theorem addReg_eq (p : PhysRegId) : s.addReg p = { s with freeList := addAll s.freeList [p] } := by
  have h : update s.freeList p.classValue (s.freeList p.classValue ++ [p])
      = addAll s.freeList [p] := by
    funext c
    by_cases hc : c = p.classValue
    · subst hc
      simp [addAll]
    · simp [addAll, hc, Ne.symm hc]
  rw [addReg, h]

theorem addAll_addAll (ps qs : List PhysRegId) : addAll (addAll f ps) qs = addAll f (ps ++ qs) := by
  funext c
  simp [addAll]

theorem foldl_addReg (ps : List PhysRegId) :
    ps.foldl addReg s = { s with freeList := addAll s.freeList ps } := by
  induction ps generalizing s with
  | nil => simp
  | cons p ps ih => simp [ih, addReg_eq, addAll_addAll]

theorem removeFromHistoryLoop_eq (h : List RenameHistory) :
    s.removeFromHistoryLoop sn tid h = { s with
      freeList := addAll s.freeList (held (h.takeWhile (·.instSeqNum ≤ sn)))
      historyBuffer := update s.historyBuffer tid
        (h.dropWhile (·.instSeqNum ≤ sn)).reverse } := by
  induction h generalizing s with
  | nil => simp [removeFromHistoryLoop, held]
  | cons hb h ih =>
    by_cases hle : hb.instSeqNum ≤ sn
    · by_cases hc : hb.newPhysReg = hb.prevPhysReg
      · simp [removeFromHistoryLoop, hle, hc, ih, held, isChange]
      · simp [removeFromHistoryLoop, hle, hc, ih, held, isChange, addReg_eq, addAll_addAll]
    · simp [removeFromHistoryLoop, hle, held]

/-- **A commit** takes the older entries off the history buffer and frees the
registers they held. -/
theorem removeFromHistory_eq (tid : Fin n) :
    s.removeFromHistory sn tid = { s with
      freeList := addAll s.freeList
        (held ((s.historyBuffer tid).rtakeWhile (·.instSeqNum ≤ sn)).reverse)
      historyBuffer := update s.historyBuffer tid
        ((s.historyBuffer tid).rdropWhile (·.instSeqNum ≤ sn)) } := by
  rw [removeFromHistory, removeFromHistoryLoop_eq, List.rtakeWhile, List.reverse_reverse,
    List.rdropWhile]

/-- What a signal from commit does: squash, free the delayed registers, or
nothing. -/
theorem checkSignalsAndUpdate_cases {info : CommitInfo}
    (h : s.checkSignalsAndUpdate tid info = some s') :
    (info.squash ∧ s.doSquash info.doneSeqNum tid = some s') ∨
    (¬ info.squash ∧ s' = { s with
      freeList := addAll s.freeList (s.freeingInProgress tid)
      freeingInProgress := update s.freeingInProgress tid [] }) ∨
    (¬ info.squash ∧ s' = s) := by
  unfold checkSignalsAndUpdate at h
  split at h
  · exact .inl ⟨‹_›, h⟩
  · split at h
    · rw [foldl_addReg] at h
      cases h
      exact .inr (.inl ⟨‹_›, rfl⟩)
    · cases h
      exact .inr (.inr ⟨‹_›, rfl⟩)

end Rename
