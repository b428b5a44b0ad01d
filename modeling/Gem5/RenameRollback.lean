/-
# Rollback of the rename map

What a squash restores.  A run of the rename stage is followed together with a
journal of one thread (`traceStep`): one record for each instruction of the
thread that was renamed and not squashed.
-/
import Gem5.Journal
import Gem5.RenameOwnership

open RenameHistory List Journal

namespace Rename

variable {n : ℕ} {s s' s₀ : Rename n} {tid : Fin n} {infos : List (RegId × RenameInfo)}
  {sn : InstSeqNum} {x x' : Rename n × Log}

/-! ## The journal of a thread -/

abbrev Log := List (Journal.Record RenameMap RenameHistory)

/-- The history entries of an instruction's destinations, youngest first. -/
def entriesOf (seqNum : InstSeqNum) (infos : List (RegId × RenameInfo)) : List RenameHistory :=
  (infos.map fun x => ⟨seqNum, x.1, x.2.newPhysReg, x.2.prevPhysReg⟩).reverse

namespace Step

/-- The sequence number the step renames for the thread. -/
def renames (tid : Fin n) : Step n → Option InstSeqNum
  | .renameDestRegs inst t => if t = tid then some inst.seqNum else none
  | _ => none

/-- The sequence number the step commits for the thread. -/
def commits (tid : Fin n) : Step n → Option InstSeqNum
  | .removeFromHistory sn t => if t = tid then some sn else none
  | _ => none

/-- The sequence number the step squashes the thread to. -/
def squashes (tid : Fin n) : Step n → Option InstSeqNum
  | .doSquash sn t => if t = tid then some sn else none
  | .checkSignalsAndUpdate t info =>
    if t = tid ∧ info.squash then some info.doneSeqNum else none
  | _ => none

end Step

/-- A step of the rename stage, recorded in the journal of one thread. -/
def traceStep (tid : Fin n) (x : Rename n × Log) (a : Step n) : Option (Rename n × Log) :=
  match a with
  | .renameDestRegs inst t => do
    let (infos, s) ← x.1.renameDestRegs inst t
    return (s, if t = tid then
      ⟨inst.seqNum, entriesOf inst.seqNum infos, s.renameMap tid, false⟩ :: x.2 else x.2)
  | .removeFromHistory sn t =>
    some (x.1.removeFromHistory sn t, if t = tid then Journal.commit sn x.2 else x.2)
  | a => do
    let s ← x.1.step a
    return (s, match a.squashes tid with
      | some sn => Journal.squash sn x.2
      | none => x.2)

/-- The steps as the other stages drive them: the thread's instructions are
renamed in the order of their sequence numbers, and no squash goes below a
sequence number that was committed before. -/
def Orderly (tid : Fin n) (steps : List (Step n)) : Prop :=
  (steps.filterMap (Step.renames tid)).Pairwise (· < ·) ∧
  steps.Pairwise fun a b => ∀ sn ∈ a.commits tid, ∀ sq ∈ b.squashes tid, sn ≤ sq

theorem traceStep_step {a : Step n} (h : traceStep tid x a = some x') : x.1.step a = some x'.1 := by
  cases a with
  | renameDestRegs inst t =>
    obtain ⟨⟨infos, s⟩, hren, h⟩ := Option.bind_eq_some_iff.mp h
    cases h
    simp [step, hren]
  | removeFromHistory sn t | setPins reg pins =>
    cases h
    rfl
  | doSquash sn t | checkSignalsAndUpdate t info =>
    obtain ⟨s, hs, h⟩ := Option.bind_eq_some_iff.mp h
    cases h
    exact hs

theorem trace_run {steps : List (Step n)}
    (h : runSteps (traceStep tid) x steps = some x') : runSteps step x.1 steps = some x'.1 := by
  induction steps generalizing x with
  | nil =>
    cases h
    rfl
  | cons a steps ih =>
    obtain ⟨x1, h1, h⟩ := Option.bind_eq_some_iff.mp h
    rw [runSteps_cons, traceStep_step h1]
    exact ih h

/-! ## Renaming pushes entries that undo it -/

/-- The thread's map and history before and after pushing entries. -/
structure Pushed (tid : Fin n) (s s' : Rename n) (entries : List RenameHistory) : Prop where
  history : s'.historyBuffer tid = entries ++ s.historyBuffer tid
  undone : entries.foldl undo (s'.renameMap tid) = s.renameMap tid
  otherMap : ∀ t, t ≠ tid → s'.renameMap t = s.renameMap t
  otherHistory : ∀ t, t ≠ tid → s'.historyBuffer t = s.historyBuffer t

theorem renameDestReg_pushed {r : RegId} {info : RenameInfo}
    (h : s.renameDestReg tid sn r = some (info, s')) :
    Pushed tid s s' [⟨sn, r, info.newPhysReg, info.prevPhysReg⟩] := by
  obtain ⟨⟨info, s1⟩, hren, h⟩ := Option.bind_eq_some_iff.mp h
  cases h
  rcases renameReg_cases hren with ⟨hsame, pins, rfl⟩ | ⟨hr, hprev, rest, pins, hfree, rfl⟩
  · constructor
    · simp [pushHistory]
    · simp [pushHistory, undo, isChange, hsame]
    · intro t ht
      rfl
    · intro t ht
      simp [pushHistory, ht]
  · constructor
    · simp [pushHistory]
    · by_cases hne : info.newPhysReg = info.prevPhysReg
      · obtain ⟨hlt, hget⟩ := List.getElem?_eq_some_iff.mp hprev
        simp [pushHistory, undo, hne, RenameMap.set, ← hget]
      · simpa [pushHistory, undo, isChange, hne] using RenameMap.set_set_self hprev
    · intro t ht
      simp [pushHistory, ht]
    · intro t ht
      simp [pushHistory, ht]

theorem renameDestRegsLoop_pushed {rs : List RegId}
    (h : s.renameDestRegsLoop tid sn rs = some (infos, s')) :
    Pushed tid s s' (entriesOf sn infos) := by
  induction rs generalizing s infos with
  | nil =>
    cases h
    exact ⟨rfl, rfl, fun _ _ => rfl, fun _ _ => rfl⟩
  | cons r rs ih =>
    obtain ⟨⟨info, s1⟩, h1, h⟩ := Option.bind_eq_some_iff.mp h
    obtain ⟨⟨infos1, s2⟩, h2, h⟩ := Option.bind_eq_some_iff.mp h
    cases h
    have hhead := renameDestReg_pushed h1
    have htail := ih h2
    have hcons : entriesOf sn ((r, info) :: infos1)
        = entriesOf sn infos1 ++ [⟨sn, r, info.newPhysReg, info.prevPhysReg⟩] := by
      simp [entriesOf]
    rw [hcons]
    constructor
    · rw [htail.history, hhead.history, append_assoc]
    · rw [foldl_append, htail.undone, hhead.undone]
    · intro t ht
      rw [htail.otherMap t ht, hhead.otherMap t ht]
    · intro t ht
      rw [htail.otherHistory t ht, hhead.otherHistory t ht]

theorem stamp_entriesOf : ∀ e ∈ entriesOf sn infos, e.instSeqNum = sn := by
  intro e he
  simp only [entriesOf, mem_reverse, mem_map] at he
  obtain ⟨x, -, rfl⟩ := he
  rfl

/-! ## The journal describes the thread -/

/-- **Trace invariant**, after the given steps: the thread's map is backed by
the journal and its history buffer holds the pending entries; every record was
renamed by one of the steps, and every committed record was committed by one. -/
structure TraceInv (tid : Fin n) (s₀ : Rename n) (steps : List (Step n)) (s : Rename n)
    (log : Log) : Prop where
  sorted : Journal.Sorted log
  backed : Journal.Backed undo (s₀.renameMap tid) (s.renameMap tid) log
  history : s.historyBuffer tid = Journal.pending log
  stamped : Journal.Stamped RenameHistory.instSeqNum log
  renamed : ∀ r ∈ log, r.seq ∈ steps.filterMap (Step.renames tid)
  committed : ∀ r ∈ log, r.committed → ∃ a ∈ steps, ∃ sn ∈ a.commits tid, r.seq ≤ sn

namespace TraceInv

variable {steps : List (Step n)} {log : Log} {a : Step n} {sq : InstSeqNum}

variable (hi : TraceInv tid s₀ steps s log)

include hi

/-- A step that leaves the thread's map and history alone. -/
theorem frame (hmap : s'.renameMap tid = s.renameMap tid)
    (hhist : s'.historyBuffer tid = s.historyBuffer tid) :
    TraceInv tid s₀ (steps ++ [a]) s' log where
  sorted := hi.sorted
  backed := by
    rw [hmap]
    exact hi.backed
  history := by rw [hhist, hi.history]
  stamped := hi.stamped
  renamed r hr := by
    rw [filterMap_append]
    exact mem_append_left _ (hi.renamed r hr)
  committed r hr hc := by
    obtain ⟨b, hb, hsn⟩ := hi.committed r hr hc
    exact ⟨b, mem_append_left _ hb, hsn⟩

theorem rename (hp : Pushed tid s s' (entriesOf sn infos)) (ha : a.renames tid = some sn)
    (hlt : ∀ r ∈ log, r.seq < sn) :
    TraceInv tid s₀ (steps ++ [a]) s'
      (⟨sn, entriesOf sn infos, s'.renameMap tid, false⟩ :: log) where
  sorted := pairwise_cons.mpr ⟨hlt, hi.sorted⟩
  backed := by
    refine ⟨rfl, fun _ => ?_⟩
    rw [hp.undone]
    exact hi.backed
  history := by
    rw [hp.history, hi.history]
    simp [pending]
  stamped r hr := by
    rcases mem_cons.mp hr with rfl | hr
    · exact stamp_entriesOf
    · exact hi.stamped r hr
  renamed r hr := by
    rw [filterMap_append, mem_append]
    rcases mem_cons.mp hr with rfl | hr
    · exact .inr (by simp [ha])
    · exact .inl (hi.renamed r hr)
  committed r hr hc := by
    rcases mem_cons.mp hr with rfl | hr
    · cases hc
    · obtain ⟨b, hb, hsn⟩ := hi.committed r hr hc
      exact ⟨b, mem_append_left _ hb, hsn⟩

theorem commit (sn : InstSeqNum) :
    TraceInv tid s₀ (steps ++ [.removeFromHistory sn tid]) (s.removeFromHistory sn tid)
      (commit sn log) := by
  rw [removeFromHistory_eq]
  constructor
  · exact hi.sorted.commit sn
  · exact hi.backed.commit sn
  · simp only [Function.update_self]
    rw [pending_commit, hi.history, hi.sorted.pending_split sn]
    refine rdropWhile_append_split ?_ ?_
    · intro e he
      have := hi.stamped.lt_of_after sn e he
      simpa using this
    · intro e he
      simpa using hi.stamped.le_of_squash sn e he
  · intro r hr e he
    obtain ⟨r', hr', hseq, hentries, -⟩ := mem_commit hr
    rw [hseq]
    exact hi.stamped r' hr' e (hentries ▸ he)
  · intro r hr
    obtain ⟨r', hr', hseq, -, -⟩ := mem_commit hr
    rw [hseq, filterMap_append]
    exact mem_append_left _ (hi.renamed r' hr')
  · intro r hr hc
    obtain ⟨r', hr', hseq, -, hcom⟩ := mem_commit hr
    rw [hseq]
    rcases hcom hc with hc | hle
    · obtain ⟨b, hb, hsn⟩ := hi.committed r' hr' hc
      exact ⟨b, mem_append_left _ hb, hsn⟩
    · exact ⟨.removeFromHistory sn tid, by simp, sn, by simp [Step.commits], hle⟩

theorem squash (hu : Undoable (s.renameMap tid) (s.historyBuffer tid))
    (h : s.doSquash sq tid = some s') (hsafe : ∀ r ∈ log, r.committed → r.seq ≤ sq) :
    TraceInv tid s₀ (steps ++ [a]) s' (squash sq log) := by
  -- the squashed entries are exactly the pending ones after `sq`
  have hsplit := takeWhile_append_split
    (p := fun e : RenameHistory => decide (sq < e.instSeqNum))
    (fun e he => by simpa using hi.stamped.lt_of_after sq e he)
    (fun e he => by simpa using hi.stamped.le_of_squash sq e he)
  rw [← hi.sorted.pending_split sq, ← hi.history] at hsplit
  rw [doSquash_eq sq hu, hsplit.1, hsplit.2] at h
  cases h
  constructor
  · exact hi.sorted.squash sq
  · simpa using hi.backed.squash hi.sorted hsafe
  · simp
  · intro r hr
    exact hi.stamped r (mem_of_mem_filter hr)
  · intro r hr
    rw [filterMap_append]
    exact mem_append_left _ (hi.renamed r (mem_of_mem_filter hr))
  · intro r hr hc
    obtain ⟨b, hb, hsn⟩ := hi.committed r (mem_of_mem_filter hr) hc
    exact ⟨b, mem_append_left _ hb, hsn⟩

/-- An orderly squash spares what was committed. -/
theorem safe (ho : Orderly tid (steps ++ [a])) (ha : a.squashes tid = some sq) :
    ∀ r ∈ log, r.committed → r.seq ≤ sq := by
  intro r hr hc
  obtain ⟨b, hb, sn, hsn, hle⟩ := hi.committed r hr hc
  have hpair := (pairwise_append.mp ho.2).2.2 b hb a (by simp)
  exact hle.trans (hpair sn hsn sq ha)

/-- An orderly rename comes after all the others. -/
theorem fresh (ho : Orderly tid (steps ++ [a])) (ha : a.renames tid = some sn) :
    ∀ r ∈ log, r.seq < sn := by
  intro r hr
  have hpair := ho.1
  rw [filterMap_append, pairwise_append] at hpair
  exact hpair.2.2 _ (hi.renamed r hr) sn (by simp [ha])

/-- A squash of any thread, recorded if it is this one. -/
theorem squashAny (hu : ∀ t, Undoable (s.renameMap t) (s.historyBuffer t)) {t : Fin n}
    (h : s.doSquash sq t = some s') (ho : Orderly tid (steps ++ [a]))
    (ha : a.squashes tid = if t = tid then some sq else none) :
    TraceInv tid s₀ (steps ++ [a]) s' (match a.squashes tid with
      | some sn => Journal.squash sn log
      | none => log) := by
  by_cases ht : t = tid
  · subst ht
    rw [if_pos rfl] at ha
    have hsafe := hi.safe ho ha
    rw [ha]
    exact hi.squash (hu t) h hsafe
  · rw [if_neg ht] at ha
    rw [ha]
    rw [doSquash_eq sq (hu t)] at h
    cases h
    exact hi.frame (by simp [Ne.symm ht]) (by simp [Ne.symm ht])

theorem step (hu : ∀ t, Undoable (s.renameMap t) (s.historyBuffer t)) {log' : Log}
    (ho : Orderly tid (steps ++ [a])) (h : traceStep tid (s, log) a = some (s', log')) :
    TraceInv tid s₀ (steps ++ [a]) s' log' := by
  cases a with
  | renameDestRegs inst t =>
    obtain ⟨⟨infos, s1⟩, hren, h⟩ := Option.bind_eq_some_iff.mp h
    cases h
    have hp := renameDestRegsLoop_pushed hren
    by_cases ht : t = tid
    · subst ht
      have ha : (Step.renameDestRegs inst t).renames t = some inst.seqNum := by
        simp [Step.renames]
      simpa using hi.rename hp ha (hi.fresh ho ha)
    · simpa [ht] using hi.frame (hp.otherMap tid (Ne.symm ht)) (hp.otherHistory tid (Ne.symm ht))
  | removeFromHistory sn t =>
    cases h
    by_cases ht : t = tid
    · subst ht
      simpa using hi.commit sn
    · rw [if_neg ht]
      refine hi.frame ?_ ?_ <;> simp [removeFromHistory_eq, Ne.symm ht]
  | doSquash sq t =>
    obtain ⟨s1, hs, h⟩ := Option.bind_eq_some_iff.mp h
    cases h
    exact hi.squashAny hu hs ho rfl
  | checkSignalsAndUpdate t info =>
    obtain ⟨s1, hs, h⟩ := Option.bind_eq_some_iff.mp h
    cases h
    have hnone (hsq : ¬ info.squash) :
        (Step.checkSignalsAndUpdate t info).squashes tid = none := by
      simp [Step.squashes, hsq]
    rcases checkSignalsAndUpdate_cases hs with ⟨hsq, hs⟩ | ⟨hsq, rfl⟩ | ⟨hsq, rfl⟩
    · exact hi.squashAny hu hs ho (by simp [Step.squashes, hsq])
    · rw [hnone hsq]
      exact hi.frame rfl rfl
    · rw [hnone hsq]
      exact hi.frame rfl rfl
  | setPins reg pins =>
    cases h
    exact hi.frame rfl rfl

end TraceInv

/-- An initial segment of an orderly run is orderly. -/
theorem Orderly.left {steps steps' : List (Step n)} (ho : Orderly tid (steps ++ steps')) :
    Orderly tid steps := by
  refine ⟨?_, (pairwise_append.mp ho.2).1⟩
  have h := ho.1
  rw [filterMap_append] at h
  exact (pairwise_append.mp h).1

theorem trace_inv {params : Params} {steps : List (Step n)} {log : Log}
    (hinit : init n params = some s₀) (ho : Orderly tid steps)
    (hrun : runSteps (traceStep tid) (s₀, []) steps = some (s, log)) :
    TraceInv tid s₀ steps s log := by
  induction steps using reverseRecOn generalizing s log with
  | nil =>
    cases hrun
    exact ⟨.nil, rfl, (init_inv hinit).2 tid, by simp [Stamped], by simp, by simp⟩
  | append_singleton steps a ih =>
    rw [runSteps_concat] at hrun
    obtain ⟨⟨s1, log1⟩, h1, hstep⟩ := Option.bind_eq_some_iff.mp hrun
    have hi := run_inv hinit (trace_run h1)
    exact (ih ho.left h1).step hi.undoable ho hstep

/-- **Rollback.**  After any orderly run of the rename stage a squash to `sq` succeeds.  The
map is then the one that the youngest instruction up to `sq` left that was not squashed, and
the history buffer holds exactly the entries of the uncommitted instructions up to `sq`. -/
theorem rename_rollback {params : Params} {steps : List (Step n)} {log : Log} {sq : InstSeqNum}
    (hinit : init n params = some s₀)
    (hrun : runSteps (traceStep tid) (s₀, []) steps = some (s, log))
    (hord : Orderly tid (steps ++ [.doSquash sq tid])) : ∃ s', s.doSquash sq tid = some s' ∧
      s'.renameMap tid = current (s₀.renameMap tid) (log.filter (·.seq ≤ sq)) ∧
      s'.historyBuffer tid
        = ((log.filter (·.seq ≤ sq)).filter (!·.committed)).flatMap Record.entries ∧
      log.Pairwise fun r r' => r'.seq < r.seq := by
  have hi := trace_inv hinit hord.left hrun
  have hu := (run_inv hinit (trace_run hrun)).undoable tid
  have hs' := doSquash_eq sq hu
  have hsq : (Step.doSquash sq tid).squashes tid = some sq := by simp [Step.squashes]
  have hi' := hi.squash (a := .doSquash sq tid) hu hs' (hi.safe hord hsq)
  exact ⟨_, hs', hi'.backed.eq_current, hi'.history, hi.sorted⟩

attribute [local instance] neZero_two

/-- Two instructions rename the same register twice each and a third is
squashed first; the first is committed, and the squash takes back the second. -/
def rollbackSteps : List (Step 2) :=
  [.renameDestRegs ⟨1, [⟨.IntRegClass, 0, 0⟩]⟩ 0,
   .renameDestRegs ⟨2, [⟨.IntRegClass, 0, 0⟩, ⟨.IntRegClass, 0, 0⟩]⟩ 0,
   .doSquash 1 0,
   .checkSignalsAndUpdate 0 ⟨false, 1, false⟩,
   .renameDestRegs ⟨3, [⟨.IntRegClass, 0, 0⟩]⟩ 0,
   .removeFromHistory 1 0,
   .renameDestRegs ⟨4, [⟨.IntRegClass, 0, 0⟩]⟩ 0]

theorem rename_rollback_two_threads : ∃ s₀ s s', ∃ log : Log, init 2 twoThreads = some s₀ ∧
      runSteps (traceStep 0) (s₀, []) rollbackSteps = some (s, log) ∧ s.doSquash 3 0 = some s' ∧
      s'.renameMap 0 = current (s₀.renameMap 0) (log.filter (·.seq ≤ 3)) := by
  obtain ⟨s₀, s, log, hinit, hrun⟩ : ∃ s₀ s log, init 2 twoThreads = some s₀ ∧
      runSteps (traceStep 0) (s₀, []) rollbackSteps = some (s, log) := ⟨_, _, _, rfl, rfl⟩
  have hord : Orderly 0 (rollbackSteps ++ [.doSquash 3 0]) := by
    constructor
    · decide
    · simp [rollbackSteps, Step.commits, Step.squashes]
  obtain ⟨s', hsq, hmap, -⟩ := rename_rollback hinit hrun hord
  exact ⟨s₀, s, s', log, hinit, hrun, hsq, hmap⟩

end Rename
