/-
# Runs of the reorder buffer

A call of the buffer changes one thread (`step_thread`), so a run of the buffer is a run of
each of its threads.  Over every run the counters are those of the lists
(`Counted`); where the pipeline uses the buffer as allowed, the iterator of a squash is
either at the end or at an instruction of the list (`Thread.WF`).
-/
import Gem5.ROBSquash

open Function List NodeList
open Option hiding map_map

namespace ROB

open ROB.Thread

variable {numThreads : ℕ} {p : Params} {inst : DynInst numThreads} {it : ℕ}

/-! ## One thread -/

namespace Thread

variable {t t' : Thread numThreads} {num : ℕ} {tailUpdate : Bool} {s : ℕ}

theorem doSquash_cases (h : t.doSquash num = some (t', tailUpdate)) :
    ∃ pre it inst post, t.squashIt = some it ∧ t.instList.nodes = pre ++ (it, inst) :: post ∧
      Squashed num t (pre ++ [(it, inst)]) post t' := by
  have hdef := h
  unfold doSquash at h
  rw [bind_eq_some_iff] at h
  obtain ⟨it, hit, h⟩ := h
  rw [bind_eq_some_iff] at h
  obtain ⟨inst, hinst, -⟩ := h
  obtain ⟨pre, post, hnodes⟩ := append_of_mem (deref_eq_some.mp hinst)
  obtain ⟨t1, tailUpdate1, hspec, hsquashed⟩ := doSquash_spec num hnodes hit
  rw [hdef, some.injEq, Prod.mk.injEq] at hspec
  rw [← hspec.1] at hsquashed
  exact ⟨pre, it, inst, post, hit, hnodes, hsquashed⟩

theorem keys_of_doSquash (h : t.doSquash num = some (t', tailUpdate)) :
    t'.keys = t.keys ∧ t'.threadEntries = t.threadEntries := by
  obtain ⟨pre, it, inst, post, -, hnodes, hsquashed⟩ := doSquash_cases h
  refine ⟨hsquashed.keys_eq ?_, by cases hsquashed <;> rfl⟩
  rw [hnodes, append_assoc, singleton_append]

/-- A squash does nothing to a thread without entries, or starts at the tail. -/
theorem squash_cases (h : t.squash num s = some (t', tailUpdate)) :
    t.threadEntries = 0 ∧ t' = t ∨
      t.threadEntries ≠ 0 ∧
        (t.instList.nodes = [] ∧ t' = { t with doneSquashing := false, squashedSeqNum := s } ∨
          ∃ it, doSquash num
            { t with doneSquashing := false, squashedSeqNum := s, squashIt := some it } =
              some (t', tailUpdate)) := by
  unfold squash at h
  by_cases hentries : t.threadEntries = 0
  · rw [if_pos hentries] at h
    cases h
    exact .inl ⟨hentries, rfl⟩
  · rw [if_neg hentries] at h
    refine .inr ⟨hentries, ?_⟩
    cases hlast : t.instList.last with
    | none =>
      simp only [hlast] at h
      cases h
      rw [last, map_eq_none_iff, getLast?_eq_none_iff] at hlast
      exact .inl ⟨hlast, rfl⟩
    | some it =>
      simp only [hlast] at h
      exact .inr ⟨it, h⟩

theorem keys_of_squash (h : t.squash num s = some (t', tailUpdate)) :
    t'.keys = t.keys ∧ t'.threadEntries = t.threadEntries := by
  rcases squash_cases h with ⟨-, rfl⟩ | ⟨-, ⟨-, rfl⟩ | ⟨it, h⟩⟩
  · exact ⟨rfl, rfl⟩
  · exact ⟨rfl, rfl⟩
  · have hkeys := keys_of_doSquash h
    exact hkeys

theorem retireHead_cases (h : t.retireHead = some (inst, t')) :
    ∃ node instList, t.instList.nodes = node :: instList.nodes ∧
      t' = { t with instList := instList, threadEntries := t.threadEntries - 1 } := by
  unfold retireHead at h
  rw [bind_eq_some_iff] at h
  obtain ⟨it, hfirst, h⟩ := h
  rw [first, map_eq_some_iff] at hfirst
  obtain ⟨⟨it, headInst⟩, hhead, rfl⟩ := hfirst
  obtain ⟨post, hnodes⟩ := head?_eq_some_iff.mp hhead
  obtain ⟨instList, herase, hpost⟩ := erase_first hnodes
  rw [bind_eq_some_iff] at h
  obtain ⟨_, -, h⟩ := h
  rw [herase] at h
  split at h
  · cases h
    exact ⟨_, instList, by rw [hnodes, hpost], rfl⟩
  · cases h

/-- What another stage does to the node of `it`. -/
def updateNode (it : ℕ) (f : DynInst numThreads → DynInst numThreads)
    (node : ℕ × DynInst numThreads) : ℕ × DynInst numThreads :=
  if node.1 = it then (node.1, f node.2) else node

variable {f : DynInst numThreads → DynInst numThreads}

theorem update_cases (h : t.update it f = some t') :
    ∃ instList, instList.nodes = t.instList.nodes.map (updateNode it f) ∧
      t' = { t with instList := instList } := by
  unfold update at h
  rw [map_eq_some_iff] at h
  obtain ⟨instList, hmodify, rfl⟩ := h
  exact ⟨instList, nodes_modify hmodify, rfl⟩

/-- The flags that other stages set do not touch the sequence number and add up with the
marks of a squash. -/
structure IsFlag (f : DynInst numThreads → DynInst numThreads) : Prop where
  seqNum : ∀ inst, (f inst).seqNum = inst.seqNum
  comm : ∀ inst, f inst.setSquashed.setCanCommit = (f inst).setSquashed.setCanCommit

theorem isFlag_setCanCommit : IsFlag (DynInst.setCanCommit : DynInst numThreads → DynInst numThreads) :=
  ⟨fun _ => rfl, fun _ => rfl⟩

theorem isFlag_setSquashed : IsFlag (DynInst.setSquashed : DynInst numThreads → DynInst numThreads) :=
  ⟨fun _ => rfl, fun _ => rfl⟩

theorem IsFlag.key_updateNode (hf : IsFlag f)
    (it : ℕ) (node : ℕ × DynInst numThreads) : key (updateNode it f node) = key node := by
  unfold updateNode
  split
  · simp only [key, hf.seqNum]
  · rfl

theorem IsFlag.map_key (hf : IsFlag f) (it : ℕ) (nodes : List (ℕ × DynInst numThreads)) :
    (nodes.map (updateNode it f)).map key = nodes.map key := by
  rw [map_map]
  exact map_congr_left fun node _ => hf.key_updateNode it node

theorem IsFlag.map_mark (hf : IsFlag f) (it s : ℕ) (nodes : List (ℕ × DynInst numThreads)) :
    (nodes.map (mark s)).map (updateNode it f) = (nodes.map (updateNode it f)).map (mark s) := by
  rw [map_map, map_map]
  refine map_congr_left fun node _ => ?_
  simp only [comp_apply, mark, updateNode, squashNode]
  by_cases hlt : s < node.2.seqNum <;> by_cases hit : node.1 = it <;>
    simp [hlt, hit, hf.seqNum, hf.comm]

/-- The part of a call that concerns its thread. -/
def step (p : Params) (t : Thread numThreads) : Action numThreads → Option (Thread numThreads)
  | .insertInst inst => some (t.insertInst inst)
  | .retireHead _ _ => t.retireHead.map Prod.snd
  | .squash cpu squashNum tid => (t.squash (p.numInstsToSquash cpu tid) squashNum).map Prod.fst
  | .doSquash cpu tid => (t.doSquash (p.numInstsToSquash cpu tid)).map Prod.fst
  | .setCanCommit _ it => t.update it DynInst.setCanCommit
  | .setSquashed _ it => t.update it DynInst.setSquashed

end Thread

/-! ## The threads of a buffer -/

def Action.inserted : Action numThreads → ℕ
  | .insertInst _ => 1
  | _ => 0

def Action.retired : Action numThreads → ℕ
  | .retireHead _ _ => 1
  | _ => 0

@[simp] theorem threads_putSquashed (cpu : CPU numThreads) (tid : Fin numThreads)
    (r : ROB numThreads) (result : Thread numThreads × Bool) :
    (r.putSquashed cpu tid result).threads = update r.threads tid result.1 := by
  unfold putSquashed
  split <;> rfl

@[simp] theorem numInstsInROB_putSquashed (cpu : CPU numThreads) (tid : Fin numThreads)
    (r : ROB numThreads) (result : Thread numThreads × Bool) :
    (r.putSquashed cpu tid result).numInstsInROB = r.numInstsInROB := by
  unfold putSquashed
  split <;> rfl

variable {r r' : ROB numThreads} {a : Action numThreads} {as : List (Action numThreads)}

/-- A call changes its thread and counts what comes and goes. -/
theorem step_thread (h : step p r a = some r') :
    ∃ t, (r.threads a.tid).step p a = some t ∧ r'.threads = update r.threads a.tid t ∧
      r'.numInstsInROB + a.retired = r.numInstsInROB + a.inserted ∧
      (r.numInstsInROB ≤ p.numEntries → r'.numInstsInROB ≤ p.numEntries) := by
  cases a with
  | insertInst inst =>
    simp only [step, insertInst, ite_none_left_eq_some, ite_none_right_eq_some,
      some.injEq] at h
    obtain ⟨hfull, -, rfl⟩ := h
    refine ⟨_, rfl, rfl, rfl, ?_⟩
    simp only
    omega
  | retireHead cpu tid =>
    simp only [step, retireHead] at h
    split at h
    · cases h
    · simp only [Option.map_map, Option.map_eq_some_iff] at h
      obtain ⟨⟨inst, t⟩, ht, rfl⟩ := h
      refine ⟨t, ?_, rfl, ?_⟩
      · exact Option.map_eq_some_iff.mpr ⟨(inst, t), ht, rfl⟩
      simp only [comp_apply, updateHead, Action.retired, Action.inserted]
      omega
  | squash cpu squashNum tid | doSquash cpu tid =>
    simp only [step, squash, doSquash, Option.map_eq_some_iff] at h
    obtain ⟨result, hresult, rfl⟩ := h
    refine ⟨result.1, ?_, threads_putSquashed _ _ _ _, ?_⟩
    · exact Option.map_eq_some_iff.mpr ⟨result, hresult, rfl⟩
    · simp [Action.retired, Action.inserted]
  | setCanCommit tid it | setSquashed tid it =>
    simp only [step, map_eq_some_iff] at h
    obtain ⟨t, ht, rfl⟩ := h
    exact ⟨t, ht, rfl, rfl, id⟩

/-! ## The counters -/

/-- The counters are those of the lists, and the buffer is not overfull. -/
structure Counted (p : Params) (r : ROB numThreads) : Prop where
  entries : ∀ tid, (r.threads tid).threadEntries = (r.threads tid).keys.length
  total : r.numInstsInROB = ∑ tid, (r.threads tid).threadEntries
  capacity : r.numInstsInROB ≤ p.numEntries

theorem Thread.step_counted {t t' : Thread numThreads}
    (h : t.step p a = some t') (hentries : t.threadEntries = t.keys.length) :
    t'.threadEntries = t'.keys.length ∧
      t'.threadEntries + a.retired = t.threadEntries + a.inserted := by
  cases a with
  | insertInst inst =>
    cases h
    refine ⟨?_, rfl⟩
    simp only [insertInst, keys, nodes_pushBack, length_map, length_append,
      length_singleton] at hentries ⊢
    omega
  | retireHead cpu tid =>
    rw [step, map_eq_some_iff] at h
    obtain ⟨⟨inst, t''⟩, h, rfl⟩ := h
    obtain ⟨node, instList, hnodes, rfl⟩ := retireHead_cases h
    simp only [keys, hnodes, length_map, length_cons, Action.retired, Action.inserted] at hentries ⊢
    omega
  | squash cpu squashNum tid | doSquash cpu tid =>
    rw [step, map_eq_some_iff] at h
    obtain ⟨⟨t'', tailUpdate⟩, h, rfl⟩ := h
    have hkept := by first | exact keys_of_squash h | exact keys_of_doSquash h
    exact ⟨by rw [hkept.1, hkept.2, hentries], hkept.2⟩
  | setCanCommit tid it | setSquashed tid it =>
    obtain ⟨instList, hnodes, rfl⟩ := update_cases h
    refine ⟨?_, rfl⟩
    simp only [keys, length_map, hnodes] at hentries ⊢
    exact hentries

/-- A call keeps the counters. -/
theorem Counted.step (hr : Counted p r) (h : step p r a = some r') : Counted p r' := by
  obtain ⟨t, ht, hthreads, hnum, hcapacity⟩ := step_thread h
  obtain ⟨hentries, hcount⟩ := step_counted ht (hr.entries a.tid)
  refine ⟨?_, ?_, hcapacity hr.capacity⟩
  · rw [hthreads]
    exact (forall_update_iff r.threads fun _ t => t.threadEntries = t.keys.length).mpr
      ⟨hentries, fun tid _ => hr.entries tid⟩
  · -- the sum changes at one thread only
    have hothers : ∑ tid ∈ Finset.univ.erase a.tid, (r'.threads tid).threadEntries =
        ∑ tid ∈ Finset.univ.erase a.tid, (r.threads tid).threadEntries := by
      refine Finset.sum_congr rfl fun tid htid => ?_
      rw [hthreads, update_of_ne (Finset.ne_of_mem_erase htid)]
    have hsplit := Finset.add_sum_erase Finset.univ (fun tid => (r.threads tid).threadEntries)
      (Finset.mem_univ a.tid)
    have hsplit' := Finset.add_sum_erase Finset.univ (fun tid => (r'.threads tid).threadEntries)
      (Finset.mem_univ a.tid)
    have htotal := hr.total
    simp only [hthreads, update_self] at hsplit' hothers ⊢
    omega

theorem counted_resetState : Counted p (resetState : ROB numThreads) :=
  ⟨fun _ => rfl, by simp [resetState], Nat.zero_le _⟩

theorem counted_run (hrun : runSteps (step p) resetState as = some r) : Counted p r :=
  runSteps_invariant (fun _ _ _ hr h => Counted.step hr h) counted_resetState hrun

/-! ## The iterator of a squash -/

/-- The list is in order, and the iterator points into it while a squash is under way. -/
structure Thread.WF (t : Thread numThreads) : Prop where
  sorted : Thread.Sorted t.instList.nodes
  iterator : (t.doneSquashing = true ∧ t.squashIt = none) ∨
    (t.doneSquashing = false ∧ ∃ it ∈ t.keys.map Prod.fst, t.squashIt = some it)

namespace Thread

variable {t t' : Thread numThreads}

theorem wf_of_keys (hsorted : Sorted t.instList.nodes) (hkeys : t'.keys = t.keys)
    (hiterator : (t'.doneSquashing = true ∧ t'.squashIt = none) ∨
      (t'.doneSquashing = false ∧ ∃ it ∈ t.keys.map Prod.fst, t'.squashIt = some it)) : t'.WF := by
  constructor
  · have hsorted' : (t'.keys.map Prod.snd).Pairwise (· < ·) := by
      rw [hkeys]
      exact hsorted
    exact hsorted'
  · rw [hkeys]
    exact hiterator

theorem wf_of_doSquash {num : ℕ} {tailUpdate : Bool} (hsorted : Sorted t.instList.nodes)
    (hdone : t.doneSquashing = false) (h : t.doSquash num = some (t', tailUpdate)) : t'.WF := by
  apply wf_of_keys hsorted (keys_of_doSquash h).1
  obtain ⟨pre, it, inst, post, -, hnodes, hsquashed⟩ := doSquash_cases h
  cases hsquashed with
  | finished instList pre' mid hwalk hnodes' hlt hle => exact .inl ⟨rfl, rfl⟩
  | running instList pre' mid it' inst' hwalk hnodes' hlt hmoved =>
    refine .inr ⟨hdone, it', ?_, rfl⟩
    have hmem : (it', inst') ∈ t.instList.nodes := by
      rw [hnodes, ← singleton_append, ← append_assoc, hwalk]
      simp
    exact mem_map_of_mem (mem_map_of_mem hmem)

/-- An allowed call keeps the iterator valid. -/
theorem WF.step (ht : t.WF) (hentries : t.threadEntries = t.keys.length) (hallowed : t.Allowed a)
    (h : t.step p a = some t') : t'.WF := by
  have hupdate : ∀ {it f}, IsFlag f → t.update it f = some t' → t'.WF := by
    intro it f hf h
    obtain ⟨instList, hnodes, rfl⟩ := update_cases h
    refine wf_of_keys ht.sorted ?_ ht.iterator
    rw [keys, hnodes, hf.map_key, keys]
  cases a with
  | insertInst inst =>
    cases h
    constructor
    · unfold Sorted
      rw [insertInst, nodes_pushBack, map_append, map_append, pairwise_append]
      refine ⟨ht.sorted, pairwise_singleton _ _, ?_⟩
      intro n hn n' hn'
      rw [map_map] at hn
      obtain ⟨node, hnode, rfl⟩ := mem_map.mp hn
      obtain rfl : n' = inst.seqNum := mem_singleton.mp hn'
      exact hallowed node.2 (mem_items_of_mem hnode)
    · apply ht.iterator.imp_right
      rintro ⟨hdone, it, hit, heq⟩
      refine ⟨hdone, it, ?_, heq⟩
      rw [keys, insertInst, nodes_pushBack, map_append, map_append]
      exact mem_append_left _ hit
  | retireHead cpu tid =>
    rw [step, map_eq_some_iff] at h
    obtain ⟨⟨inst, t''⟩, h, rfl⟩ := h
    obtain ⟨node, instList, hnodes, rfl⟩ := retireHead_cases h
    have hkeys : t.keys = key node :: instList.nodes.map key := by
      rw [keys, hnodes, map_cons]
    constructor
    · have hsorted : (t.keys.map Prod.snd).Pairwise (· < ·) := ht.sorted
      rw [hkeys, map_cons, pairwise_cons] at hsorted
      exact hsorted.2
    · apply ht.iterator.imp_right
      rintro ⟨hdone, it, hit, heq⟩
      refine ⟨hdone, it, ?_, heq⟩
      rw [hkeys, map_cons, mem_cons] at hit
      -- the retired instruction is not the one the squash is at
      refine hit.resolve_left fun hhead => ?_
      rcases hallowed with hnone | hfirst
      · rw [hnone] at heq
        cases heq
      · rw [first, hnodes, heq, hhead] at hfirst
        exact hfirst rfl
  | squash cpu squashNum tid =>
    rw [step, map_eq_some_iff] at h
    obtain ⟨⟨t'', tailUpdate⟩, h, rfl⟩ := h
    rcases squash_cases h with ⟨-, rfl⟩ | ⟨hne, ⟨hnil, -⟩ | ⟨it, h⟩⟩
    · exact ht
    · rw [hentries, keys, hnil] at hne
      exact absurd rfl hne
    · have hwf := wf_of_doSquash (by exact ht.sorted) rfl h
      exact hwf
  | doSquash cpu tid =>
    rw [step, map_eq_some_iff] at h
    obtain ⟨⟨t'', tailUpdate⟩, h, rfl⟩ := h
    obtain ⟨pre, it, inst, post, hit, -, -⟩ := doSquash_cases h
    refine wf_of_doSquash ht.sorted ?_ h
    rcases ht.iterator with ⟨-, hnone⟩ | ⟨hdone, -⟩
    · rw [hnone] at hit
      cases hit
    · exact hdone
  | setCanCommit tid it => exact hupdate isFlag_setCanCommit h
  | setSquashed tid it => exact hupdate isFlag_setSquashed h

end Thread

/-- Iterators are valid in every allowed run. -/
theorem wf_run (hallowed : AllowedSteps (step p) Allowed resetState as)
    (hrun : runSteps (step p) resetState as = some r) (tid : Fin numThreads) :
    (r.threads tid).WF := by
  have hinv : Counted p r ∧ ∀ tid, (r.threads tid).WF := by
    refine hallowed.invariant (I := fun r => Counted p r ∧ ∀ tid, (r.threads tid).WF) ?_
      ⟨counted_resetState, fun tid => ⟨.nil, .inl ⟨rfl, rfl⟩⟩⟩ hrun
    rintro r a r' ⟨hcounted, hwf⟩ ha hstep
    refine ⟨hcounted.step hstep, ?_⟩
    obtain ⟨t, ht, hthreads, -⟩ := step_thread hstep
    rw [hthreads]
    exact (forall_update_iff _ _).mpr
      ⟨(hwf a.tid).step (hcounted.entries a.tid) ha ht, fun tid _ => hwf tid⟩
  exact hinv.2 tid

/-! ## From the start of a squash to its end -/

/-- Every call of `doSquash` may squash an instruction. -/
structure Params.CanSquash (p : Params) : Prop where
  numEntries : 0 < p.numEntries
  squashWidth : 0 < p.squashWidth

theorem Params.CanSquash.numInstsToSquash_pos (h : p.CanSquash) (cpu : CPU numThreads)
    (tid : Fin numThreads) : 0 < p.numInstsToSquash cpu tid := by
  unfold Params.numInstsToSquash
  split
  · exact h.numEntries
  · exact h.squashWidth

def Action.isDoSquash : Action numThreads → Bool
  | .doSquash _ _ => true
  | _ => false

namespace Thread

variable {t t' : Thread numThreads}

/-- The calls between the start of a squash and its end: no new instruction and no other
squash. -/
def During (t : Thread numThreads) : Action numThreads → Prop
  | .insertInst _ => False
  | .squash _ _ _ => False
  | a => t.Allowed a

/-- What a call makes of a list that is not being squashed. -/
def between (nodes : List (ℕ × DynInst numThreads)) :
    Action numThreads → List (ℕ × DynInst numThreads)
  | .retireHead _ _ => nodes.tail
  | .setCanCommit _ it => nodes.map (updateNode it DynInst.setCanCommit)
  | .setSquashed _ it => nodes.map (updateNode it DynInst.setSquashed)
  | _ => nodes

variable {nodes : List (ℕ × DynInst numThreads)}

theorem sorted_between (h : Sorted nodes) (a : Action numThreads) : Sorted (between nodes a) := by
  unfold Sorted at h ⊢
  cases a with
  | insertInst inst => exact h
  | retireHead cpu tid => exact h.sublist (((tail_sublist nodes).map key).map Prod.snd)
  | squash cpu s tid | doSquash cpu tid => exact h
  | setCanCommit tid it =>
    rw [between, isFlag_setCanCommit.map_key]
    exact h
  | setSquashed tid it =>
    rw [between, isFlag_setSquashed.map_key]
    exact h

variable {s left : ℕ}

theorem Squashing.retireHead (h : Squashing s nodes left t)
    (hallowed : t.squashIt = none ∨ t.instList.first ≠ t.squashIt)
    (hretire : t.retireHead = some (inst, t')) : Squashing s nodes.tail left t' := by
  obtain ⟨node, instList, hhead, rfl⟩ := retireHead_cases hretire
  cases h with
  | finished hdone hit hnodes =>
    refine .finished hdone hit ?_
    rw [map_tail, ← hnodes, hhead, tail_cons]
  | running hdone hnum pre post it inst hit heq hnodes hlt hleft =>
    cases pre with
    | nil =>
      -- the instruction at the iterator would be retired
      rcases hallowed with hnone | hfirst
      · rw [hnone] at hit
        cases hit
      · rw [hit] at hfirst
        exact absurd ((first_eq_iff hnodes).mpr rfl) hfirst
    | cons first pre =>
      refine .running hdone hnum pre post it inst hit ?_ ?_ hlt ?_
      · rw [heq, cons_append, tail_cons]
      · rw [hhead, cons_append, cons.injEq] at hnodes
        exact hnodes.2
      · rw [length_cons] at hleft
        omega

theorem Squashing.update
    {f : DynInst numThreads → DynInst numThreads} (hf : IsFlag f) (h : Squashing s nodes left t)
    (hupdate : t.update it f = some t') : Squashing s (nodes.map (updateNode it f)) left t' := by
  obtain ⟨instList, hmap, rfl⟩ := update_cases hupdate
  cases h with
  | finished hdone hit hnodes =>
    refine .finished hdone hit ?_
    rw [hmap, hnodes, hf.map_mark]
  | running hdone hnum pre post at_ inst hit heq hnodes hlt hleft =>
    have hname : updateNode it f (at_, inst) = (at_, (updateNode it f (at_, inst)).2) := by
      unfold updateNode
      split <;> rfl
    refine .running hdone hnum (pre.map (updateNode it f)) (post.map (updateNode it f)) at_
      (updateNode it f (at_, inst)).2 hit ?_ ?_ ?_ ?_
    · rw [heq, map_append, map_cons, ← hname]
    · rw [hmap, hnodes, map_append, map_cons, ← hname, hf.map_mark]
    · intro node hnode
      obtain ⟨node', hnode', rfl⟩ := mem_map.mp hnode
      have hseq := congrArg Prod.snd (hf.key_updateNode it node')
      exact (hlt node' hnode').trans_eq hseq.symm
    · rw [length_map]
      exact hleft

/-- A call during a squash. -/
theorem Squashing.step (hwidth : nodes ≠ [] → p.CanSquash) (h : Squashing s nodes left t)
    (hsorted : Sorted nodes) (hduring : t.During a) (hstep : t.step p a = some t') :
    Squashing s (between nodes a) (left - if a.isDoSquash then 1 else 0) t' := by
  cases a with
  | insertInst inst => exact hduring.elim
  | retireHead cpu tid =>
    obtain ⟨⟨inst, t''⟩, hretire, rfl⟩ := map_eq_some_iff.mp hstep
    exact h.retireHead hduring hretire
  | squash cpu squashNum tid => exact hduring.elim
  | doSquash cpu tid =>
    obtain ⟨⟨t'', tailUpdate⟩, hsquash, rfl⟩ := map_eq_some_iff.mp hstep
    have hrunning : t.doneSquashing = false ∧ nodes ≠ [] := by
      cases h with
      | finished hdone hit hnodes =>
        obtain ⟨pre, it, inst, post, hit', -⟩ := doSquash_cases hsquash
        rw [hit] at hit'
        cases hit'
      | running hdone hnum pre post it inst hit heq hnodes hlt hleft =>
        refine ⟨hdone, ?_⟩
        rw [heq]
        exact append_ne_nil_of_right_ne_nil _ (cons_ne_nil _ _)
    obtain ⟨t1, tailUpdate1, h1, hsquashing⟩ :=
      h.doSquash hsorted ((hwidth hrunning.2).numInstsToSquash_pos cpu tid) hrunning.1
    rw [hsquash, some.injEq, Prod.mk.injEq] at h1
    rw [h1.1]
    exact hsquashing
  | setCanCommit tid it => exact h.update isFlag_setCanCommit hstep
  | setSquashed tid it => exact h.update isFlag_setSquashed hstep

theorem between_ne_nil (h : between nodes a ≠ []) : nodes ≠ [] := by
  rintro rfl
  cases a <;> exact h rfl

/-- The calls during a squash. -/
theorem Squashing.run (hwidth : nodes ≠ [] → p.CanSquash) (h : Squashing s nodes left t)
    (hsorted : Sorted nodes) (hduring : AllowedSteps (Thread.step p) During t as)
    (hrun : runSteps (Thread.step p) t as = some t') :
    Squashing s (as.foldl between nodes) (left - as.countP Action.isDoSquash) t' := by
  induction as generalizing t nodes left with
  | nil =>
    cases hrun
    exact h
  | cons a as ih =>
    rw [runSteps_cons, bind_eq_some_iff] at hrun
    obtain ⟨t1, h1, hrest⟩ := hrun
    have hih := ih (fun hne => hwidth (between_ne_nil hne)) (h.step hwidth hsorted hduring.1 h1)
      (sorted_between hsorted a) (hduring.2 t1 h1) hrest
    rw [countP_cons, Nat.add_comm, ← Nat.sub_sub]
    exact hih

/-- The start of a squash, in a thread of any number of entries. -/
theorem WF.squash {num : ℕ} (ht : t.WF) (hentries : t.threadEntries = t.keys.length)
    (hnum : t.instList.nodes ≠ [] → 0 < num) :
    ∃ t' tailUpdate, t.squash num s = some (t', tailUpdate) ∧
      Squashing s t.instList.nodes (t.instList.nodes.length - 1) t' := by
  rw [keys, length_map] at hentries
  by_cases hnil : t.instList.nodes = []
  · refine ⟨t, false, ?_, ?_⟩
    · rw [Thread.squash, if_pos (by rw [hentries, hnil]; rfl)]
    · rcases ht.iterator with ⟨hdone, hit⟩ | ⟨-, it, hmem, -⟩
      · exact .finished hdone hit (by rw [hnil]; rfl)
      · rw [keys, hnil] at hmem
        cases hmem
  · refine squash_begins ht.sorted (hnum hnil) ?_ hnil
    rw [hentries]
    exact fun hzero => hnil (length_eq_zero_iff.mp hzero)

end Thread

/-- Between the start of a squash of thread `tid` and its end. -/
def During (tid : Fin numThreads) (r : ROB numThreads) (a : Action numThreads) : Prop :=
  a.tid = tid → (r.threads tid).During a

/-- The calls of thread `tid`. -/
def ofThread (tid : Fin numThreads) (as : List (Action numThreads)) : List (Action numThreads) :=
  as.filter fun a => a.tid = tid

variable {tid : Fin numThreads}

/-- A squash that was started in a thread, some calls later. -/
theorem squashing_run {r1 r2 : ROB numThreads}
    {bs : List (Action numThreads)} {s left : ℕ} {nodes : List (ℕ × DynInst numThreads)}
    (hwidth : nodes ≠ [] → p.CanSquash)
    (h : Thread.Squashing s nodes left (r1.threads tid)) (hsorted : Thread.Sorted nodes)
    (hduring : AllowedSteps (step p) (During tid) r1 bs)
    (hrun : runSteps (step p) r1 bs = some r2) :
    Thread.Squashing s ((ofThread tid bs).foldl Thread.between nodes)
        (left - (ofThread tid bs).countP Action.isDoSquash) (r2.threads tid) := by
  have hmine : ∀ (r : ROB numThreads) a r', decide (a.tid = tid) → step p r a = some r' →
      (r.threads tid).step p a = some (r'.threads tid) := by
    intro r a r' ha hstep
    obtain ⟨t, ht, hthreads, -⟩ := step_thread hstep
    rw [hthreads, ← of_decide_eq_true ha, update_self]
    exact ht
  have hother : ∀ (r : ROB numThreads) a r', ¬ decide (a.tid = tid) → step p r a = some r' →
      r'.threads tid = r.threads tid := by
    intro r a r' ha hstep
    obtain ⟨t, -, hthreads, -⟩ := step_thread hstep
    rw [hthreads, update_of_ne (by simpa [eq_comm] using ha)]
  refine h.run hwidth hsorted ?_ (runSteps_project (fun r => r.threads tid) _ hmine hother hrun)
  exact hduring.project (fun r => r.threads tid) _ hmine hother
    (fun r a ha hallowed => hallowed (of_decide_eq_true ha)) hrun

attribute [local instance] neZero_two

/-- Instructions of two threads, some of them squashed before. -/
def twoThreads : List (Action 2) :=
  [.insertInst ⟨1, 0, false, false, false, false⟩, .insertInst ⟨2, 0, true, true, false, false⟩,
    .insertInst ⟨3, 1, false, false, false, false⟩, .insertInst ⟨4, 0, false, false, false, false⟩,
    .insertInst ⟨5, 0, false, true, false, false⟩]

def bothThreads : CPU 2 := ⟨[0, 1], fun _ => false⟩

end ROB
