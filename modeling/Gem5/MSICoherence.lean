/-
# Coherence of the MSI protocol

The invariant holds in every state that a run reaches, with any number of caches, and a run
can only end in one fault, the one of a `PutS` that was overtaken.
-/
import Gem5.MSIMemorySteps

open Option

namespace MSI

open MSI.System

open Ruby MSI.System

variable {N : Type} {b : ℕ} [DecidableEq N] {v : DataBlock b} {line : Addr} {g : Ghost N}

variable {l : Label N b}

/-- **Every step keeps the invariant**, apart from the one that is a fault. -/
theorem Coherent.step {s : System N b} (h : Coherent s line v g) (hb : b < 64)
    (hline : 2 ^ b ∣ line.toNat) {out : Outcome (System N b) b}
    (hstep : s.step l = some out) (hl : ¬ s.Overtaken l) : Good line v out := by
  cases l with
  | load i =>
    cases hstep
    exact h.good_load i
  | store i w =>
    cases hstep
    exact h.good_store i
  | replacement i =>
    simp only [step] at hstep
    split_ifs at hstep with hentry
    cases hstep
    exact h.good_replacement hentry
  | forward i | dirData i w | response j i w | dataToDir i | memory =>
    simp only [step] at hstep
    split at hstep
    · cases hstep
    · rename_i m rest hm
      cases hstep
      first
        | exact h.good_deliver_forward hm
        | exact h.good_dirData hm
        | exact h.good_response hm
        | exact h.good_dataToDir hm
        | exact h.good_memory hm
  | request i =>
    simp only [step] at hstep
    split at hstep
    · cases hstep
    · rename_i m rest hm
      cases hstep
      cases m with
      | GetS => exact h.good_getS hm
      | GetM => exact h.good_getM hm
      | PutS => exact h.good_putS hm fun hrace => hl ⟨⟨rest, hm⟩, hrace⟩
      | PutM blk => exact h.good_putM hm
  | serviceMemory =>
    simp only [step] at hstep
    split at hstep
    · cases hstep
    · rename_i m rest hm
      obtain ⟨mem, answer, hservice, hcoherent⟩ := h.service hb hline hm
      rw [hservice] at hstep
      cases hstep
      exact ⟨_, none, rfl, by simp, g, hcoherent⟩

variable {s s' : System N b}

/-- A step that goes well keeps the invariant. -/
theorem Coherent.step_ok (h : Coherent s line v g) (hb : b < 64) (hline : 2 ^ b ∣ line.toNat)
    {c : Option (Completion b)} (hstep : s.step l = some (.ok (s', c))) :
    (∀ x, c = some x → x.seen = v) ∧ ∃ g, Coherent s' line (valueAfter v c) g := by
  have hl : ¬ s.Overtaken l := by
    intro hl
    obtain ⟨fault, hfault⟩ := step_of_overtaken hl
    rw [hstep] at hfault
    cases hfault
  obtain ⟨s1, c1, heq, hseen, hcoherent⟩ := h.step hb hline hstep hl
  obtain ⟨rfl, rfl⟩ := Prod.mk.inj (Except.ok.inj heq)
  exact ⟨hseen, hcoherent⟩

theorem coherent_init (line : Addr) (mem : Memory) :
    Coherent (init line mem : System N b) line (readBlock mem line.toNat)
      ⟨fun _ => .idle, [], .settled false, ∅, ∅, none⟩ where
  nodup := List.nodup_nil
  counts := ⟨rfl, rfl, rfl, rfl⟩
  disjoint := Finset.disjoint_empty_left _
  down := nofun
  fits := by
    intro i
    exact ⟨⟨rfl, rfl⟩, ⟨fun _ => 0, rfl, False.elim⟩, ⟨fun _ => 0, rfl, False.elim⟩, rfl, rfl⟩
  dataToDir := fun _ => rfl
  responses := by
    intro j i
    rfl
  dir := by
    refine ⟨rfl, rfl, rfl, nofun, ?_, fun _ => rfl, ⟨rfl, rfl, rfl⟩⟩
    intro _ j
    exact iff_of_false (Finset.notMem_empty j) id

/-- **The invariant holds after every run.** -/
theorem coherent_run (hb : b < 64) (hline : 2 ^ b ∣ line.toNat) {mem : Memory}
    {ls : List (Label N b)} (hrun : runSteps next (init line mem) ls = some s) :
    ∃ g, Coherent s line (latestStore step (init line mem) (readBlock mem line.toNat) ls) g := by
  refine latestStore_invariant (I := fun s v => ∃ g, Coherent s line v g) ?_
    ⟨_, coherent_init line mem⟩ hrun
  rintro s v l s' c ⟨g, h⟩ hstep
  exact (h.step_ok hb hline hstep).2

theorem Coherent.getState_eq {s : System N b} (h : Coherent s line v g) (i : N) :
    (s.caches i).getState = (g.role i).state := by
  obtain ⟨d, hc, -⟩ := (h.fits i).cache
  rw [show s.caches i = _ from hc]
  exact Cache.getState_record _ _ _

/-- **Coherence of MSI**: in every state that is reached, a cache in `M` excludes the
others that may read; those that may read have the value of the latest store; and every
access that completes sees it. -/
theorem single_writer_latest_value (hb : b < 64) (line : Addr) (hline : 2 ^ b ∣ line.toNat)
    (mem : Memory) (labels : List (Label N b)) (s : System N b)
    (hrun : runSteps next (init line mem) labels = some s) :
    (∀ i, (s.caches i).getState = .M → ∀ j, j ≠ i → ¬ (s.caches j).getState.Readable) ∧
    (∀ i, (s.caches i).getState.Readable → ∃ e, (s.caches i).entry = some e ∧
      e.dataBlk = latestStore step (init line mem) (readBlock mem line.toNat) labels) ∧
    ∀ l s' c, s.step l = some (.ok (s', some c)) →
      c.seen = latestStore step (init line mem) (readBlock mem line.toNat) labels := by
  obtain ⟨g, h⟩ := coherent_run hb hline hrun
  refine ⟨?_, ?_, ?_⟩
  · intro i hi j hj hread
    rw [h.getState_eq, Role.state_eq_M] at hi
    rw [h.getState_eq] at hread
    have hallowed := (h.fits i).allowed
    rw [hi] at hallowed
    obtain ⟨⟨next, hpart⟩, -⟩ := hallowed
    obtain ⟨hhead, htok, -, -⟩ := Ghost.head_of_part hpart
    have hcounts := h.counts
    simp only [Ghost.Counts, htok] at hcounts
    have hother : g.line.head? ≠ some j := fun hhead' =>
      hj (some.inj (hhead'.symm.trans hhead))
    exact (h.not_fresh hcounts.1 hcounts.2.1 hother).1 (Place.fresh_of_readable hread)
  · intro i hread
    rw [h.getState_eq] at hread
    obtain ⟨d, hc, hd⟩ := (h.fits i).cache
    rw [show s.caches i = _ from hc, ← hd (Place.fresh_of_readable hread)]
    rcases hread with hst | hst | hst | hst <;> rw [hst] <;> exact ⟨_, rfl, rfl⟩
  · intro l s' c hstep
    exact (h.step_ok hb hline hstep).1 c rfl

attribute [local instance] neZero_two

/-- Cache 0 stores, and cache 1 gets the line from it to read. -/
def twoCaches : List (Label (Fin 2) 6) :=
  [.store 0 fun _ => 7, .request 0, .serviceMemory, .memory, .dirData 0 fun _ => 7, .load 1,
    .request 1, .forward 0, .response 0 1 fun _ => 0]

theorem single_writer_latest_value_twoCaches :
    ∃ s, runSteps next (init 0 fun _ => 0) twoCaches = some s ∧
      (s.caches 1).getState.Readable ∧ ∃ e, (s.caches 1).entry = some e ∧ e.dataBlk = fun _ => 7 := by
  obtain ⟨s, hs, hread⟩ : ∃ s, runSteps next (init 0 fun _ => 0) twoCaches = some s ∧
      (s.caches 1).getState.Readable := ⟨_, rfl, .inl rfl⟩
  refine ⟨s, hs, hread, ?_⟩
  exact (single_writer_latest_value (by decide) 0 (by decide) (fun _ => 0) twoCaches s hs).2.1 1 hread

/-- **The one fault of MSI.**  After every run, with any number of caches, a step ends
in an assertion that fails or in a transition that is missing exactly if it is a `PutS`
that was overtaken. -/
theorem fault_iff_overtaken (hb : b < 64) (line : Addr) (hline : 2 ^ b ∣ line.toNat) (mem : Memory)
    (labels : List (Label N b)) (s : System N b)
    (hrun : runSteps next (init line mem) labels = some s) (l : Label N b) (out : Outcome (System N b) b)
    (hstep : s.step l = some out) : (∃ fault, out = .error fault) ↔ s.Overtaken l := by
  obtain ⟨g, h⟩ := coherent_run hb hline hrun
  constructor
  · rintro ⟨fault, rfl⟩
    by_contra hl
    obtain ⟨s', c, heq, -⟩ := h.step hb hline hstep hl
    cases heq
  · intro hl
    obtain ⟨fault, hfault⟩ := step_of_overtaken hl
    rw [hstep] at hfault
    exact ⟨fault, some.inj hfault⟩

/-- Cache 0 gets a copy and evicts it.  Before its `PutS` arrives, cache 1 stores, writes
back and asks for a copy: it is the only sharer then. -/
def overtakenByGetS : List (Label (Fin 2) 6) :=
  [.load 0, .request 0, .serviceMemory, .memory, .dirData 0 fun _ => 0, .replacement 0,
    .store 1 fun _ => 7, .request 1, .forward 0, .response 0 1 fun _ => 7, .serviceMemory, .memory,
    .dirData 1 fun _ => 7, .replacement 1, .request 1, .forward 1, .serviceMemory, .memory, .load 1,
    .request 1]

/-- Cache 1 stores and evicts the line while it has to share it with cache 0, which evicts
its copy as well.  The `PutM` comes first and leaves cache 0 as the last sharer. -/
def overtakenByPutM : List (Label (Fin 2) 6) :=
  [.load 0, .store 1 fun _ => 7, .request 1, .serviceMemory, .memory, .request 0,
    .dirData 1 fun _ => 7, .replacement 1, .forward 1, .response 1 0 fun _ => 0, .replacement 0,
    .request 1, .dataToDir 1]

/-- The `PutS` fails the assertion on the one sharer, and it has no transition. -/
theorem overtaken_putS_faults :
    (∃ s, runSteps next (init 0 fun _ => 0) overtakenByGetS = some s ∧
      s.step (.request 0) = some (.error .assertion)) ∧
    ∃ s, runSteps next (init 0 fun _ => 0) overtakenByPutM = some s ∧
      s.step (.request 0) = some (.error .missing) := by
  exact ⟨⟨_, rfl, rfl⟩, _, rfl, rfl⟩

/-- Cache 0 gets a copy and evicts it. -/
def inTime : List (Label (Fin 2) 6) :=
  [.load 0, .request 0, .serviceMemory, .memory, .dirData 0 fun _ => 0, .replacement 0]

/-- A `PutS` that nothing overtakes is answered. -/
theorem fault_iff_overtaken_inTime :
    ∃ s out, runSteps next (init 0 fun _ => 0) inTime = some s ∧
      s.step (.request 0) = some out ∧ ∀ fault, out ≠ .error fault := by
  obtain ⟨s, out, hs, hout, hsharers, hstate⟩ : ∃ s out,
      runSteps next (init 0 fun _ => 0) inTime = some s ∧
      s.step (.request 0) = some out ∧ s.dir.sharers = {0} ∧ s.dir.dirState = .S :=
    ⟨_, _, rfl, rfl, rfl, rfl⟩
  refine ⟨s, out, hs, hout, ?_⟩
  rintro fault rfl
  have hlate := (fault_iff_overtaken (by decide) 0 (by decide) (fun _ => 0) inTime s hs (.request 0)
    _ hout).mp ⟨fault, rfl⟩
  obtain ⟨-, -, hnot | hlate⟩ := hlate
  · simp [hsharers] at hnot
  · rw [hstate] at hlate
    cases hlate

end MSI
