/-
# Memory and the data of a cache that shares its line

Memory answers what it was asked (`service`), and the directory passes its answer on
(`serveS`, `serveM`) or is done with writing back.  The data that the last one in line
sends to the directory goes to memory.
-/
import Gem5.MSIPutSteps

open Function

namespace MSI

open MSI.System

open Ruby Ghost

variable {N : Type} {b : ℕ} [DecidableEq N] {rest : List (MemoryMsg N b)} {m : MemoryMsg N b}

/-! ## What the directory does -/

namespace Dir

theorem handle_memData_M_m (line : Addr) (sharers : Finset N) (i : N) (v : DataBlock b) :
    handle ⟨line, .M_m, sharers, {i}, []⟩ (.memory ⟨line, .MEMORY_READ, i, v, 0⟩)
      = .ok { dir := ⟨line, .M, ∅, {i}, []⟩, inMsg := .memory ⟨line, .MEMORY_READ, i, v, 0⟩,
              responses := [(i, ⟨v, sharers.card⟩)], popped := true } := by
  have hacks : (if i ∈ ({i} : Finset N) then (sharers.card : ℤ) else 0) = sharers.card :=
    if_pos (Finset.mem_singleton_self i)
  rw [← hacks]
  rfl

end Dir

namespace System

variable (s : System N b) {ctx : DirCtx N b}

theorem deliverMemory_eq (hpop : ctx.popped = true) (hforward : ctx.forwards = []) :
    s.deliverMemory m rest ctx
      = { s with
          dir := ctx.dir
          responseFromMemory := rest
          dirData := push s.dirData ctx.responses } := by
  simp [deliverMemory, afterDir, consume, hpop, hforward]

end System

namespace Coherent

variable {s : System N b} {line : Addr} {v : DataBlock b} {g : Ghost N}

/-! ## Memory answers -/

variable (h : Coherent s line v g)

include h

/-- Only the queues and the line in memory change. -/
theorem setMemory {q answers : List (MemoryMsg N b)} {mem : Memory}
    (hqueue : g.tok.Queue line v g.line.head? q answers mem) :
    Coherent
      { s with
        mem := mem
        dir := { s.dir with requestToMemory := q }
        responseFromMemory := answers }
      line v g :=
  ⟨h.nodup, h.counts, h.disjoint, h.down, h.fits, h.dataToDir, h.responses,
    ⟨h.dir.addr, h.dir.dirState, h.dir.owner, h.dir.count, h.dir.sharers, h.dir.empty, hqueue⟩⟩

/-- What there is in the queue to memory. -/
theorem queue_cases (hm : s.dir.requestToMemory = m :: rest) :
    rest = [] ∧ s.responseFromMemory = [] ∧
      ((∃ i, m = ⟨line, .MEMORY_READ, i, fun _ => 0, 0⟩ ∧ readBlock s.mem line.toNat = v ∧
          (g.tok = .read i ∨ (∃ acks, g.tok = .fetch acks) ∧ g.line.head? = some i)) ∨
        ∃ i shared, m = ⟨line, .MEMORY_WB, i, v, 0⟩ ∧ g.tok = .writeBack i shared) := by
  have hqueue := h.dir.queue
  rw [hm] at hqueue
  unfold Token.Queue at hqueue
  split at hqueue
  · cases hqueue.1
  · next i htok =>
    rcases hqueue with ⟨hq, hans, hmem⟩ | ⟨hq, -⟩
    · cases hq
      exact ⟨rfl, hans, .inl ⟨i, rfl, hmem, .inl htok⟩⟩
    · cases hq
  · next acks i htok hhead =>
    rcases hqueue with ⟨hq, hans, hmem⟩ | ⟨hq, -⟩
    · cases hq
      exact ⟨rfl, hans, .inl ⟨i, rfl, hmem, .inr ⟨⟨acks, htok⟩, hhead⟩⟩⟩
    · cases hq
  · next i shared htok =>
    rcases hqueue with ⟨hq, hans⟩ | ⟨hq, -⟩
    · cases hq
      exact ⟨rfl, hans, .inr ⟨i, shared, rfl, htok⟩⟩
    · cases hq
  · cases hqueue.1

/-- **Memory answers** a request. -/
theorem service (hb : b < 64) (hline : 2 ^ b ∣ line.toNat) (hm : s.dir.requestToMemory = m :: rest)
    : ∃ mem answer, serviceMemoryQueue m s.mem = some (mem, answer) ∧
      Coherent (s.afterService rest mem answer) line v g := by
  obtain ⟨rfl, hans, hread | ⟨i, shared, rfl, htok⟩⟩ := h.queue_cases hm
  · obtain ⟨i, rfl, hmem, htok⟩ := hread
    refine ⟨_, _, service_read line i _ s.mem, ?_⟩
    unfold afterService
    rw [hans, hmem]
    apply h.setMemory
    rcases htok with htok | ⟨⟨acks, htok⟩, hhead⟩
    · rw [htok]
      exact .inr ⟨rfl, rfl, hmem⟩
    · rw [htok, hhead]
      exact .inr ⟨rfl, rfl, hmem⟩
  · obtain ⟨mem, hservice, hmem⟩ := service_writeBack hb hline i v s.mem
    refine ⟨mem, _, hservice, ?_⟩
    unfold afterService
    rw [hans]
    apply h.setMemory
    rw [htok]
    exact .inr ⟨rfl, rfl, hmem⟩

/-! ## The directory gets the answer -/

/-- What there is among the answers of memory. -/
theorem answer_cases (hm : s.responseFromMemory = m :: rest) :
    rest = [] ∧ s.dir.requestToMemory = [] ∧ readBlock s.mem line.toNat = v ∧
      ((∃ i, m = ⟨line, .MEMORY_READ, i, v, 0⟩ ∧
          (g.tok = .read i ∨ (∃ acks, g.tok = .fetch acks) ∧ g.line.head? = some i)) ∨
        ∃ i shared, m = ⟨line, .MEMORY_WB, i, fun _ => 0, 0⟩ ∧ g.tok = .writeBack i shared) := by
  have hqueue := h.dir.queue
  rw [hm] at hqueue
  unfold Token.Queue at hqueue
  split at hqueue
  · cases hqueue.2.1
  · next i htok =>
    rcases hqueue with ⟨-, hans, -⟩ | ⟨hq, hans, hmem⟩
    · cases hans
    · cases hans
      exact ⟨rfl, hq, hmem, .inl ⟨i, rfl, .inl htok⟩⟩
  · next acks i htok hhead =>
    rcases hqueue with ⟨-, hans, -⟩ | ⟨hq, hans, hmem⟩
    · cases hans
    · cases hans
      exact ⟨rfl, hq, hmem, .inl ⟨i, rfl, .inr ⟨⟨acks, htok⟩, hhead⟩⟩⟩
  · next i shared htok =>
    rcases hqueue with ⟨-, hans⟩ | ⟨hq, hans, hmem⟩
    · cases hans
    · cases hans
      exact ⟨rfl, hq, hmem, .inr ⟨i, shared, rfl, htok⟩⟩
  · cases hqueue.2

/-- **The data for a `GetS`** is sent on. -/
theorem serveS {i : N} (htok : g.tok = .read i) (hmem : readBlock s.mem line.toNat = v) :
    let g' : Ghost N := { g with role := update g.role i (.waitS .directory), tok := .settled true }
    Coherent
      { s with
        dir := ⟨line, .S, s.dir.sharers, ∅, []⟩
        responseFromMemory := []
        dirData := update s.dirData i (s.dirData i ++ [⟨v, 0⟩]) }
      line v g' := by
  intro g'
  obtain ⟨hi, hrole⟩ := h.mem_sharers_of_read htok
  have hcounts := h.counts
  simp only [Counts, htok] at hcounts
  obtain ⟨hnil, hinv, hack, hdown⟩ := hcounts
  have hnew : ∀ j, g'.place j = ⟨.outside, none, false⟩ := fun j =>
    place_of_nil hnil (by simp) hdown
  have hold_i : g.place i = ⟨.reading, none, false⟩ := by
    simp [place, part, hnil, htok]
  have hold : ∀ j, j ≠ i → g.place j = ⟨.outside, none, false⟩ := fun j hj =>
    place_of_nil hnil (by simpa [htok] using hj.symm) hdown
  refine ⟨h.nodup, ⟨hnil, hinv, hack, hdown⟩, h.disjoint, h.down, ?_, ?_, ?_, ?_⟩
  · refine h.fits_update rfl (fun j hj => (hnew j).trans (hold j hj).symm) ?_ ?_
    · intro j hj
      simp [localAt, hj]
    · have hfits := h.fits i
      rw [hrole, hold_i] at hfits
      have hdata : s.dirData i = [] := hfits.dirData
      rw [hnew i]
      refine ⟨⟨rfl, by simp⟩, hfits.cache, hfits.requests, hfits.forwards, ?_⟩
      simp [localAt, hdata, Place.dirAcks, Role.source]
  · intro j
    rw [h.dataToDir j, if_neg (by simp [htok]), if_neg (by simp)]
  · refine h.responses_update rfl ?_ ?_ ?_
    · simp [hrole]
    · simp [htok]
    · exact fun _ _ => .rfl
  · refine ⟨rfl, rfl, ?_, by simp, ?_, by simp, ⟨rfl, rfl, hmem⟩⟩
    · simp [owner, g', hnil]
    · intro _ j
      rw [hnew j, Place.shares_of_not_busy rfl]
      by_cases hj : j = i
      · subst hj
        exact iff_of_true hi (by simp [g', Role.Recorded])
      · have hsharers := h.dir.sharers (by simp [htok]) j
        rw [hold j hj] at hsharers
        rw [show g'.role j = g.role j from update_of_ne hj _ _]
        exact hsharers

/-- **The data for the head of the line** is sent on, with the number of acks it has to
wait for. -/
theorem serveM {i : N} {acks : ℕ} (htok : g.tok = .fetch acks) (hhead : g.line.head? = some i) :
    let g' : Ghost N := { g with tok := .dirData acks }
    Coherent
      { s with
        dir := ⟨line, .M, ∅, {i}, []⟩
        responseFromMemory := []
        dirData := update s.dirData i (s.dirData i ++ [⟨v, acks⟩]) }
      line v g' := by
  intro g'
  have hcounts := h.counts
  simp only [Counts, htok] at hcounts
  obtain ⟨⟨x, hx⟩, hdown, hle⟩ := hcounts
  obtain rfl : x = i := by
    rw [hx] at hhead
    exact Option.some.inj hhead
  have hne : g.line ≠ [] := by simp [hx]
  have hnotMem := h.notMem_inv hhead
  have hold : g.place x = ⟨.head (.fetch acks) g.acks (g.next x), none, true⟩ := by
    rw [place_of_head hhead hnotMem, htok]
  have hacks : g'.acks = g.acks := by simp [Ghost.acks, g', htok]
  have hself : g'.place x = ⟨.head (.dirData acks) g.acks (g.next x), none, true⟩ := by
    rw [← hacks]
    exact place_of_head hhead hnotMem
  have hother : ∀ j, j ≠ x → g'.place j = g.place j := by
    intro j hj
    refine place_congr rfl rfl Iff.rfl ?_ ?_
    · simp [htok]
    · exact fun hj' => absurd (Option.some.inj (hj'.symm.trans hhead)) hj
  have hfits := h.fits x
  rw [hold] at hfits
  obtain ⟨copy, hrole⟩ : ∃ copy, g.role x = .waitM copy := by
    rcases hfits.allowed.of_head rfl with ⟨copy, hrole, -⟩ | ⟨copy, -, hcollect⟩ | ⟨-, hheld⟩
    · exact ⟨copy, hrole⟩
    · cases hcollect
    · cases hheld
  rw [hrole] at hfits
  refine ⟨h.nodup, ⟨hne, hle⟩, h.disjoint, h.down, ?_, ?_, ?_, ?_⟩
  · refine h.fits_update (update_eq_self x g.role).symm hother ?_ ?_
    · intro j hj
      simp [localAt, hj]
    · have hdata : s.dirData x = [] := hfits.dirData
      rw [hself, hrole]
      refine ⟨.inl ⟨_, _, .inl ⟨acks, .inr rfl⟩, rfl⟩, hfits.cache, hfits.requests,
        hfits.forwards, ?_⟩
      simp [localAt, hdata, Place.dirAcks, Role.source, Part.dirAcks]
  · intro j
    rw [h.dataToDir j, if_neg (by simp [htok]), if_neg (by simp)]
  · intro j k
    refine (h.responses j k).trans (Eq.symm (responses_congr v ?_ .rfl))
    simp [g', htok]
  · refine ⟨rfl, ?_, ?_, by simp, ?_, by simp, ⟨rfl, rfl⟩⟩
    · simp [dirState, g', hdown]
    · simp [owner, g', hdown, hx]
    · intro _ j
      exact iff_of_false (Finset.notMem_empty j) (not_shares (g := g') hne hdown _)

/-- **An answer of memory arrives.** -/
theorem good_memory (hm : s.responseFromMemory = m :: rest) :
    Good line v ((s.dir.handle (.memory m)).map fun ctx => (s.deliverMemory m rest ctx, none)) := by
  obtain ⟨rfl, hq, hmem, hread | ⟨i, shared, rfl, htok⟩⟩ := h.answer_cases hm
  · obtain ⟨i, rfl, htok | ⟨⟨acks, htok⟩, hhead⟩⟩ := hread
    · have hcounts := h.counts
      simp only [Counts, htok] at hcounts
      have hdir : s.dir = ⟨line, .S_m, s.dir.sharers, ∅, []⟩ := by
        conv_lhs => rw [h.dir_eq, hq]
        simp [dirState, owner, htok, hcounts.1]
      refine ⟨_, none, ?_, by simp, _, h.serveS htok hmem⟩
      rw [hdir]
      show Except.ok (s.deliverMemory _ _ _, _) = _
      rw [deliverMemory_eq s rfl rfl, ← push_singleton]
      rfl
    · have hcounts := h.counts
      simp only [Counts, htok] at hcounts
      obtain ⟨⟨x, hx⟩, hdown, -⟩ := hcounts
      obtain rfl : x = i := by
        rw [hx] at hhead
        exact Option.some.inj hhead
      have hdir : s.dir = ⟨line, .M_m, s.dir.sharers, {x}, []⟩ := by
        conv_lhs => rw [h.dir_eq, hq]
        simp [dirState, owner, htok, hdown, hx]
      have hhandle := Dir.handle_memData_M_m line s.dir.sharers x v
      rw [← hdir, h.dir.count acks htok] at hhandle
      refine ⟨_, none, ?_, by simp, _, h.serveM htok hhead⟩
      rw [hhandle]
      show Except.ok (s.deliverMemory _ _ _, _) = _
      rw [deliverMemory_eq s rfl rfl, push_singleton]
  · have hold : g.tok.Unlined := by rw [htok]; trivial
    have hnil := (h.counts.of_unlined hold).1
    have hstate : g.dirState = if shared then .SS_m else .MI_m := by simp [dirState, htok]
    have hempty : shared = false → s.dir.sharers = ∅ := by
      rintro rfl
      exact h.dir.empty (.inr (h.dir.dirState.trans hstate))
    have hdir : s.dir = ⟨line, if shared then .SS_m else .MI_m, s.dir.sharers, ∅, []⟩ := by
      conv_lhs => rw [h.dir_eq, hq, hstate]
      simp [owner, hnil]
    refine ⟨_, none, ?_, by simp, _, h.retok (.settled shared) (if shared then .S else .I) [] []
      s.mem s.dataToDir hold trivial rfl ?_ ?_ ?_⟩
    · rw [hdir]
      cases shared with
      | true =>
        show Except.ok (s.deliverMemory _ _ _, _) = _
        rw [deliverMemory_eq s rfl rfl, push_nil]
        rfl
      | false =>
        rw [hempty rfl]
        show Except.ok (s.deliverMemory _ _ _, _) = _
        rw [deliverMemory_eq s rfl rfl, push_nil]
        rfl
    · intro hst
      apply hempty
      cases shared with
      | true => simp at hst
      | false => rfl
    · intro j
      rw [h.dataToDir j, if_neg (by simp [htok]), if_neg (by simp)]
    · exact fun _ => ⟨rfl, rfl, hmem⟩

/-- **The data of a cache arrives** that has shared its line. -/
theorem good_dataToDir {i : N} {m : DataBlock b} {rest : List (DataBlock b)}
    (hm : s.dataToDir i = m :: rest) :
    Good line v ((s.dir.handle (.response i m)).map fun ctx =>
      (s.deliverDataToDir i m rest ctx, none)) := by
  have hdata := h.dataToDir i
  rw [hm] at hdata
  split_ifs at hdata with htok
  obtain ⟨rfl, rfl⟩ := List.cons.inj hdata
  have hold : g.tok.Unlined := by rw [htok]; trivial
  have hnil := (h.counts.of_unlined hold).1
  have hqueue := h.dir.queue
  rw [htok] at hqueue
  have hdir : s.dir = ⟨line, .S_D, s.dir.sharers, ∅, []⟩ := by
    conv_lhs => rw [h.dir_eq, hqueue.1]
    simp [dirState, owner, htok, hnil]
  refine ⟨_, none, ?_, by simp, _, h.retok (.writeBack i true) .SS_m
    [⟨line, .MEMORY_WB, i, m, 0⟩] s.responseFromMemory s.mem (update s.dataToDir i [])
    hold trivial rfl (by simp) ?_ ?_⟩
  · rw [hdir]
    show Except.ok (s.deliverDataToDir _ _ _ _, _) = _
    simp [deliverDataToDir, afterDir, consume]
  · intro j
    rw [if_neg (by simp)]
    by_cases hj : j = i
    · subst hj
      rw [update_self]
    · rw [update_of_ne hj, h.dataToDir j, if_neg]
      rw [htok]
      exact fun hji => hj (Token.downgrade.inj hji).symm
  · exact fun _ => .inl ⟨rfl, hqueue.2⟩

end Coherent

end MSI
