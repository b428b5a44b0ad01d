/-
# DMA writes at the directory of MI_example

A DMA write that finds the line in `M` waits alone, as in MESI_Two_Level: memory is
not written until the `PUTX` of the owner has come, and then by the request that is
made of the TBE (`System.Waiting`, `System.Queued`).
-/
import Gem5.MIExampleRaces

open Option

namespace MIExample

open Ruby

variable {N D : Type} {b : ℕ} {i : N}

namespace Dir

/-- The directory while a DMA write waits for the `PUTX` of the owner. -/
def waiting (line : Addr) (owner : Finset N) (d : D) (msg : DMARequestMsg b) : Dir N D b where
  line := line
  entry := ⟨.M_DWR, owner⟩
  tbe := some ⟨msg.physicalAddress, .M_DWR, msg.dataBlk, msg.len, some d⟩
  requestToMemory := []

/-- The directory after the `PUTX` of the cache `r`. -/
def queued (line : Addr) (r : N) (d : D) (msg : DMARequestMsg b) : Dir N D b where
  line := line
  entry := ⟨.M_DWRI, ∅⟩
  tbe := some ⟨msg.physicalAddress, .M_DWRI, msg.dataBlk, msg.len, some d⟩
  requestToMemory := [⟨line, .MEMORY_WB, .L1Cache r, msg.dataBlk, msg.len⟩]

section

variable [DecidableEq N] {dir : Dir N D b} {ctx : DirCtx N D b} {line : Addr} {owner : Finset N}
  {r : N} {d : D} {msg : DMARequestMsg b} {m : RequestMsg b}

/-- A DMA write finds the line owned. -/
theorem Ok.handle_dmaWrite (h : dir.Ok []) (howned : dir.getState = .M) (hmsg : msg.type = .WRITE)
    (hctx : dir.handle (.dmaRequest d msg) = .ok ctx) :
    ctx.dir = waiting dir.line dir.entry.owner d msg := by
  have hfits := h.fits
  rw [howned] at hfits
  have htbe := hfits.tbe_eq_none not_false
  have hq := hfits.memory
  obtain ⟨line, entry, tbe, q⟩ := dir
  obtain rfl : tbe = none := htbe
  obtain rfl : q = [] := by simpa [outstanding] using hq
  have hevent : event (⟨line, entry, none, []⟩ : Dir N D b) (.dmaRequest d msg) = .DMA_WRITE := by
    simp [event, hmsg]
  obtain ⟨ctx', hrun, hset, -⟩ := runActions_of_handle hctx (by rw [howned, hevent]; rfl)
  cases hrun
  rw [setState_eq_some hset]
  rfl

/-- In `M_DWR` only the `PUTX` of the owner changes the directory. -/
theorem handle_waiting_request (hctx : (waiting line owner d msg).handle (.request i m) = .ok ctx) :
    ctx.dir = waiting line owner d msg ∨ ctx.dir = queued line i d msg := by
  cases m with
  | GETX =>
    cases hctx
    exact .inl rfl
  | GETS => cases hctx
  | PUTX blk =>
    by_cases hi : i ∈ owner
    · have hevent : event (waiting line owner d msg) (.request i (.PUTX blk)) = .PUTX :=
        if_pos hi
      obtain ⟨ctx', hrun, hset, -⟩ := runActions_of_handle hctx (by rw [hevent]; rfl)
      cases hrun
      right
      rw [setState_eq_some hset]
      rfl
    · have hevent : event (waiting line owner d msg) (.request i (.PUTX blk)) = .PUTX_NotOwner :=
        if_neg hi
      obtain ⟨ctx', hrun, hset, -⟩ := runActions_of_handle hctx (by rw [hevent]; rfl)
      cases hrun
      left
      rw [setState_eq_some hset]
      rfl

/-- In `M_DWRI` nothing changes before memory has answered. -/
theorem handle_queued_request (hctx : (queued line r d msg).handle (.request i m) = .ok ctx) :
    ctx.dir = queued line r d msg := by
  cases m with
  | GETX =>
    cases hctx
    rfl
  | GETS => cases hctx
  | PUTX blk =>
    have hevent : event (queued line r d msg) (.request i (.PUTX blk)) = .PUTX_NotOwner := by
      simp [event, queued]
    obtain ⟨ctx', hrun, hset, -⟩ := runActions_of_handle hctx (by rw [hevent]; rfl)
    cases hrun
    rw [setState_eq_some hset]
    rfl

end

end Dir

namespace System

section

variable [DecidableEq N] [DecidableEq D] {s s' : System N D b} {l : Label N D b}

/-! ## A DMA write of an owned line -/

/-- The DMA write waits for the data of the owner. -/
def Waiting (line : Addr) (d : D) (msg : DMARequestMsg b) (mem : Memory) (s : System N D b) : Prop :=
  ∃ owner, s.dirSide = (Dir.waiting line owner d msg, mem, [])

/-- The data has come, and memory was asked to write. -/
def Queued (line : Addr) (d : D) (msg : DMARequestMsg b) (mem : Memory) (s : System N D b) : Prop :=
  ∃ r, s.dirSide = (Dir.queued line r d msg, mem, [])

variable {line : Addr} {d : D} {msg : DMARequestMsg b} {mem : Memory}

/-- A DMA write finds the line owned. -/
theorem Ok.waiting (h : s.Ok) (howned : s.dir.getState = .M) {k : ℕ}
    {rest : List (DMARequestMsg b)} (hq : s.dmaRequests d = msg :: rest) (hmsg : msg.type = .WRITE)
    (hnext : s.next (.dmaRequest d k) = some s') : Waiting s.dir.line d msg s.mem s' := by
  have hanswers : s.responseFromMemory = [] := by
    have hmem := h.dir.fits.memory
    rw [howned] at hmem
    exact (List.append_eq_nil_iff.mp (List.map_eq_nil_iff.mp hmem)).1
  have hdir := h.dir
  rw [hanswers] at hdir
  rcases (next_dirSide hnext).2 with ⟨hl, -, -⟩ | ⟨_, _, _, _, _, ⟨heq, -⟩, -⟩ |
    ⟨d', k', m, rest', ctx, ⟨heq, hq', hctx⟩, hside⟩ | ⟨_, _, _, _, ⟨heq, -⟩, -⟩ |
    ⟨_, _, _, ⟨heq, -⟩, -⟩
  · exact absurd trivial hl
  · cases heq
  · cases heq
    rw [hq] at hq'
    cases hq'
    refine ⟨s.dir.entry.owner, ?_⟩
    rw [hside, hdir.handle_dmaWrite howned hmsg hctx, hanswers]
  · cases heq
  · cases heq

/-- In `M_DWR` only the data of the owner changes the side of the directory. -/
theorem Waiting.next (h : Waiting line d msg mem s) (hnext : s.next l = some s') :
    Waiting line d msg mem s' ∨ Queued line d msg mem s' := by
  obtain ⟨owner, hs⟩ := h
  obtain ⟨hdir, hmem, hanswers⟩ : s.dir = _ ∧ s.mem = _ ∧ s.responseFromMemory = _ := by
    simpa [dirSide] using hs
  rcases (next_dirSide hnext).2 with ⟨-, -, hside⟩ | ⟨i, _, m, _, ctx, ⟨-, -, hctx⟩, hside⟩ |
    ⟨_, _, m, _, ctx, ⟨-, -, hctx⟩, -⟩ | ⟨_, _, _, _, ⟨-, hq, -⟩, -⟩ | ⟨_, _, _, ⟨-, hq, -⟩, -⟩
  · exact .inl ⟨owner, hside.trans hs⟩
  · rw [hdir] at hctx
    rw [hmem, hanswers] at hside
    rcases Dir.handle_waiting_request hctx with heq | heq
    · exact .inl ⟨owner, by rw [hside, heq]⟩
    · exact .inr ⟨i, by rw [hside, heq]⟩
  · rw [hdir] at hctx
    obtain ⟨type, addr, blk, len⟩ := m
    cases type <;> cases hctx
  · rw [hdir] at hq
    cases hq
  · rw [hanswers] at hq
    cases hq

/-- In `M_DWRI` everything waits until memory has answered. -/
theorem Queued.next (h : Queued line d msg mem s) (hl : l ≠ .serviceMemory)
    (hnext : s.next l = some s') : Queued line d msg mem s' := by
  obtain ⟨r, hs⟩ := h
  obtain ⟨hdir, hmem, hanswers⟩ : s.dir = _ ∧ s.mem = _ ∧ s.responseFromMemory = _ := by
    simpa [dirSide] using hs
  rcases (next_dirSide hnext).2 with ⟨-, -, hside⟩ | ⟨i, _, m, _, ctx, ⟨-, -, hctx⟩, hside⟩ |
    ⟨_, _, m, _, ctx, ⟨-, -, hctx⟩, -⟩ | ⟨_, _, _, _, ⟨heq, -⟩, -⟩ | ⟨_, _, _, ⟨-, hq, -⟩, -⟩
  · exact ⟨r, hside.trans hs⟩
  · rw [hdir] at hctx
    rw [hmem, hanswers] at hside
    exact ⟨r, by rw [hside, Dir.handle_queued_request hctx]⟩
  · rw [hdir] at hctx
    obtain ⟨type, addr, blk, len⟩ := m
    cases type <;> cases hctx
  · exact absurd heq hl
  · rw [hanswers] at hq
    cases hq

/-- Until memory is asked, the DMA write waits or is queued. -/
theorem waiting_or_queued_run {labels : List (Label N D b)} (hlabels : .serviceMemory ∉ labels)
    (h : Waiting line d msg mem s ∨ Queued line d msg mem s)
    (hrun : runSteps System.next s labels = some s') :
    Waiting line d msg mem s' ∨ Queued line d msg mem s' := by
  refine runSteps_invariant_of_mem
    (I := fun s => Waiting line d msg mem s ∨ Queued line d msg mem s) ?_ h hrun
  intro s1 l hl s2 h1 hnext
  rcases h1 with h1 | h1
  · exact h1.next hnext
  · exact .inr (h1.next (fun heq => hlabels (heq ▸ hl)) hnext)

/-- **Memory is written** with the first bytes of the block of the DMA write. -/
theorem readBlock_served (hb : b < 64) (hline : 2 ^ b ∣ line.toNat)
    (h : Waiting line d msg mem s ∨ Queued line d msg mem s) (hlen : 0 < msg.len)
    (hfit : msg.len ≤ 2 ^ b) (hnext : s.next .serviceMemory = some s') :
    readBlock s'.mem line.toNat = (readBlock mem line.toNat).overwrite msg.dataBlk 0 msg.len := by
  have hoff : (getOffset b line).toNat = 0 := by
    rw [getOffset_eq_zero hb hline]
    rfl
  have hself : (makeLineAddress b line).toNat = line.toNat := by
    rw [toNat_makeLineAddress hb, Nat.div_mul_cancel hline]
  rcases (next_dirSide hnext).2 with ⟨-, hl, -⟩ | ⟨_, _, _, _, _, ⟨heq, -⟩, -⟩ |
    ⟨_, _, _, _, _, ⟨heq, -⟩, -⟩ | ⟨m, rest, mem', answer, ⟨-, hq, hservice⟩, hside⟩ |
    ⟨_, _, _, ⟨heq, -⟩, -⟩
  · exact absurd rfl hl
  · cases heq
  · cases heq
  · obtain rfl : s'.mem = mem' := congrArg (fun side => side.2.1) hside
    rcases h with ⟨owner, hs⟩ | ⟨r, hs⟩
    · obtain ⟨hdir, -, -⟩ : s.dir = _ ∧ s.mem = _ ∧ s.responseFromMemory = _ := by
        simpa [dirSide] using hs
      rw [hdir] at hq
      cases hq
    · obtain ⟨hdir, rfl, -⟩ : s.dir = _ ∧ s.mem = _ ∧ s.responseFromMemory = _ := by
        simpa [dirSide] using hs
      rw [hdir] at hq
      cases hq
      have hread := readBlock_service hb rfl hlen (by rw [hoff, Nat.zero_add]; exact hfit) hservice
      rw [hself, hoff] at hread
      exact hread
  · cases heq

end

end System

end MIExample
