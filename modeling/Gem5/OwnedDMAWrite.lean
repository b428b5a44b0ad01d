/-
# Partial DMA writes of an owned line

A DMA write of a part of a line that a cache owns should leave in memory the line
of the owner with these bytes replaced.  Both directories wait for the data of the
owner and then write the bytes of the DMA request alone
(`qw_queueMemoryWBRequest_partialTBE`), MESI_Two_Level from the address of the
request on, MI_example from the start of the line on.
-/
import Gem5.MIExampleDMA
import Gem5.MESITwoLevelDMA

open Ruby

/-! ## The two protocols -/

/-- A DMA write that finds the directory of MI_example in `M`, up to the access of
memory: the request is handled in `found`, the `PUTX` of the owner in `waits`. -/
structure MIExample.OwnedDMAWrite (N D : Type) [DecidableEq N] [DecidableEq D] (b : ℕ) where
  bits : b < 64
  line : Addr
  mem : Memory
  before : List (Label N D b)
  found : System N D b
  run_found : runSteps System.next (System.init line mem) before = some found
  owned : found.dir.getState = .M
  dma : D
  position : ℕ
  write : DMARequestMsg b
  dmaRequests : List (DMARequestMsg b)
  write_head : found.dmaRequests dma = write :: dmaRequests
  write_type : write.type = .WRITE
  write_line : makeLineAddress b write.physicalAddress = found.dir.line
  len_pos : 0 < write.len
  len_lt : write.len < 2 ^ b
  inside : (getOffset b write.physicalAddress).toNat + write.len ≤ 2 ^ b
  meanwhile : List (Label N D b)
  not_served : .serviceMemory ∉ meanwhile
  waits : System N D b
  run_waits : runSteps System.next found (.dmaRequest dma position :: meanwhile) = some waits
  waiting : waits.dir.getState = .M_DWR
  owner : N
  is_owner : owner ∈ waits.dir.entry.owner
  data : DataBlock b
  requests : List (RequestMsg b)
  data_head : waits.requests owner = .PUTX data :: requests
  dataPosition : ℕ
  after : List (Label N D b)
  not_served_after : .serviceMemory ∉ after
  final : System N D b
  run_final : runSteps System.next waits
    (.request owner dataPosition :: after ++ [.serviceMemory]) = some final

/-- A DMA write that finds the directory of MESI_Two_Level in `M`, up to the access
of memory: the request is handled in `found`, the `Data` of the owner in `waits`. -/
structure MESITwoLevel.OwnedDMAWrite (N D : Type) (b : ℕ) where
  bits : b < 64
  line : Addr
  mem : Memory
  before : List (Label N D b)
  found : Node N D b
  run_found : runSteps Node.next (Node.init line mem) before = some found
  owned : found.dir.entry.directoryState = .M
  write : RequestMsg N D b
  write_type : write.type = .DMA_WRITE
  write_line : makeLineAddress b write.addr = found.dir.line
  len_pos : 0 < write.len
  len_lt : write.len < 2 ^ b
  inside : (getOffset b write.addr).toNat + write.len ≤ 2 ^ b
  meanwhile : List (Label N D b)
  not_served : .serviceMemory ∉ meanwhile
  waits : Node N D b
  run_waits : runSteps Node.next found (.request write :: meanwhile) = some waits
  waiting : waits.dir.entry.directoryState = .M_DWR
  data : ResponseMsg N D b
  data_type : data.type = .MEMORY_DATA
  after : List (Label N D b)
  not_served_after : .serviceMemory ∉ after
  final : Node N D b
  run_final : runSteps Node.next waits (.response data :: after ++ [.serviceMemory])
    = some final

/-! ## What is left in memory -/

theorem MESITwoLevel.OwnedDMAWrite.readBlock_final {N D : Type} {b : ℕ} (t : OwnedDMAWrite N D b) :
    readBlock t.final.mem t.found.dir.line.toNat
      = (readBlock t.found.mem t.found.dir.line.toNat).overwrite t.write.dataBlk
          (getOffset b t.write.addr).toNat t.write.len := by
  have hwaits := t.run_waits
  rw [runSteps_cons, Option.bind_eq_some_iff] at hwaits
  obtain ⟨n1, h1, hmeanwhile⟩ := hwaits
  have hw := (Node.ok_run t.run_found).waiting t.owned t.write_type h1
  have hwaiting := Node.waiting_or_queued_run t.not_served (.inl hw) hmeanwhile
  obtain ⟨n2, hafter, hlast⟩ := exists_of_runSteps_concat t.run_final
  have hqueued := Node.waiting_or_queued_run (by simpa using t.not_served_after) hwaiting hafter
  rw [← t.write_line]
  exact Node.readBlock_served t.bits hqueued t.len_pos t.inside hlast

theorem MIExample.OwnedDMAWrite.readBlock_final {N D : Type} [DecidableEq N] [DecidableEq D] {b : ℕ}
    (t : OwnedDMAWrite N D b) :
    readBlock t.final.mem t.found.dir.line.toNat
      = (readBlock t.found.mem t.found.dir.line.toNat).overwrite t.write.dataBlk 0 t.write.len := by
  have hwaits := t.run_waits
  rw [runSteps_cons, Option.bind_eq_some_iff] at hwaits
  obtain ⟨s1, h1, hmeanwhile⟩ := hwaits
  have hw := (System.ok_run t.run_found).waiting t.owned t.write_head t.write_type h1
  have hwaiting := System.waiting_or_queued_run t.not_served (.inl hw) hmeanwhile
  obtain ⟨s2, hafter, hlast⟩ := exists_of_runSteps_concat t.run_final
  have hqueued := System.waiting_or_queued_run (by simpa using t.not_served_after) hwaiting hafter
  have hline : 2 ^ b ∣ t.found.dir.line.toNat := by
    rw [← t.write_line, toNat_makeLineAddress t.bits]
    exact Nat.dvd_mul_left _ _
  exact System.readBlock_served t.bits hline hqueued t.len_pos t.len_lt.le hlast

/-! ## When this is the line of the owner -/

section

variable {b : ℕ} (old payload data : DataBlock b) (o n : ℕ)

/-- Memory has the bytes of the owner wherever the write at `[o, o + n)` does not. -/
def OldOutside : Prop := ∀ j : Fin (2 ^ b), ¬ (o ≤ j ∧ j < o + n) → old j = data j

/-- What has to be there already for a write at `[0, n)` to do as one at
`[o, o + n)`. -/
structure OldAround : Prop where
  /-- The bytes that are written without being asked for. -/
  first : ∀ j : Fin (2 ^ b), (j : ℕ) < n → ¬ (o ≤ j ∧ j < o + n) → payload j = data j
  /-- The bytes that are asked for and not written. -/
  last : ∀ j : Fin (2 ^ b), n ≤ j → o ≤ j ∧ j < o + n → old j = payload j
  /-- The other ones. -/
  rest : ∀ j : Fin (2 ^ b), n ≤ j → ¬ (o ≤ j ∧ j < o + n) → old j = data j

variable {old payload data o n}

theorem overwrite_eq_iff :
    old.overwrite payload o n = data.overwrite payload o n ↔ OldOutside old data o n := by
  rw [funext_iff]
  apply forall_congr'
  intro j
  simp only [DataBlock.overwrite]
  by_cases hj : o ≤ j ∧ (j : ℕ) < o + n
  · rw [if_pos hj, if_pos hj]
    exact iff_of_true rfl (absurd hj)
  · rw [if_neg hj, if_neg hj]
    exact ⟨fun h _ => h, fun h => h hj⟩

theorem overwrite_zero_eq_iff :
    old.overwrite payload 0 n = data.overwrite payload o n ↔ OldAround old payload data o n := by
  constructor
  · intro h
    have hbyte : ∀ j : Fin (2 ^ b), (if (j : ℕ) < n then payload j else old j)
        = if o ≤ j ∧ (j : ℕ) < o + n then payload j else data j := by
      intro j
      simpa [DataBlock.overwrite] using congrFun h j
    refine ⟨?_, ?_, ?_⟩
    · intro j hn hj
      simpa [hn, hj] using hbyte j
    · intro j hn hj
      simpa [Nat.not_lt.mpr hn, hj] using hbyte j
    · intro j hn hj
      simpa [Nat.not_lt.mpr hn, hj] using hbyte j
  · intro h
    funext j
    simp only [DataBlock.overwrite, Nat.zero_le, true_and, Nat.zero_add]
    by_cases hn : (j : ℕ) < n
    · by_cases hj : o ≤ j ∧ (j : ℕ) < o + n
      · rw [if_pos hn, if_pos hj]
      · rw [if_pos hn, if_neg hj, h.first j hn hj]
    · by_cases hj : o ≤ j ∧ (j : ℕ) < o + n
      · rw [if_neg hn, if_pos hj, h.last j (Nat.not_lt.mp hn) hj]
      · rw [if_neg hn, if_neg hj, h.rest j (Nat.not_lt.mp hn) hj]

end

/-- **Partial DMA writes of an owned line.**  In both protocols memory is left with
the line of the owner and the bytes of the request replaced exactly if memory had
the other bytes of the owner before; in MI_example the request has to begin at the
start of the line too, or its bytes have to be there already. -/
theorem dma_write_of_owned_iff {N D : Type} [DecidableEq N] [DecidableEq D] {b : ℕ} :
    (∀ t : MIExample.OwnedDMAWrite N D b,
      let o := (getOffset b t.write.physicalAddress).toNat
      let old := readBlock t.found.mem t.found.dir.line.toNat
      readBlock t.final.mem t.found.dir.line.toNat
          = t.data.overwrite t.write.dataBlk o t.write.len ↔
        OldAround old t.write.dataBlk t.data o t.write.len) ∧
    (∀ t : MESITwoLevel.OwnedDMAWrite N D b,
      let o := (getOffset b t.write.addr).toNat
      let old := readBlock t.found.mem t.found.dir.line.toNat
      readBlock t.final.mem t.found.dir.line.toNat
          = t.data.dataBlk.overwrite t.write.dataBlk o t.write.len ↔
        OldOutside old t.data.dataBlk o t.write.len) := by
  constructor
  · intro t o old
    rw [t.readBlock_final]
    exact overwrite_zero_eq_iff
  · intro t o old
    rw [t.readBlock_final]
    exact overwrite_eq_iff

/-! ## Two writes

The owner has written a byte to the whole line, memory has zeroes, and the DMA write is
of four bytes at the start of the line. -/

namespace MIExample

def afterLabels (labels : List (Label (Fin 1) (Fin 1) 6)) : System (Fin 1) (Fin 1) 6 :=
  (runSteps System.next (System.init 0 fun _ => 0) labels).getD (System.init 0 fun _ => 0)

attribute [local instance] neZero_one

variable (byte : Byte)

/-- Cache 0 owns the line, and the DMA request is on its way. -/
def ownedLine : List (Label (Fin 1) (Fin 1) 6) :=
  [.store 0 fun _ => byte, .request 0 0, .serviceMemory, .memory, .dirData 0 fun _ => byte,
    .sequencer 0 ⟨.WRITE, 0, fun _ => 2, 4⟩]

def firstBytes : OwnedDMAWrite (Fin 1) (Fin 1) 6 where
  bits := by decide
  line := 0
  mem := fun _ => 0
  before := ownedLine byte
  found := afterLabels (ownedLine byte)
  run_found := rfl
  owned := rfl
  dma := 0
  position := 0
  write := ⟨.WRITE, 0, fun _ => 2, 4⟩
  dmaRequests := []
  write_head := rfl
  write_type := rfl
  write_line := rfl
  len_pos := by decide
  len_lt := by decide
  inside := by decide
  meanwhile := [.forward 0]
  not_served := by simp
  waits := afterLabels (ownedLine byte ++ [.dmaRequest 0 0, .forward 0])
  run_waits := rfl
  waiting := rfl
  owner := 0
  is_owner := Finset.mem_singleton_self 0
  data := fun _ => byte
  requests := []
  data_head := rfl
  dataPosition := 0
  after := []
  not_served_after := by simp
  final := afterLabels
    (ownedLine byte ++ [.dmaRequest 0 0, .forward 0, .request 0 0, .serviceMemory])
  run_final := by with_unfolding_all rfl

end MIExample

namespace MESITwoLevel

def afterLabels (labels : List (Label (Fin 1) (Fin 1) 6)) : Node (Fin 1) (Fin 1) 6 :=
  (runSteps Node.next (Node.init 0 fun _ => 0) labels).getD (Node.init 0 fun _ => 0)

attribute [local instance] neZero_one

/-- The L2 cache has fetched the line. -/
def fetched : List (Label (Fin 1) (Fin 1) 6) :=
  [.request ⟨0, .GETX, .L2Cache 0, fun _ => 0, 0⟩, .serviceMemory, .memory]

def firstBytes (byte : Byte) : OwnedDMAWrite (Fin 1) (Fin 1) 6 where
  bits := by decide
  line := 0
  mem := fun _ => 0
  before := fetched
  found := afterLabels fetched
  run_found := rfl
  owned := rfl
  write := ⟨0, .DMA_WRITE, .DMA 0, fun _ => 2, 4⟩
  write_type := rfl
  write_line := rfl
  len_pos := by decide
  len_lt := by decide
  inside := by decide
  meanwhile := []
  not_served := by simp
  waits := afterLabels (fetched ++ [.request ⟨0, .DMA_WRITE, .DMA 0, fun _ => 2, 4⟩])
  run_waits := rfl
  waiting := rfl
  data := ⟨0, .MEMORY_DATA, .L2Cache 0, fun _ => byte⟩
  data_type := rfl
  after := []
  not_served_after := by simp
  final := afterLabels (fetched ++ [.request ⟨0, .DMA_WRITE, .DMA 0, fun _ => 2, 4⟩,
    .response ⟨0, .MEMORY_DATA, .L2Cache 0, fun _ => byte⟩, .serviceMemory])
  run_final := by with_unfolding_all rfl

end MESITwoLevel

/-- If the owner has zeroes too, both lines are right. -/
theorem dma_write_of_owned_kept : (∃ t : MIExample.OwnedDMAWrite (Fin 1) (Fin 1) 6,
      readBlock t.final.mem t.found.dir.line.toNat = t.data.overwrite t.write.dataBlk
        (getOffset 6 t.write.physicalAddress).toNat t.write.len) ∧
    ∃ t : MESITwoLevel.OwnedDMAWrite (Fin 1) (Fin 1) 6,
      readBlock t.final.mem t.found.dir.line.toNat = t.data.dataBlk.overwrite t.write.dataBlk
        (getOffset 6 t.write.addr).toNat t.write.len := by
  constructor
  · refine ⟨MIExample.firstBytes 0, (dma_write_of_owned_iff.1 _).mpr ⟨?_, ?_, ?_⟩⟩ <;> decide
  · refine ⟨MESITwoLevel.firstBytes 0, (dma_write_of_owned_iff.2 _).mpr ?_⟩
    unfold OldOutside
    decide

/-- If it has sevens, byte 8 of the line is 0 again. -/
theorem dma_write_of_owned_lost : (∃ t : MIExample.OwnedDMAWrite (Fin 1) (Fin 1) 6,
      readBlock t.final.mem t.found.dir.line.toNat ≠ t.data.overwrite t.write.dataBlk
        (getOffset 6 t.write.physicalAddress).toNat t.write.len) ∧
    ∃ t : MESITwoLevel.OwnedDMAWrite (Fin 1) (Fin 1) 6,
      readBlock t.final.mem t.found.dir.line.toNat ≠ t.data.dataBlk.overwrite t.write.dataBlk
        (getOffset 6 t.write.addr).toNat t.write.len := by
  refine ⟨⟨MIExample.firstBytes 7, ?_⟩, ⟨MESITwoLevel.firstBytes 7, ?_⟩⟩
  · intro h
    have hbyte := congrFun h 8
    revert hbyte
    decide
  · intro h
    have hbyte := congrFun h 8
    revert hbyte
    decide
