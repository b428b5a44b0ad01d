/-
# DMA writes of an uncached line in MI_example

A DMA write of a line that is not cached goes from the sequencer through the DMA
controller and the directory to memory.  The sequencer puts the bytes at their
offset in the block, and the directory asks memory to write the block at the line's
own address, so that memory takes the first `len` bytes of it.
-/
import Gem5.DMASequencer
import Gem5.MIExampleDMA

namespace MIExample

open Ruby DMASequencer MIExample.System

variable {N D : Type} [DecidableEq N] [DecidableEq D] {b : ℕ}

/-- What `s_sendReadRequest` and `s_sendWriteRequest` make of a message of the
sequencer; an atomic access is an invalid type. -/
def DMARequestMsg.ofSequencer (msg : SequencerMsg b) : Option (DMARequestMsg b) :=
  match msg.type with
  | .LD => some ⟨.READ, msg.physicalAddress, msg.dataBlk, msg.len⟩
  | .ST => some ⟨.WRITE, msg.physicalAddress, msg.dataBlk, msg.len⟩
  | .ATOMIC => none

/-- The steps that a request of the DMA controller `d` takes up to memory. -/
def writePath (d : D) (msg : DMARequestMsg b) : List (Label N D b) :=
  [.sequencer d msg, .dmaRequest d 0, .serviceMemory]

/-- **The write path**: the sequencer takes the packet, and its message goes through
the system. -/
def dmaWrite (seq : DMASequencer b) (s : System N D b) (d : D) (pkt : Packet) :
    Option (System N D b) :=
  match seq.makeRequest pkt with
  | some (.Issued, seq') =>
    (seq'.mandatoryQueue.getLast?.bind DMARequestMsg.ofSequencer).bind fun msg =>
      runSteps System.next s (writePath d msg)
  | _ => none

/-! ## The steps of the path -/

section

variable {s : System N D b} {d : D} {msg : DMARequestMsg b}

/-- The DMA controller after it has sent a write. -/
def sentWrite (msg : DMARequestMsg b) : DMACtx b where
  tbe := some ⟨.BUSY_WR, fun _ => 0⟩
  inMsg := .sequencer msg
  requests := [msg]
  popped := true

theorem next_sequencer (hdma : s.dmas d = none) (hmsg : msg.type = .WRITE) :
    s.next (.sequencer d msg) = some (s.deliverSequencer d (sentWrite msg)) := by
  obtain ⟨type, addr, blk, len⟩ := msg
  obtain rfl : type = .WRITE := hmsg
  unfold next nextState
  simp only [step]
  rw [hdma]
  rfl

/-- The directory after a write of an uncached line. -/
def queuedWrite (dir : Dir N D b) (d : D) (msg : DMARequestMsg b) : DirCtx N D b where
  dir :=
    { dir with
      entry := { dir.entry with directoryState := .ID_W }
      tbe := some ⟨msg.physicalAddress, .ID_W, msg.dataBlk, msg.len, some d⟩
      requestToMemory := [⟨dir.line, .MEMORY_WB, .DMA d, msg.dataBlk, msg.len⟩] }
  inMsg := .dmaRequest d msg
  handled := .popped

omit [DecidableEq D] in
theorem handle_write_uncached {dir : Dir N D b} (hok : dir.Ok []) (hI : dir.getState = .I)
    (hmsg : msg.type = .WRITE) : dir.handle (.dmaRequest d msg) = .ok (queuedWrite dir d msg) := by
  have hfits := hok.fits
  have hstate := hok.state
  rw [hI] at hfits hstate
  have htbe := hfits.tbe_eq_none not_false
  have hq := hfits.memory
  obtain ⟨line, ⟨st, owner⟩, tbe, q⟩ := dir
  obtain ⟨type, addr, blk, len⟩ := msg
  obtain rfl : type = .WRITE := hmsg
  obtain rfl : st = .I := hstate
  obtain rfl : tbe = none := htbe
  obtain rfl : q = [] := by simpa [Dir.outstanding] using hq
  rfl

/-- **The path of a write** whose line is uncached. -/
theorem runSteps_writePath (msg : DMARequestMsg b) (hb : b < 64) (hs : s.Ok) (hI : s.dir.getState = .I)
    (hline : 2 ^ b ∣ s.dir.line.toNat) (hdma : s.dmas d = none) (hempty : s.dmaRequests d = [])
    (hmsg : msg.type = .WRITE) (hlen : 0 < msg.len) (hfit : msg.len ≤ 2 ^ b) :
    ∃ s', runSteps next s (writePath d msg) = some s' ∧
      ∀ x, s'.mem x = if s.dir.line.toNat ≤ x ∧ x < s.dir.line.toNat + msg.len then
        msg.dataBlk.byte (x - s.dir.line.toNat) else s.mem x := by
  have hanswers : s.responseFromMemory = [] := by
    have hmem := hs.dir.fits.memory
    rw [hI] at hmem
    exact (List.append_eq_nil_iff.mp (List.map_eq_nil_iff.mp hmem)).1
  have hok := hs.dir
  rw [hanswers] at hok
  have hoff : (getOffset b s.dir.line).toNat = 0 := by
    rw [getOffset_eq_zero hb hline]
    rfl
  have hself : (makeLineAddress b s.dir.line).toNat = s.dir.line.toNat := by
    rw [toNat_makeLineAddress hb, Nat.div_mul_cancel hline]
  let s1 := s.deliverSequencer d (sentWrite msg)
  have hq : s1.dmaRequests d = [msg] := by
    simp [s1, deliverSequencer, hempty, sentWrite]
  let s2 := s1.deliverDMARequest d 0 msg [] (queuedWrite s.dir d msg)
  obtain ⟨mem, answer, hservice, -, -, -, hbytes⟩ :=
    @service_write b _ hb ⟨s.dir.line, .MEMORY_WB, MachineID.DMA d, msg.dataBlk, msg.len⟩ rfl
      hlen (by rw [hoff, Nat.zero_add]; exact hfit) s.mem
  refine ⟨s2.afterService [] mem answer, ?_, ?_⟩
  · have h1 : s.next (.sequencer d msg) = some s1 := next_sequencer hdma hmsg
    have hctx : s1.dir.handle (.dmaRequest d msg) = .ok _ := handle_write_uncached hok hI hmsg
    have h2 : s1.next (.dmaRequest d 0) = some s2 := by
      simp only [next, nextState, step, hq, hctx]
      rfl
    have h3 : s2.next .serviceMemory = some (s2.afterService [] mem answer) := by
      have hq : s2.dir.requestToMemory = [_] := rfl
      simp only [next, nextState, step, hq]
      rw [show serviceMemoryQueue _ s2.mem = _ from hservice]
    unfold writePath
    rw [runSteps_cons, h1, Option.bind_some, runSteps_cons, h2, Option.bind_some, runSteps_cons, h3]
    rfl
  · intro x
    have hx := hbytes x
    rw [hself] at hx
    exact hx

end

/-- What has to be there already: the bytes that are written without being asked for
are zeroes, as in the block of the sequencer, and the bytes that are asked for and
not written are those of the packet. -/
structure ThereAlready (mem : Memory) (line o n : ℕ) (data : ℕ → Byte) : Prop where
  first : ∀ j, j < o → j < n → mem (line + j) = 0
  last : ∀ j, o ≤ j → n ≤ j → j < o + n → mem (line + j) = data (j - o)

/-- A byte of the sequencer's block. -/
theorem byte_setData {data : ℕ → Byte} {o n j : ℕ} (hj : j < 2 ^ b) :
    (DMASequencer.setData data o n : DataBlock b).byte j
      = if o ≤ j ∧ j < o + n then data (j - o) else 0 := by
  rw [DataBlock.byte, dif_pos hj]
  rfl

theorem written_iff {mem mem' : Memory} {line o n : ℕ} {data : ℕ → Byte} (hfit : o + n ≤ 2 ^ b)
    (hmem' : ∀ x, mem' x = if line ≤ x ∧ x < line + n then
      (DMASequencer.setData data o n : DataBlock b).byte (x - line) else mem x) :
    (∀ x, mem' x = if line + o ≤ x ∧ x < line + o + n then data (x - (line + o)) else mem x) ↔
      ThereAlready mem line o n data := by
  constructor
  · intro h
    constructor
    · intro j ho hn
      have hx := h (line + j)
      rw [hmem', if_pos (by omega), if_neg (by omega), byte_setData (by omega),
        if_neg (by omega)] at hx
      exact hx.symm
    · intro j ho hn hlt
      have hx := h (line + j)
      rw [hmem', if_neg (by omega), if_pos (by omega), Nat.add_sub_add_left] at hx
      exact hx
  · intro h x
    rw [hmem']
    by_cases hx : line ≤ x ∧ x < line + n
    · rw [if_pos hx, byte_setData (by omega)]
      by_cases ho : line + o ≤ x
      · rw [if_pos (by omega), if_pos (by omega), Nat.sub_sub]
      · have hfirst := h.first (x - line) (by omega) (by omega)
        rw [Nat.add_sub_cancel' hx.1] at hfirst
        rw [if_neg (by omega), if_neg (by omega), hfirst]
    · rw [if_neg hx]
      by_cases ho : line + o ≤ x ∧ x < line + o + n
      · have hlast := h.last (x - line) (by omega) (by omega) (by omega)
        rw [Nat.add_sub_cancel' (by omega)] at hlast
        rw [if_pos ho, hlast, Nat.sub_sub]
      · rw [if_neg ho]

/-- **DMA writes of an uncached line.**  A write in one line changes exactly its bytes
if it begins at the start of the line, and else only if the bytes it misses and the
bytes it should not touch are there already. -/
theorem dma_write_of_uncached_iff (hb : b < 64) (line : Addr) (mem : Memory)
    (labels : List (Label N D b)) (s : System N D b)
    (hrun : runSteps next (init line mem) labels = some s) (d : D) (hdma : s.dmas d = none)
    (hempty : s.dmaRequests d = []) (seq : DMASequencer b) (pkt : Packet) (hpkt : seq.Takes pkt)
    (hwrite : pkt.isWrite = true) (data : ℕ → Byte) (hdata : pkt.data = some data)
    (hinside : DMASequencer.blockOffset b pkt.addr + pkt.size ≤ 2 ^ b)
    (hline : s.dir.line = makeLineAddress b pkt.addr) (hI : s.dir.getState = .I) :
    ∃ s', dmaWrite seq s d pkt = some s' ∧
      ((∀ x, s'.mem x = if pkt.addr.toNat ≤ x ∧ x < pkt.addr.toNat + pkt.size then
          data (x - pkt.addr.toNat) else s.mem x) ↔
        ThereAlready s.mem s.dir.line.toNat (DMASequencer.blockOffset b pkt.addr) pkt.size data) := by
  let o := blockOffset b pkt.addr
  let msg : DMARequestMsg b := ⟨.WRITE, pkt.addr, setData data o pkt.size, pkt.size⟩
  have hmsg : (issued seq pkt).mandatoryQueue.getLast?.bind DMARequestMsg.ofSequencer
      = some msg := by
    have htype : typeOf pkt = .ST := by simp [typeOf, hwrite]
    simp [issued, DMARequestMsg.ofSequencer, firstMsg, htype, hwrite, hdata, hinside, msg, o]
  have hdvd : 2 ^ b ∣ s.dir.line.toNat := by
    rw [hline, toNat_makeLineAddress hb]
    exact Nat.dvd_mul_left _ _
  have haddr : pkt.addr.toNat = s.dir.line.toNat + o := by
    rw [hline, toNat_makeLineAddress hb]
    show _ = _ + blockOffset b pkt.addr
    rw [blockOffset_eq hb, Nat.mul_comm, Nat.div_add_mod]
  obtain ⟨s', hpath, hbytes⟩ := runSteps_writePath msg hb (ok_run hrun) hI hdvd hdma hempty
    rfl hpkt.pos (by show pkt.size ≤ 2 ^ b; omega)
  refine ⟨s', ?_, ?_⟩
  · unfold dmaWrite
    rw [hpkt.makeRequest_eq]
    simp only [hmsg]
    exact hpath
  · rw [haddr]
    exact written_iff hinside hbytes

/-- A write at the start of a line. -/
theorem dma_write_of_uncached_aligned :
    ∃ s', dmaWrite DMASequencer.idle (init 0 (fun _ => 0) : System (Fin 1) (Fin 1) 6) 0
        (DMASequencer.writeOf 0 8) = some s' ∧
      ∀ x, s'.mem x = if 0 ≤ x ∧ x < 0 + 8 then 1 else 0 := by
  obtain ⟨s', hs', hiff⟩ := dma_write_of_uncached_iff (by decide) 0 (fun _ => 0) []
    (init 0 (fun _ => 0) : System (Fin 1) (Fin 1) 6) rfl 0 rfl rfl idle
    (writeOf 0 8)
    ⟨by decide, .inl rfl, rfl, rfl, by decide, by decide, fun _ _ _ => rfl⟩ rfl (fun _ => 1) rfl
    (by decide) rfl rfl
  refine ⟨s', hs', hiff.mpr ⟨?_, ?_⟩⟩
  · intro j hj
    exact absurd hj (Nat.not_lt_zero j)
  · intro j _ hn hlt
    have hlt' : j < 0 + 8 := hlt
    have hn' : 8 ≤ j := hn
    omega

/-- A write of eight bytes at offset 4 into a line of zeroes: byte 8 is still 0. -/
theorem dma_write_of_uncached_unaligned :
    ∃ s', dmaWrite DMASequencer.idle (init 0 (fun _ => 0) : System (Fin 1) (Fin 1) 6) 0
        (DMASequencer.writeOf 4 8) = some s' ∧
      ¬ ∀ x, s'.mem x = if 4 ≤ x ∧ x < 4 + 8 then 1 else 0 := by
  refine ⟨_, rfl, ?_⟩
  intro h
  have hbyte := h 8
  revert hbyte
  decide

end MIExample
