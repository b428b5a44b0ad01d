/-
# Controllers, data blocks and memory of Ruby

What the protocols share.  A controller looks up its state and an event in a
table of transitions; a transition runs actions, in order, and then sets the next
state (mem/slicc/symbols/StateMachine.py).  A pair that is not in the table and an
assertion that fails stop the simulation, and are two kinds of `Fault` here; a
transition with `z_stall` does nothing and leaves the message where it is.

`serviceMemoryQueue` and the answer of `recvTimingResp`
(mem/ruby/slicc_interface/AbstractController.cc) turn a message of a directory
into an access of memory: a write with a length takes that many bytes of the
block from the offset of its address on, one without takes the whole block.
-/
import Gem5.AddrRange
import Gem5.Blocks
import Gem5.Run

open Nat hiding bits

namespace Ruby

/-! ## Transitions -/

inductive Fault where
  /-- No transition is declared for the state and the event. -/
  | missing
  | assertion
  deriving DecidableEq

/-- What the table has for a state and an event. -/
inductive Transition (σ S : Type) where
  /-- `z_stall` -/
  | stall
  /-- The actions, and the next state if it changes. -/
  | run (actions : List (σ → Option σ)) (next : Option S)

def runActions {σ : Type} : List (σ → Option σ) → σ → Option σ
  | [], s => some s
  | a :: as, s => (a s).bind (runActions as)

/-- `doTransition` -/
def doTransition {σ S : Type} (setState : S → σ → Option σ) (state : S) (s : σ) :
    Option (Transition σ S) → Except Fault σ
  | none => .error .missing
  | some .stall => .ok s
  | some (.run actions next) =>
    match (runActions actions s).bind (setState (next.getD state)) with
    | none => .error .assertion
    | some s' => .ok s'

variable {σ S : Type} {setState : S → σ → Option σ} {state : S} {s s' : σ} {P : σ → Prop}
  {t : Option (Transition σ S)} {actions : List (σ → Option σ)}

/-- A pair is missing if it is not in the table, and only then. -/
theorem doTransition_eq_missing : doTransition setState state s t = .error .missing ↔ t = none := by
  cases t with
  | none => exact iff_of_true rfl rfl
  | some t =>
    refine iff_of_false ?_ (by simp)
    cases t with
    | stall => exact nofun
    | run actions next =>
      intro h
      cases hrun : (runActions actions s).bind (setState (next.getD state)) with
      | none | some s' => simp [doTransition, hrun] at h

/-- The actions of a transition that goes well. -/
theorem runActions_of_ok {next : Option S}
    (h : doTransition setState state s (some (.run actions next)) = .ok s') :
    ∃ s1, runActions actions s = some s1 ∧ setState (next.getD state) s1 = some s' := by
  cases hrun : (runActions actions s).bind (setState (next.getD state)) with
  | none => simp [doTransition, hrun] at h
  | some s2 =>
    simp only [doTransition, hrun, Except.ok.injEq] at h
    obtain rfl := h
    exact Option.bind_eq_some_iff.mp hrun

theorem runActions_preserves (hactions : ∀ a ∈ actions, ∀ s1 s2, a s1 = some s2 → P s1 → P s2)
    (h : runActions actions s = some s') (hs : P s) : P s' := by
  induction actions generalizing s with
  | nil => exact (Option.some.inj h) ▸ hs
  | cons a actions ih =>
    obtain ⟨s1, ha, hrest⟩ := Option.bind_eq_some_iff.mp h
    exact ih (fun a' ha' => hactions a' (List.mem_cons_of_mem a ha')) hrest
      (hactions a List.mem_cons_self _ _ ha hs)

/-- What every action and the new state preserve, the transition preserves. -/
theorem doTransition_preserves
    (hactions : ∀ actions next, t = some (.run actions next) →
      ∀ a ∈ actions, ∀ s1 s2, a s1 = some s2 → P s1 → P s2)
    (hset : ∀ st s1 s2, setState st s1 = some s2 → P s1 → P s2)
    (h : doTransition setState state s t = .ok s') (hs : P s) : P s' := by
  cases t with
  | none => cases h
  | some t =>
    cases t with
    | stall => exact (Except.ok.inj h) ▸ hs
    | run actions next =>
      obtain ⟨s1, hrun, hlast⟩ := runActions_of_ok h
      exact hset _ _ _ hlast (runActions_preserves (hactions actions next rfl) hrun hs)

theorem exists_of_map_ok {ε α β : Type} {x : Except ε α} {f : α → β} {y : β}
    (h : x.map f = .ok y) : ∃ a, x = .ok a ∧ f a = y := by
  cases x with
  | error e => cases h
  | ok a => exact ⟨a, rfl, Except.ok.inj h⟩

/-! ## Data blocks -/

abbrev Byte := BitVec 8

abbrev DataBlock (b : ℕ) := Fin (2 ^ b) → Byte

/-- Bytes indexed by address. -/
abbrev Memory := ℕ → Byte

variable {b : ℕ}

/-- The byte at an offset of a block. -/
def DataBlock.byte (blk : DataBlock b) (j : ℕ) : Byte := if h : j < 2 ^ b then blk ⟨j, h⟩ else 0

/-- `bitSelect(addr, 0, b - 1)`; for `b = 0` the position wraps around and the
field is empty. -/
def getOffset (b : ℕ) (a : Addr) : Addr := if b = 0 then 0 else bits a (b - 1) 0

/-- `maskLowOrderBits(addr, b)` -/
def makeLineAddress (b : ℕ) (a : Addr) : Addr := mbits a 63 b

/-- The block at an address. -/
def readBlock (mem : Memory) (a : ℕ) : DataBlock b := fun j => mem (a + j)

/-- `n` bytes written from address `a` on. -/
def writeBytes (mem : Memory) (a n : ℕ) (data : ℕ → Byte) : Memory := fun x =>
  if a ≤ x ∧ x < a + n then data (x - a) else mem x

theorem toNat_getOffset (hb : b < 64) (a : Addr) : (getOffset b a).toNat = a.toNat % 2 ^ b := by
  unfold getOffset
  by_cases h0 : b = 0
  · rw [h0, pow_zero, mod_one]
    rfl
  · rw [if_neg h0]
    have hlen : b - 1 - 0 + 1 = b := by omega
    rw [bits, BitVec.ushiftRight_zero, hlen, toNat_and_mask hb]

theorem toNat_makeLineAddress (hb : b < 64) (a : Addr) :
    (makeLineAddress b a).toNat = a.toNat / 2 ^ b * 2 ^ b := by
  have hones : mask ((63 + 1) % 2 ^ 32) = BitVec.allOnes 64 := rfl
  rw [makeLineAddress, mbits, hones, BitVec.allOnes_and, toNat_and_not_lowMask (toNat_mask hb)]

/-- An address is its line and its offset. -/
theorem toNat_line_add_offset (hb : b < 64) (a : Addr) :
    (makeLineAddress b a).toNat + (getOffset b a).toNat = a.toNat := by
  rw [toNat_makeLineAddress hb, toNat_getOffset hb, mul_comm]
  exact div_add_mod _ _

theorem getOffset_eq_zero (hb : b < 64) {line : Addr} (hline : 2 ^ b ∣ line.toNat) :
    getOffset b line = 0 := by
  apply BitVec.eq_of_toNat_eq
  rw [toNat_getOffset hb, mod_eq_zero_of_dvd hline]
  rfl

/-- What was written inside of a block and what was there before. -/
theorem readBlock_writeBytes (mem : Memory) (line o n : ℕ) (data : ℕ → Byte) (j : Fin (2 ^ b)) :
    readBlock (writeBytes mem (line + o) n data) line j
      = if o ≤ j ∧ j < o + n then data (j - o) else readBlock mem line j := by
  simp only [readBlock, writeBytes]
  by_cases h : o ≤ j ∧ j < o + n
  · rw [if_pos h, if_pos (by omega)]
    congr 1
    omega
  · rw [if_neg h, if_neg (by omega)]

/-- The bytes `[o, o + n)` of a block replaced by those of another one. -/
def DataBlock.overwrite (blk payload : DataBlock b) (o n : ℕ) : DataBlock b := fun j =>
  if o ≤ j ∧ j < o + n then payload j else blk j

/-! ## Callbacks and channels -/

/-- A callback to the sequencer: the line that it sees, and what a store leaves. -/
inductive Completion (b : ℕ) where
  | readCallback (seen : DataBlock b)
  | writeCallback (seen w : DataBlock b)

/-- The line that a callback sees. -/
def Completion.seen : Completion b → DataBlock b
  | .readCallback x => x
  | .writeCallback x _ => x

/-- The value of the line after a step that may complete a store. -/
def valueAfter (v : DataBlock b) : Option (Completion b) → DataBlock b
  | some (.writeCallback _ w) => w
  | _ => v

/-- What is sent to each destination goes to the end of its channel. -/
def push {α ι : Type} [DecidableEq ι] (channel : ι → List α) (sent : List (ι × α)) : ι → List α :=
  fun i => channel i ++ (sent.filter fun m => m.1 = i).map Prod.snd

variable {α ι : Type} [DecidableEq ι]

section

variable (channel : ι → List α)

@[simp] theorem push_nil : push channel [] = channel := by
  funext i
  simp [push]

/-- One message is sent to one of the destinations. -/
theorem forwards_singleton (k : ι) (x : α) :
    (fun i => channel i ++ ([(({k} : Finset ι), x)].filter fun m => i ∈ m.1).map Prod.snd) =
      Function.update channel k (channel k ++ [x]) := by
  funext i
  by_cases hi : i = k
  · subst hi
    simp
  · simp [hi]

theorem push_singleton (k : ι) (x : α) :
    push channel [(k, x)] = Function.update channel k (channel k ++ [x]) := by
  funext i
  by_cases h : i = k
  · subst h
    simp [push]
  · simp [push, Ne.symm h, Function.update_of_ne h]

end

/-- A channel after its head was handled. -/
def consume {α : Type} (popped : Bool) (m : α) (rest : List α) : List α :=
  if popped then rest else m :: rest

/-! ## Runs -/

/-- What a step of a system ends in. -/
abbrev Outcome (τ : Type) (b : ℕ) := Except Fault (τ × Option (Completion b))

section Runs

variable {τ L : Type} (step : τ → L → Option (Outcome τ b))

/-- The state after a step that goes well. -/
def nextState (s : τ) (l : L) : Option τ :=
  match step s l with
  | some (.ok (s', _)) => some s'
  | _ => none

/-- The value of the latest store that completed in the run, `v` if there is none. -/
def latestStore (s : τ) (v : DataBlock b) : List L → DataBlock b
  | [] => v
  | l :: ls =>
    match step s l with
    | some (.ok (s', c)) => latestStore s' (valueAfter v c) ls
    | _ => v

variable {step}

theorem exists_step {s s' : τ} {l : L} (h : nextState step s l = some s') :
    ∃ c, step s l = some (.ok (s', c)) := by
  unfold nextState at h
  split at h
  · rename_i s1 c hstep
    exact ⟨c, Option.some.inj h ▸ hstep⟩
  · cases h

/-- **Coherence rule**: what every step keeps true of the state and of the latest value, a
run keeps true. -/
theorem latestStore_invariant {I : τ → DataBlock b → Prop}
    (hstep : ∀ s v l s' c, I s v → step s l = some (.ok (s', c)) → I s' (valueAfter v c))
    {s s' : τ} {v : DataBlock b} {ls : List L} (hs : I s v)
    (hrun : runSteps (nextState step) s ls = some s') : I s' (latestStore step s v ls) := by
  induction ls generalizing s v with
  | nil =>
    cases hrun
    exact hs
  | cons l ls ih =>
    rw [runSteps_cons, Option.bind_eq_some_iff] at hrun
    obtain ⟨s1, hnext, hrun⟩ := hrun
    obtain ⟨c, hl⟩ := exists_step hnext
    simp only [latestStore, hl]
    exact ih (hstep s v l s1 c hs hl) hrun

end Runs

/-! ## The memory queue -/

inductive MemoryRequestType where
  | MEMORY_READ
  | MEMORY_WB
  deriving DecidableEq

/-- A request to memory or its answer; `sender` is the machine that is asked for,
`m_Sender` of the request and `m_OriginalRequestorMachId` of the answer. -/
structure MemoryMsg (κ : Type) (b : ℕ) where
  addr : Addr
  type : MemoryRequestType
  sender : κ
  dataBlk : DataBlock b
  len : ℕ

/-- One more request to memory. -/
theorem map_type_concat {κ : Type} {answers q : List (MemoryMsg κ b)} (m : MemoryMsg κ b)
    (h : (answers ++ q).map MemoryMsg.type = []) :
    (answers ++ (q ++ [m])).map MemoryMsg.type = [m.type] := by
  rw [← List.append_assoc, List.map_append, h]
  rfl

/-- The packet for the first message of the queue, the access and its answer;
`none` where `getData` fails or the answer reads past its packet. -/
def serviceMemoryQueue {κ : Type} (msg : MemoryMsg κ b) (mem : Memory) :
    Option (Memory × MemoryMsg κ b) :=
  let reqSize := if 0 < msg.len then msg.len else 2 ^ b
  match msg.type with
  | .MEMORY_WB =>
    let offset := (getOffset b msg.addr).toNat
    if offset + reqSize ≤ 2 ^ b then
      some (writeBytes mem msg.addr.toNat reqSize fun j => msg.dataBlk.byte (offset + j),
        { addr := msg.addr, type := .MEMORY_WB, sender := msg.sender, dataBlk := fun _ => 0,
          len := 0 })
    else none
  | .MEMORY_READ =>
    if 2 ^ b ≤ reqSize then
      some (mem, { addr := msg.addr, type := .MEMORY_READ, sender := msg.sender,
                   dataBlk := readBlock mem msg.addr.toNat, len := 0 })
    else none

variable {κ : Type}

/-- **A write back in a line**: from the offset of its address on, the bytes of
the message are in memory. -/
theorem service_write (hb : b < 64) {msg : MemoryMsg κ b} (htype : msg.type = .MEMORY_WB)
    (hlen : 0 < msg.len) (hfit : (getOffset b msg.addr).toNat + msg.len ≤ 2 ^ b) (mem : Memory) :
    ∃ mem' ack, serviceMemoryQueue msg mem = some (mem', ack) ∧
      ack.type = .MEMORY_WB ∧ ack.sender = msg.sender ∧ ack.addr = msg.addr ∧
      ∀ x, mem' x = if msg.addr.toNat ≤ x ∧ x < msg.addr.toNat + msg.len then
        msg.dataBlk.byte (x - (makeLineAddress b msg.addr).toNat) else mem x := by
  unfold serviceMemoryQueue
  simp only [htype, if_pos hlen, if_pos hfit]
  refine ⟨_, _, rfl, rfl, rfl, rfl, ?_⟩
  intro x
  simp only [writeBytes]
  have haddr := toNat_line_add_offset hb msg.addr
  by_cases hx : msg.addr.toNat ≤ x ∧ x < msg.addr.toNat + msg.len
  · rw [if_pos hx, if_pos hx]
    congr 1
    omega
  · rw [if_neg hx, if_neg hx]

/-- What a write leaves of the line. -/
theorem readBlock_service (hb : b < 64) {msg ack : MemoryMsg κ b} {mem mem' : Memory}
    (htype : msg.type = .MEMORY_WB) (hlen : 0 < msg.len)
    (hfit : (getOffset b msg.addr).toNat + msg.len ≤ 2 ^ b)
    (h : serviceMemoryQueue msg mem = some (mem', ack)) :
    readBlock mem' (makeLineAddress b msg.addr).toNat
      = (readBlock mem (makeLineAddress b msg.addr).toNat).overwrite msg.dataBlk
          (getOffset b msg.addr).toNat msg.len := by
  obtain ⟨mem1, ack1, hservice, -, -, -, hbytes⟩ := service_write hb htype hlen hfit mem
  rw [h] at hservice
  obtain ⟨rfl, rfl⟩ := Prod.mk.inj (Option.some.inj hservice)
  have haddr := toNat_line_add_offset hb msg.addr
  funext j
  simp only [readBlock, DataBlock.overwrite, hbytes]
  by_cases hj : (getOffset b msg.addr).toNat ≤ j ∧ j < (getOffset b msg.addr).toNat + msg.len
  · rw [if_pos hj, if_pos (by omega), Nat.add_sub_cancel_left, DataBlock.byte, dif_pos j.isLt]
  · rw [if_neg hj, if_neg (by omega)]

/-- A whole line is written back. -/
theorem service_writeBack (hb : b < 64) {line : Addr} (hline : 2 ^ b ∣ line.toNat)
    (sender : κ) (blk : DataBlock b) (mem : Memory) :
    ∃ mem', serviceMemoryQueue ⟨line, .MEMORY_WB, sender, blk, 0⟩ mem
        = some (mem', ⟨line, .MEMORY_WB, sender, fun _ => 0, 0⟩) ∧
      readBlock mem' line.toNat = blk := by
  have hoff : (getOffset b line).toNat = 0 := by
    rw [getOffset_eq_zero hb hline]
    rfl
  unfold serviceMemoryQueue
  simp only [lt_irrefl, if_false, hoff, zero_add, le_refl]
  refine ⟨_, rfl, ?_⟩
  funext j
  have hread := readBlock_writeBytes mem line.toNat 0 (2 ^ b) (fun j => blk.byte j) j
  rw [add_zero] at hread
  rw [hread, if_pos ⟨Nat.zero_le _, by omega⟩, Nat.sub_zero, DataBlock.byte, dif_pos j.isLt]

/-- A whole line is read. -/
theorem service_read (line : Addr) (sender : κ) (blk : DataBlock b) (mem : Memory) :
    serviceMemoryQueue ⟨line, .MEMORY_READ, sender, blk, 0⟩ mem
      = some (mem, ⟨line, .MEMORY_READ, sender, readBlock mem line.toNat, 0⟩) := by
  unfold serviceMemoryQueue
  simp

/-- The answer says what was asked for. -/
theorem service_type {m answer : MemoryMsg κ b} {mem mem' : Memory}
    (h : serviceMemoryQueue m mem = some (mem', answer)) : answer.type = m.type := by
  unfold serviceMemoryQueue at h
  generalize (if 0 < m.len then m.len else 2 ^ b) = reqSize at h
  cases hm : m.type with
  | MEMORY_WB | MEMORY_READ =>
    simp only [hm] at h
    split at h
    · obtain ⟨-, rfl⟩ := Prod.mk.inj (Option.some.inj h)
      rfl
    · cases h

end Ruby
