/-
# DMA writes at the directory of MESI_Two_Level

The directory knows from its state whether there is a TBE and what memory was asked
for (`Dir.Ok`), whatever messages arrive.  So a DMA write that finds the line in `M`
waits alone: memory is not written until the data of the owner has come, and then
by the request that is made of the TBE (`Node.Waiting`, `Node.Queued`).
-/
import Gem5.MESITwoLevelDir

open Option

namespace MESITwoLevel

open MESITwoLevel.Dir

open Ruby

variable {N D : Type} {b : ℕ}

/-- The message that a step brings to the directory, not one of memory. -/
def Label.message : Label N D b → Option (DirIn N D b)
  | .request msg => some (.request msg)
  | .response msg => some (.response msg)
  | _ => none

namespace Dir

/-- A TBE is in use. -/
def Blocked : DirState → Prop
  | .ID | .ID_W | .M_DRD | .M_DWR | .M_DWRI => True
  | _ => False

/-- What memory was asked for and has not answered. -/
def outstanding : DirState → List MemoryRequestType
  | .IM | .ID => [.MEMORY_READ]
  | .MI | .ID_W | .M_DRDI | .M_DWRI => [.MEMORY_WB]
  | _ => []

/-- **The invariant of the directory**, with the answers it has not seen yet. -/
structure Ok (dir : Dir N D b) (answers : List (MemoryMsg (MachineID N D) b)) : Prop where
  sync : ∀ tbe ∈ dir.tbe, tbe.tbeState = dir.entry.directoryState
  tbe : dir.tbe.isSome = true ↔ Blocked dir.entry.directoryState
  memory : (answers ++ dir.requestToMemory).map MemoryMsg.type
    = outstanding dir.entry.directoryState

variable {dir : Dir N D b} {answers : List (MemoryMsg (MachineID N D) b)}
  {m : MemoryMsg (MachineID N D) b} {ctx : DirCtx N D b} {ev : DirEvent} {a : Addr}

theorem Ok.getState_eq (h : dir.Ok answers) (tbeValid : Bool) :
    dir.getState tbeValid = dir.entry.directoryState := by
  unfold getState
  split
  · rename_i tbe htbe
    exact h.sync tbe htbe
  · rfl

variable {tbeValid : Bool}

/-- The next state is set on what belongs to it. -/
theorem ok_setState {st : DirState}
    (hvalid : dir.tbe.isSome = true → tbeValid = true) (htbe : dir.tbe.isSome = true ↔ Blocked st)
    (hmem : (answers ++ dir.requestToMemory).map MemoryMsg.type = outstanding st) :
    (dir.setState tbeValid st).Ok answers := by
  cases hdir : dir.tbe with
  | none =>
    refine ⟨?_, ?_, hmem⟩
    · simp [setState, hdir]
    · simpa [setState, hdir] using htbe
  | some tbe =>
    refine ⟨?_, ?_, hmem⟩
    · simp [setState, hdir, hvalid]
    · simpa [setState, hdir, hvalid] using htbe

/-- The transition that is taken. -/
theorem Ok.exists_transition (h : dir.Ok answers) {msg : DirIn N D b}
    (hctx : dir.handle msg = .ok ctx) : ∃ ev a actions next ctx', trigger msg = some (ev, a) ∧
      transition dir.entry.directoryState ev = some (.run actions next) ∧
      runActions actions { dir := dir, inMsg := msg, address := a, tbeValid := dir.isValid a }
        = some ctx' ∧
      ctx.dir = ctx'.dir.setState ctx'.tbeValid (next.getD dir.entry.directoryState) ∧
      ctx.handled = ctx'.handled := by
  unfold handle at hctx
  cases htrig : trigger msg with
  | none =>
    rw [htrig] at hctx
    cases hctx
  | some trig =>
    obtain ⟨ev, a⟩ := trig
    simp only [htrig, h.getState_eq] at hctx
    cases htable : transition (D := D) (b := b) dir.entry.directoryState ev with
    | none =>
      rw [htable] at hctx
      cases hctx
    | some t =>
      cases t with
      | stall =>
        -- the table has no such transition
        cases hst : dir.entry.directoryState <;> cases ev <;> rw [hst] at htable <;> cases htable
      | run actions next =>
        rw [htable] at hctx
        obtain ⟨ctx', hrun, hset⟩ := runActions_of_ok hctx
        cases hset
        exact ⟨ev, a, actions, next, ctx', rfl, htable, hrun, rfl, rfl⟩

/-- A message that has to wait leaves the directory as it is. -/
theorem Ok.setState_self (h : dir.Ok answers) (hvalid : dir.tbe.isSome = true → tbeValid = true) :
    (dir.setState tbeValid dir.entry.directoryState).Ok answers :=
  ok_setState hvalid h.tbe h.memory

theorem isValid_line (dir : Dir N D b) : dir.tbe.isSome = true → dir.isValid dir.line = true := by
  intro htbe
  simp [isValid, htbe]

theorem Ok.tbe_eq_none (h : dir.Ok answers) (hst : ¬ Blocked dir.entry.directoryState) :
    dir.tbe = none := by
  rw [← not_isSome_iff_eq_none, h.tbe]
  exact hst

theorem Ok.exists_tbe (h : dir.Ok answers) (hst : Blocked dir.entry.directoryState) :
    ∃ t, dir.tbe = some t :=
  isSome_iff_exists.mp (h.tbe.mpr hst)

theorem trigger_request {m : RequestMsg N D b} (h : trigger (.request m) = some (ev, a))
    : ev = .Fetch ∨ ev = .DMA_READ ∨ ev = .DMA_WRITE := by
  simp only [trigger] at h
  split_ifs at h <;> cases h <;> simp

theorem trigger_response {m : ResponseMsg N D b}
    (h : trigger (N := N) (D := D) (.response m) = some (ev, a)) :
    ev = .Data ∨ ev = .CleanReplacement := by
  simp only [trigger] at h
  split_ifs at h <;> cases h <;> simp

/-- **A message** that is not one of memory. -/
theorem Ok.message (h : dir.Ok answers) {l : Label N D b} {msg : DirIn N D b}
    (hmsg : l.message = some msg) (hline : dir.ForLine msg) (hctx : dir.handle msg = .ok ctx) :
    ctx.dir.Ok answers := by
  obtain ⟨ev, a, actions, next, ctx', htrig, htable, hrun, hdir, -⟩ := h.exists_transition hctx
  obtain rfl : a = dir.line := hline _ htrig
  rw [hdir]
  have hvalid := isValid_line dir
  have hself := h.setState_self hvalid
  have hmem := h.memory
  have hnone := h.tbe_eq_none
  have hsome := h.exists_tbe
  obtain ⟨line, ⟨st, owner⟩, tbe, q⟩ := dir
  cases l with
  | request m =>
    cases hmsg
    rcases trigger_request htrig with rfl | rfl | rfl
    · cases st with
      | I =>
        cases htable
        cases hrun
        obtain rfl : tbe = none := hnone not_false
        exact ok_setState hvalid (iff_of_false nofun not_false) (map_type_concat _ hmem)
      | M =>
        cases htable
        cases owner with
        | none => cases hrun
        | some owner =>
          cases hrun
          exact hself
      | M_DRD | M_DWR => cases htable
      | _ =>
        cases htable
        cases hrun
        exact hself
    -- the two DMA requests allocate a TBE, or are recycled
    all_goals
      cases st with
      | I =>
        cases htable
        obtain rfl : tbe = none := hnone not_false
        cases hrun
        exact ok_setState (fun _ => rfl) (iff_of_true rfl trivial) (map_type_concat _ hmem)
      | M =>
        cases htable
        obtain rfl : tbe = none := hnone not_false
        cases owner with
        | none => cases hrun
        | some owner =>
          cases hrun
          exact ok_setState (fun _ => rfl) (iff_of_true rfl trivial) hmem
      | _ =>
        cases htable
        cases hrun
        exact hself
  | response m =>
    cases hmsg
    rcases trigger_response htrig with rfl | rfl
    · cases st with
      | I => cases htable
      | M =>
        cases htable
        cases hrun
        obtain rfl : tbe = none := hnone not_false
        exact ok_setState hvalid (iff_of_false nofun not_false) (map_type_concat _ hmem)
      | M_DRD =>
        cases htable
        obtain ⟨t, rfl⟩ := hsome trivial
        simp [runActions, isValid, drpSendDMAData, wDeallocateTBE, send, qwQueueMemoryWBRequest,
          enqueueMemory, kPopIncomingResponseQueue] at hrun
        obtain rfl := hrun
        exact ok_setState nofun (iff_of_false nofun not_false) (map_type_concat _ hmem)
      | M_DWR =>
        cases htable
        obtain ⟨t, rfl⟩ := hsome trivial
        simp [runActions, isValid, qwQueueMemoryWBRequestPartialTBE, enqueueMemory,
          kPopIncomingResponseQueue] at hrun
        obtain rfl := hrun
        exact ok_setState (fun _ => rfl) (iff_of_true rfl trivial) (map_type_concat _ hmem)
      | _ =>
        cases htable
        cases hrun
        exact hself
    · cases st with
      | M =>
        cases htable
        cases hrun
        obtain rfl : tbe = none := hnone not_false
        exact ok_setState hvalid (iff_of_false nofun not_false) hmem
      | _ => cases htable
  | _ => cases hmsg

/-- Nothing is outstanding. -/
theorem Ok.idle (h : dir.Ok answers) (hout : outstanding dir.entry.directoryState = []) :
    answers = [] ∧ dir.requestToMemory = [] := by
  have hmem := h.memory
  rw [hout, List.map_eq_nil_iff, List.append_eq_nil_iff] at hmem
  exact hmem

/-- There is one answer, and nothing else was asked for. -/
theorem Ok.answer (h : dir.Ok (m :: answers)) : answers = [] ∧ dir.requestToMemory = [] := by
  have hmem := h.memory
  have hone : (answers ++ dir.requestToMemory).map MemoryMsg.type = [] := by
    revert hmem
    cases dir.entry.directoryState <;> simp_all [outstanding]
  rw [List.map_eq_nil_iff, List.append_eq_nil_iff] at hone
  exact hone

theorem trigger_memory (h : trigger (.memory m) = some (ev, a)) :
    (m.type = .MEMORY_READ ∧ ev = .Memory_Data) ∨ (m.type = .MEMORY_WB ∧ ev = .Memory_Ack) := by
  cases hm : m.type <;> simp_all [trigger]

/-- **An answer of memory** ends the transaction. -/
theorem Ok.memory_answer (h : dir.Ok (m :: answers)) (hctx : dir.handle (.memory m) = .ok ctx) :
    ctx.dir.Ok answers ∧ ctx.handled = .popped := by
  obtain ⟨ev, a, actions, next, ctx', htrig, htable, hrun, hdir, hhandled⟩ :=
    h.exists_transition hctx
  rw [hdir, hhandled]
  obtain ⟨rfl, hq⟩ := h.answer
  have hnone := h.tbe_eq_none
  have hsome := h.exists_tbe
  generalize hvalid : dir.isValid a = valid at hrun
  obtain ⟨line, ⟨st, owner⟩, tbe, q⟩ := dir
  obtain rfl : q = [] := hq
  rcases trigger_memory htrig with ⟨hm, rfl⟩ | ⟨hm, rfl⟩
  · cases st with
    | IM =>
      cases htable
      cases hrun
      obtain rfl : tbe = none := hnone not_false
      exact ⟨ok_setState nofun (iff_of_false nofun not_false) rfl, rfl⟩
    | ID =>
      cases htable
      obtain ⟨t, rfl⟩ := hsome trivial
      cases valid with
      | false => cases hrun
      | true =>
        simp [runActions, drSendDMAData, send, wDeallocateTBE, hvalid, lPopMemQueue,
          kdWakeUpDependents] at hrun
        obtain rfl := hrun
        exact ⟨ok_setState nofun (iff_of_false nofun not_false) rfl, rfl⟩
    | _ => cases htable
  · cases st with
    | MI | M_DRDI =>
      cases htable
      cases hrun
      obtain rfl : tbe = none := hnone not_false
      exact ⟨ok_setState nofun (iff_of_false nofun not_false) rfl, rfl⟩
    | ID_W | M_DWRI =>
      cases htable
      obtain ⟨t, rfl⟩ := hsome trivial
      cases valid with
      | false => cases hrun
      | true =>
        simp [runActions, aaSendAck, daSendDMAAck, send, wDeallocateTBE, hvalid, lPopMemQueue,
          kdWakeUpDependents] at hrun
        obtain rfl := hrun
        exact ⟨ok_setState nofun (iff_of_false nofun not_false) rfl, rfl⟩
    | _ => cases htable

end Dir

/-! ## Runs -/

namespace Node

variable {n n' : Node N D b} {l : Label N D b} {labels : List (Label N D b)}

theorem next_eq_some : n.next l = some n' ↔ n.step l = some (.ok n') := by
  unfold next
  split
  · rename_i n1 hstep
    rw [hstep, some.injEq, some.injEq, Except.ok.injEq]
  · rename_i hstep
    exact iff_of_false nofun (hstep n')

/-- **The steps of a node.** -/
theorem next_cases (h : n.next l = some n') :
    (∃ msg ctx, (l.message = some msg ∧ n.dir.ForLine msg ∧ n.dir.handle msg = .ok ctx) ∧
      n' = { n with dir := ctx.dir }) ∨
    (∃ m rest mem answer, (l = .serviceMemory ∧ n.dir.requestToMemory = m :: rest ∧
        serviceMemoryQueue m n.mem = some (mem, answer)) ∧
      n' = ⟨{ n.dir with requestToMemory := rest }, mem, n.responseFromMemory ++ [answer]⟩) ∨
    (∃ m rest ctx, (l = .memory ∧ n.responseFromMemory = m :: rest ∧
        n.dir.handle (.memory m) = .ok ctx) ∧
      n' = ⟨ctx.dir, n.mem, if ctx.handled = .popped then rest else m :: rest⟩) := by
  rw [next_eq_some] at h
  cases l with
  | request | response =>
    simp only [step] at h
    split at h
    · rename_i hline
      obtain ⟨ctx, hctx, rfl⟩ := exists_of_map_ok (some.inj h)
      exact .inl ⟨_, ctx, ⟨rfl, hline, hctx⟩, rfl⟩
    · cases h
  | serviceMemory =>
    simp only [step] at h
    split at h
    · cases h
    · rename_i m rest hq
      split at h
      · cases h
      · rename_i mem answer hservice
        obtain rfl := Except.ok.inj (some.inj h)
        exact .inr (.inl ⟨m, rest, mem, answer, ⟨rfl, hq, hservice⟩, rfl⟩)
  | memory =>
    simp only [step] at h
    split at h
    · cases h
    · rename_i m rest hq
      obtain ⟨ctx, hctx, rfl⟩ := exists_of_map_ok (some.inj h)
      exact .inr (.inr ⟨m, rest, ctx, ⟨rfl, hq, hctx⟩, rfl⟩)

/-- The directory is as it should be. -/
def Ok (n : Node N D b) : Prop := n.dir.Ok n.responseFromMemory

theorem ok_init (line : Addr) (mem : Memory) : (init line mem : Node N D b).Ok :=
  ⟨nofun, iff_of_false nofun not_false, rfl⟩

theorem Ok.next (h : n.Ok) (hnext : n.next l = some n') : n'.Ok := by
  rcases next_cases hnext with ⟨msg, ctx, ⟨hmsg, hline, hctx⟩, rfl⟩ |
    ⟨m, rest, mem, answer, ⟨-, hq, hservice⟩, rfl⟩ | ⟨m, rest, ctx, ⟨-, hq, hctx⟩, rfl⟩
  · exact Dir.Ok.message h hmsg hline hctx
  · refine ⟨h.sync, h.tbe, ?_⟩
    have hmem := h.memory
    rw [hq, List.map_append, List.map_cons, ← service_type hservice] at hmem
    simpa using hmem
  · have hdir : n.dir.Ok (m :: rest) := hq ▸ h
    obtain ⟨hok, hpop⟩ := hdir.memory_answer hctx
    rw [if_pos hpop]
    exact hok

/-- **After every run the directory is as it should be.** -/
theorem ok_run {line : Addr} {mem : Memory}
    (hrun : runSteps next (init line mem) labels = some n) : n.Ok :=
  runSteps_invariant (fun _ _ _ h hnext => h.next hnext) (ok_init line mem) hrun

/-! ## A DMA write of an owned line -/

/-- The TBE of a DMA write. -/
def tbeOf (msg : RequestMsg N D b) (st : DirState) : TBE N D b where
  physicalAddress := msg.addr
  tbeState := st
  dataBlk := msg.dataBlk
  len := msg.len
  requestor := msg.requestor

/-- The DMA write waits for the data of the owner. -/
def Waiting (line : Addr) (msg : RequestMsg N D b) (mem : Memory) (n : Node N D b) : Prop :=
  ∃ owner, n = ⟨⟨line, ⟨.M_DWR, owner⟩, some (tbeOf msg .M_DWR), []⟩, mem, []⟩

/-- The data has come, and memory was asked to write. -/
def Queued (line : Addr) (msg : RequestMsg N D b) (mem : Memory) (n : Node N D b) : Prop :=
  ∃ owner sender, n = ⟨⟨line, ⟨.M_DWRI, owner⟩, some (tbeOf msg .M_DWRI),
    [⟨msg.addr, .MEMORY_WB, sender, msg.dataBlk, msg.len⟩]⟩, mem, []⟩

variable {line : Addr} {msg : RequestMsg N D b} {mem : Memory}

/-- A DMA write finds the line owned. -/
theorem Ok.waiting (h : n.Ok) (howned : n.dir.entry.directoryState = .M)
    (hmsg : msg.type = .DMA_WRITE) (hnext : n.next (.request msg) = some n') :
    Waiting n.dir.line msg n.mem n' := by
  rcases next_cases hnext with ⟨msg', ctx, ⟨heq, hline, hctx⟩, rfl⟩ |
    ⟨_, _, _, _, ⟨heq, -⟩, -⟩ | ⟨_, _, _, ⟨heq, -⟩, -⟩
  · cases heq
    have htrig : trigger (.request msg) = some (.DMA_WRITE, makeLineAddress b msg.addr) := by
      simp [trigger, isGETRequest, hmsg]
    obtain ⟨ev, a, actions, next, ctx', htrig', htable, hrun, hdir, -⟩ :=
      Dir.Ok.exists_transition h hctx
    obtain ⟨rfl, rfl⟩ := Prod.mk.inj (some.inj (htrig'.symm.trans htrig))
    obtain ⟨hanswers, hq⟩ := Dir.Ok.idle h (by rw [howned]; rfl)
    have htbe := Dir.Ok.tbe_eq_none h (by rw [howned]; exact not_false)
    obtain ⟨⟨line, ⟨st, owner⟩, tbe, q⟩, mem, answers⟩ := n
    obtain rfl : st = .M := howned
    obtain rfl : tbe = none := htbe
    obtain rfl : answers = [] := hanswers
    obtain rfl : q = [] := hq
    cases htable
    cases owner with
    | none => cases hrun
    | some owner =>
      cases hrun
      exact ⟨some owner, by rw [hdir]; rfl⟩
  · cases heq
  · cases heq

theorem Waiting.ok (h : Waiting line msg mem n) : n.Ok := by
  obtain ⟨owner, rfl⟩ := h
  refine ⟨?_, iff_of_true rfl trivial, rfl⟩
  rintro tbe ⟨⟩
  rfl

theorem Queued.ok (h : Queued line msg mem n) : n.Ok := by
  obtain ⟨owner, sender, rfl⟩ := h
  refine ⟨?_, iff_of_true rfl trivial, rfl⟩
  rintro tbe ⟨⟩
  rfl

/-- In `M_DWR` the directory recycles DMA requests until the data comes. -/
theorem Waiting.next (h : Waiting line msg mem n) (hnext : n.next l = some n') :
    n' = n ∨ Queued line msg mem n' := by
  have hok := h.ok
  obtain ⟨owner, rfl⟩ := h
  rcases next_cases hnext with ⟨m, ctx, ⟨hmsg, hline, hctx⟩, rfl⟩ |
    ⟨_, _, _, _, ⟨-, hq, -⟩, -⟩ | ⟨_, _, _, ⟨-, hq, -⟩, -⟩
  · obtain ⟨ev, a, actions, next, ctx', htrig, htable, hrun, hdir, -⟩ :=
      Dir.Ok.exists_transition hok hctx
    cases l with
    | request m =>
      cases hmsg
      left
      rcases trigger_request htrig with rfl | rfl | rfl
      · cases htable
      all_goals
        cases htable
        cases hrun
        rw [hdir]
        simp [isValid, setState, tbeOf]
    | response m =>
      cases hmsg
      obtain rfl : a = line := hline _ htrig
      rcases trigger_response htrig with rfl | rfl
      · cases htable
        simp [runActions, isValid, qwQueueMemoryWBRequestPartialTBE, enqueueMemory,
          kPopIncomingResponseQueue] at hrun
        obtain rfl := hrun
        right
        exact ⟨owner, m.sender, by rw [hdir]; rfl⟩
      · cases htable
    | _ => cases hmsg
  · cases hq
  · cases hq

/-- In `M_DWRI` every message waits until memory has answered. -/
theorem Queued.next (h : Queued line msg mem n) (hl : l ≠ .serviceMemory)
    (hnext : n.next l = some n') : n' = n := by
  have hok := h.ok
  obtain ⟨owner, sender, rfl⟩ := h
  rcases next_cases hnext with ⟨m, ctx, ⟨hmsg, -, hctx⟩, rfl⟩ |
    ⟨_, _, _, _, ⟨heq, -⟩, -⟩ | ⟨_, _, _, ⟨-, hq, -⟩, -⟩
  · obtain ⟨ev, a, actions, next, ctx', htrig, htable, hrun, hdir, -⟩ :=
      Dir.Ok.exists_transition hok hctx
    cases l with
    | request m =>
      cases hmsg
      rcases trigger_request htrig with rfl | rfl | rfl
      all_goals
        cases htable
        cases hrun
        rw [hdir]
        simp [isValid, setState, tbeOf]
    | response m =>
      cases hmsg
      rcases trigger_response htrig with rfl | rfl
      · cases htable
        cases hrun
        rw [hdir]
        simp [isValid, setState, tbeOf]
      · cases htable
    | _ => cases hmsg
  · exact absurd heq hl
  · cases hq

/-- Until memory is asked, the DMA write waits or is queued. -/
theorem waiting_or_queued_run (hlabels : .serviceMemory ∉ labels)
    (h : Waiting line msg mem n ∨ Queued line msg mem n) (hrun : runSteps next n labels = some n') :
    Waiting line msg mem n' ∨ Queued line msg mem n' := by
  refine runSteps_invariant_of_mem (I := fun n => Waiting line msg mem n ∨ Queued line msg mem n)
    ?_ h hrun
  intro n1 l hl n2 h1 hnext
  rcases h1 with h1 | h1
  · rcases h1.next hnext with rfl | h2
    · exact .inl h1
    · exact .inr h2
  · rw [h1.next (fun heq => hlabels (heq ▸ hl)) hnext]
    exact .inr h1

/-- **Memory is written** with the bytes of the DMA write alone. -/
theorem readBlock_served (hb : b < 64) (h : Waiting line msg mem n ∨ Queued line msg mem n)
    (hlen : 0 < msg.len) (hfit : (getOffset b msg.addr).toNat + msg.len ≤ 2 ^ b)
    (hnext : n.next .serviceMemory = some n') :
    readBlock n'.mem (makeLineAddress b msg.addr).toNat
      = (readBlock mem (makeLineAddress b msg.addr).toNat).overwrite msg.dataBlk
          (getOffset b msg.addr).toNat msg.len := by
  rcases next_cases hnext with ⟨_, _, ⟨heq, -⟩, -⟩ |
    ⟨m, rest, mem', answer, ⟨-, hq, hservice⟩, rfl⟩ | ⟨_, _, _, ⟨heq, -⟩, -⟩
  · cases heq
  · rcases h with ⟨owner, rfl⟩ | ⟨owner, sender, rfl⟩
    · cases hq
    · cases hq
      exact @readBlock_service b _ hb ⟨msg.addr, .MEMORY_WB, sender, msg.dataBlk, msg.len⟩ _ _ _ rfl
        hlen hfit hservice
  · cases heq

end Node

end MESITwoLevel
