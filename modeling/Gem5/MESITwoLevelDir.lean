/-
# The directory of MESI_Two_Level

Model of the directory of MESI_Two_Level (mem/ruby/protocol/MESI_Two_Level-dir.sm)
and of the memory behind it, for one cache line.  The L2 caches `N` and the DMA
controllers `D` are not modelled: any message for the line may arrive at any time.

As in MI_example the actions work on a context and give `none` where an assertion
fails.  TBEs are found by the address that is triggered, which for an answer of
memory is the address that memory was asked for; the directory entry is found by
the line of an address.  So for an answer at another address than the one of the
line there is an entry and no TBE.
-/
import Gem5.Ruby
import Gem5.Run

namespace MESITwoLevel

open Ruby

variable {N D : Type} {b : ℕ}

/-! ## Messages -/

/-- The machines of the protocol. -/
inductive MachineID (N D : Type) where
  | L2Cache (n : N)
  | DMA (d : D)
  | Directory
  /-- No machine, as the default constructor makes it. -/
  | NUM
  deriving DecidableEq

/-- What a request asks for. -/
inductive CoherenceRequestType where
  | GETX | UPGRADE | GETS | GET_INSTR | INV | PUTX | WB_ACK | DMA_READ | DMA_WRITE
  deriving DecidableEq

/-- What a response says. -/
inductive CoherenceResponseType where
  | MEMORY_ACK | DATA | DATA_EXCLUSIVE | MEMORY_DATA | ACK | WB_ACK | UNBLOCK | EXCLUSIVE_UNBLOCK
  | INV
  deriving DecidableEq

/-- A request of an L2 cache or a DMA controller. -/
structure RequestMsg (N D : Type) (b : ℕ) where
  addr : Addr
  type : CoherenceRequestType
  requestor : MachineID N D
  dataBlk : DataBlock b
  len : ℕ

/-- A response of or to the directory. -/
structure ResponseMsg (N D : Type) (b : ℕ) where
  addr : Addr
  type : CoherenceResponseType
  sender : MachineID N D := .NUM
  dataBlk : DataBlock b := fun _ => 0

/-! ## The directory -/

/-- The states of the directory. -/
inductive DirState where
  | I | ID | ID_W | M | IM | MI | M_DRD | M_DRDI | M_DWR | M_DWRI
  deriving DecidableEq

/-- The events of the directory. -/
inductive DirEvent where
  | Fetch | Data | Memory_Data | Memory_Ack | DMA_READ | DMA_WRITE | CleanReplacement
  deriving DecidableEq

/-- The owner of a new entry is no machine. -/
structure Entry (N D : Type) where
  directoryState : DirState := .I
  owner : Option (MachineID N D) := none

/-- `TBE` of the directory. -/
structure TBE (N D : Type) (b : ℕ) where
  physicalAddress : Addr
  tbeState : DirState := .I
  dataBlk : DataBlock b
  len : ℕ
  requestor : MachineID N D

/-- The directory entry and the TBE of the line at `line`, and the queue to
memory. -/
structure Dir (N D : Type) (b : ℕ) where
  line : Addr
  entry : Entry N D
  tbe : Option (TBE N D b)
  requestToMemory : List (MemoryMsg (MachineID N D) b)

/-- What the ports of the directory deliver. -/
inductive DirIn (N D : Type) (b : ℕ) where
  | request (msg : RequestMsg N D b)
  | response (msg : ResponseMsg N D b)
  | memory (msg : MemoryMsg (MachineID N D) b)

/-- What becomes of the message that is handled. -/
inductive Handled where
  | kept | popped | waiting | recycled
  deriving DecidableEq

/-- The directory that handles a message. -/
structure DirCtx (N D : Type) (b : ℕ) where
  dir : Dir N D b
  inMsg : DirIn N D b
  address : Addr
  /-- Whether the TBE of the line is the one of the transition. -/
  tbeValid : Bool
  /-- Messages with their destinations. -/
  responses : List (MachineID N D × ResponseMsg N D b) := []
  handled : Handled := .kept
  wokenUp : Bool := false

namespace Dir

variable (dir : Dir N D b)

/-- The state of a valid TBE, or of the entry. -/
def getState (tbeValid : Bool) : DirState :=
  match tbeValid, dir.tbe with
  | true, some tbe => tbe.tbeState
  | _, _ => dir.entry.directoryState

/-- The state is set in both. -/
def setState (tbeValid : Bool) (state : DirState) : Dir N D b :=
  { dir with
    tbe := if tbeValid then dir.tbe.map fun tbe => { tbe with tbeState := state } else dir.tbe
    entry := { dir.entry with directoryState := state } }

/-- The requests that fetch the line. -/
def isGETRequest (type : CoherenceRequestType) : Bool :=
  type = .GETS || type = .GET_INSTR || type = .GETX

/-- The event that a port triggers and its address; `none` for an invalid message. -/
def trigger : DirIn N D b → Option (DirEvent × Addr)
  | .request msg =>
    if isGETRequest msg.type then some (.Fetch, msg.addr)
    else if msg.type = .DMA_READ then some (.DMA_READ, makeLineAddress b msg.addr)
    else if msg.type = .DMA_WRITE then some (.DMA_WRITE, makeLineAddress b msg.addr)
    else none
  | .response msg =>
    if msg.type = .MEMORY_DATA then some (.Data, msg.addr)
    else if msg.type = .ACK then some (.CleanReplacement, msg.addr)
    else none
  | .memory msg =>
    match msg.type with
    | .MEMORY_READ => some (.Memory_Data, msg.addr)
    | .MEMORY_WB => some (.Memory_Ack, msg.addr)

/-- The address that is triggered is the one of the line. -/
def ForLine (msg : DirIn N D b) : Prop :=
  ∀ trig ∈ trigger msg, trig.2 = dir.line

instance (dir : Dir N D b) (msg : DirIn N D b) : Decidable (dir.ForLine msg) :=
  inferInstanceAs (Decidable (∀ trig ∈ trigger msg, trig.2 = dir.line))

/-- Whether `TBEs[address]` is valid. -/
def isValid (address : Addr) : Bool := dir.tbe.isSome && address = dir.line

/-! ### Actions -/

section Actions

variable (ctx : DirCtx N D b)

/-- A response is sent. -/
def send (destination : MachineID N D) (msg : ResponseMsg N D b) : Option (DirCtx N D b) :=
  some { ctx with responses := ctx.responses ++ [(destination, msg)] }

/-- Send ack to L2. -/
def aSendAck : Option (DirCtx N D b) :=
  match ctx.inMsg with
  | .response msg =>
    send ctx msg.sender { addr := ctx.address, type := .MEMORY_ACK, sender := .Directory }
  | _ => none

/-- Send data to requestor. -/
def dSendData : Option (DirCtx N D b) :=
  match ctx.inMsg with
  | .memory msg =>
    send { ctx with dir := { ctx.dir with entry := { ctx.dir.entry with owner := some msg.sender } } }
      msg.sender
      { addr := ctx.address, type := .MEMORY_DATA, sender := .Directory, dataBlk := msg.dataBlk }
  | _ => none

/-- Send ack to L2 from memory. -/
def aaSendAck : Option (DirCtx N D b) :=
  match ctx.inMsg with
  | .memory msg =>
    send ctx msg.sender { addr := ctx.address, type := .MEMORY_ACK, sender := .Directory }
  | _ => none

/-- Pop incoming request queue. -/
def jPopIncomingRequestQueue : Option (DirCtx N D b) := some { ctx with handled := .popped }

/-- Pop incoming response queue. -/
def kPopIncomingResponseQueue : Option (DirCtx N D b) := some { ctx with handled := .popped }

/-- Pop off-chip request queue. -/
def lPopMemQueue : Option (DirCtx N D b) := some { ctx with handled := .popped }

/-- Wake up dependents. -/
def kdWakeUpDependents : Option (DirCtx N D b) := some { ctx with wokenUp := true }

/-- A request for memory. -/
def enqueueMemory (msg : MemoryMsg (MachineID N D) b) : Option (DirCtx N D b) :=
  some { ctx with
          dir := { ctx.dir with requestToMemory := ctx.dir.requestToMemory ++ [msg] } }

/-- `qf_queueMemoryFetchRequest` and `qf_queueMemoryFetchRequestDMA` -/
def qfQueueMemoryFetchRequest : Option (DirCtx N D b) :=
  match ctx.inMsg with
  | .request msg =>
    enqueueMemory ctx
      { addr := ctx.address, type := .MEMORY_READ, sender := msg.requestor,
        dataBlk := fun _ => 0, len := 0 }
  | _ => none

/-- Queue off-chip writeback request. -/
def qwQueueMemoryWBRequest : Option (DirCtx N D b) :=
  match ctx.inMsg with
  | .response msg =>
    enqueueMemory ctx
      { addr := ctx.address, type := .MEMORY_WB, sender := msg.sender, dataBlk := msg.dataBlk,
        len := 0 }
  | _ => none

/-- Send data to DMA controller from directory. -/
def drSendDMAData : Option (DirCtx N D b) :=
  match ctx.inMsg, ctx.tbeValid, ctx.dir.tbe with
  | .memory msg, true, some tbe =>
    send ctx tbe.requestor
      { addr := ctx.address, type := .DATA, dataBlk := msg.dataBlk }
  | _, _, _ => none

/-- Queue off-chip writeback of a DMA write. -/
def qwQueueMemoryWBRequestPartial : Option (DirCtx N D b) :=
  match ctx.inMsg with
  | .request msg =>
    enqueueMemory ctx
      { addr := msg.addr, type := .MEMORY_WB, sender := .Directory, dataBlk := msg.dataBlk,
        len := msg.len }
  | _ => none

/-- Send ack to DMA controller. -/
def daSendDMAAck : Option (DirCtx N D b) :=
  match ctx.tbeValid, ctx.dir.tbe with
  | true, some tbe =>
    send ctx tbe.requestor { addr := ctx.address, type := .ACK }
  | _, _ => none

/-- `stall_and_wait` on the queue of requests.  For a message of another queue it
is the head of the requests that has to wait, and the message stays. -/
def zStallAndWaitRequest : Option (DirCtx N D b) :=
  match ctx.inMsg with
  | .request _ => some { ctx with handled := .waiting }
  | _ => some ctx

/-- Recycle DMA queue. -/
def zzRecycleDMAQueue : Option (DirCtx N D b) := some { ctx with handled := .recycled }

/-- Invalidate a cache block. -/
def invSendCacheInvalidate : Option (DirCtx N D b) :=
  match ctx.inMsg, ctx.dir.entry.owner with
  | .request _, some owner =>
    send ctx owner { addr := ctx.address, type := .INV, sender := .Directory }
  | _, _ => none

/-- Send data to DMA controller from incoming PUTX. -/
def drpSendDMAData : Option (DirCtx N D b) :=
  match ctx.inMsg, ctx.tbeValid, ctx.dir.tbe with
  | .response msg, true, some tbe =>
    send ctx tbe.requestor
      { addr := ctx.address, type := .DATA, dataBlk := msg.dataBlk }
  | _, _, _ => none

/-- `allocate` asserts that there is none. -/
def vAllocateTBE : Option (DirCtx N D b) :=
  match ctx.inMsg, ctx.dir.tbe with
  | .request msg, none =>
    some { ctx with
            tbeValid := true
            dir := { ctx.dir with
                      tbe := some
                        { dataBlk := msg.dataBlk
                          physicalAddress := msg.addr
                          len := msg.len
                          requestor := msg.requestor } } }
  | _, _ => none

/-- Queue off-chip writeback from the TBE. -/
def qwQueueMemoryWBRequestPartialTBE : Option (DirCtx N D b) :=
  match ctx.inMsg, ctx.tbeValid, ctx.dir.tbe with
  | .response msg, true, some tbe =>
    enqueueMemory ctx
      { addr := tbe.physicalAddress, type := .MEMORY_WB, sender := msg.sender,
        dataBlk := tbe.dataBlk, len := tbe.len }
  | _, _, _ => none

/-- `deallocate` asserts that there is one at the address. -/
def wDeallocateTBE : Option (DirCtx N D b) :=
  if ctx.dir.isValid ctx.address then
    some { ctx with tbeValid := false, dir := { ctx.dir with tbe := none } }
  else none

end Actions

/-! ### Transitions -/

/-- The transitions of the directory. -/
def transition : DirState → DirEvent → Option (Transition (DirCtx N D b) DirState)
  | .I, .Fetch => some (.run [qfQueueMemoryFetchRequest, jPopIncomingRequestQueue] (some .IM))
  | .M, .Fetch => some (.run [invSendCacheInvalidate, zStallAndWaitRequest] none)
  | .IM, .Memory_Data => some (.run [dSendData, lPopMemQueue, kdWakeUpDependents] (some .M))
  | .M, .CleanReplacement =>
    some (.run [aSendAck, kPopIncomingResponseQueue, kdWakeUpDependents] (some .I))
  | .M, .Data => some (.run [qwQueueMemoryWBRequest, kPopIncomingResponseQueue] (some .MI))
  | .MI, .Memory_Ack => some (.run [aaSendAck, lPopMemQueue, kdWakeUpDependents] (some .I))
  | .I, .DMA_READ =>
    some (.run [vAllocateTBE, qfQueueMemoryFetchRequest, jPopIncomingRequestQueue] (some .ID))
  | .ID, .Memory_Data =>
    some (.run [drSendDMAData, wDeallocateTBE, lPopMemQueue, kdWakeUpDependents] (some .I))
  | .I, .DMA_WRITE =>
    some (.run [vAllocateTBE, qwQueueMemoryWBRequestPartial, jPopIncomingRequestQueue]
      (some .ID_W))
  | .ID_W, .Memory_Ack =>
    some (.run [daSendDMAAck, wDeallocateTBE, lPopMemQueue, kdWakeUpDependents] (some .I))
  | .ID, .Fetch | .ID, .Data | .ID_W, .Fetch | .ID_W, .Data | .M_DRDI, .Fetch | .M_DRDI, .Data
  | .M_DWRI, .Fetch | .M_DWRI, .Data | .IM, .Fetch | .IM, .Data | .MI, .Fetch | .MI, .Data =>
    some (.run [zStallAndWaitRequest] none)
  | .ID, .DMA_WRITE | .ID, .DMA_READ | .ID_W, .DMA_WRITE | .ID_W, .DMA_READ
  | .M_DRD, .DMA_WRITE | .M_DRD, .DMA_READ | .M_DRDI, .DMA_WRITE | .M_DRDI, .DMA_READ
  | .M_DWR, .DMA_WRITE | .M_DWR, .DMA_READ | .M_DWRI, .DMA_WRITE | .M_DWRI, .DMA_READ
  | .IM, .DMA_WRITE | .IM, .DMA_READ | .MI, .DMA_WRITE | .MI, .DMA_READ =>
    some (.run [zzRecycleDMAQueue] none)
  | .M, .DMA_READ =>
    some (.run [vAllocateTBE, invSendCacheInvalidate, jPopIncomingRequestQueue] (some .M_DRD))
  | .M_DRD, .Data =>
    some (.run [drpSendDMAData, wDeallocateTBE, qwQueueMemoryWBRequest,
      kPopIncomingResponseQueue] (some .M_DRDI))
  | .M_DRDI, .Memory_Ack => some (.run [aaSendAck, lPopMemQueue, kdWakeUpDependents] (some .I))
  | .M, .DMA_WRITE =>
    some (.run [vAllocateTBE, invSendCacheInvalidate, jPopIncomingRequestQueue] (some .M_DWR))
  | .M_DWR, .Data =>
    some (.run [qwQueueMemoryWBRequestPartialTBE, kPopIncomingResponseQueue] (some .M_DWRI))
  | .M_DWRI, .Memory_Ack =>
    some (.run [aaSendAck, daSendDMAAck, wDeallocateTBE, lPopMemQueue, kdWakeUpDependents]
      (some .I))
  | _, _ => none

/-- The directory handles the message of one of its ports. -/
def handle (msg : DirIn N D b) : Except Fault (DirCtx N D b) :=
  match trigger msg with
  | none => .error .assertion
  | some (event, address) =>
    let tbeValid := dir.isValid address
    doTransition
      (fun state ctx => some { ctx with dir := ctx.dir.setState ctx.tbeValid state })
      (dir.getState tbeValid)
      { dir := dir, inMsg := msg, address := address, tbeValid := tbeValid }
      (transition (dir.getState tbeValid) event)

end Dir

/-! ## The directory and its memory -/

/-- The directory and memory. -/
structure Node (N D : Type) (b : ℕ) where
  dir : Dir N D b
  mem : Memory
  responseFromMemory : List (MemoryMsg (MachineID N D) b)

/-- What happens next. -/
inductive Label (N D : Type) (b : ℕ) where
  | request (msg : RequestMsg N D b)
  | response (msg : ResponseMsg N D b)
  | serviceMemory
  | memory

namespace Node

/-- The line is in no cache. -/
def init (line : Addr) (mem : Memory) : Node N D b where
  dir := { line := line, entry := {}, tbe := none, requestToMemory := [] }
  mem := mem
  responseFromMemory := []

/-- One step: `none` if there is no such message, or one that is not for the line. -/
def step (n : Node N D b) : Label N D b → Option (Except Fault (Node N D b))
  | .request msg =>
    if n.dir.ForLine (.request msg) then
      some ((n.dir.handle (.request msg)).map fun ctx => { n with dir := ctx.dir })
    else none
  | .response msg =>
    if n.dir.ForLine (.response msg) then
      some ((n.dir.handle (.response msg)).map fun ctx => { n with dir := ctx.dir })
    else none
  | .serviceMemory =>
    match n.dir.requestToMemory with
    | [] => none
    | m :: rest =>
      match serviceMemoryQueue m n.mem with
      | none => some (.error .assertion)
      | some (mem, answer) =>
        some (.ok
          { n with
            mem := mem
            dir := { n.dir with requestToMemory := rest }
            responseFromMemory := n.responseFromMemory ++ [answer] })
  | .memory =>
    match n.responseFromMemory with
    | [] => none
    | m :: rest =>
      some ((n.dir.handle (.memory m)).map fun ctx =>
        { n with
          dir := ctx.dir
          responseFromMemory := if ctx.handled = .popped then rest else m :: rest })

/-- The state after a step that goes well. -/
def next (n : Node N D b) (l : Label N D b) : Option (Node N D b) :=
  match n.step l with
  | some (.ok n') => some n'
  | _ => none

end Node

end MESITwoLevel
