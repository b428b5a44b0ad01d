/-
# The MI_example protocol

Model of the three machines of MI_example (mem/ruby/protocol/MI_example-cache.sm,
MI_example-dir.sm, MI_example-dma.sm) and of the system they make up, for one
cache line: any number of L1 caches `N` and of DMA controllers `D`, one directory
and the memory behind it.

Each machine is its table of transitions.  The actions work on a context that has
the record of the machine, the message that is handled, what is sent, and whether
the message is popped or recycled; an action that peeks at another port than the
one of its message, and an assertion that fails, give `none`.  Profiling and the
eviction callback to the CPU have no effect here.

There is one first-in first-out channel for each source, destination and virtual
network, and a step delivers the head of any of them.  Where the directory
recycles a message it goes back into its channel at any position.  A store
replaces the line by any value `w`, which its label carries.
-/
import Gem5.Ruby
import Gem5.Run

open Function

namespace MIExample

open Ruby

variable {N D : Type} [DecidableEq N] [DecidableEq D] {b : ℕ}

/-! ## Messages -/

/-- The machines that ask memory. -/
inductive MachineID (N D : Type) where
  | L1Cache (n : N)
  | DMA (d : D)
  deriving DecidableEq

/-- `RequestMsg` of a cache, on virtual network 2. -/
inductive RequestMsg (b : ℕ) where
  | GETX
  | GETS
  | PUTX (dataBlk : DataBlock b)

/-- `RequestMsg` of the directory, on virtual network 3. -/
inductive ForwardMsg (N : Type) where
  | GETX (requestor : N)
  | WB_ACK
  | WB_NACK
  | INV
  deriving DecidableEq

/-- What a DMA request is for. -/
inductive DMARequestType where
  | READ
  | WRITE
  deriving DecidableEq

/-- On virtual network 0. -/
structure DMARequestMsg (b : ℕ) where
  type : DMARequestType
  physicalAddress : Addr
  dataBlk : DataBlock b
  len : ℕ

/-- On virtual network 1. -/
inductive DMAResponseMsg (b : ℕ) where
  | DATA (dataBlk : DataBlock b)
  | ACK

/-! ## The cache -/

/-- The states of a cache. -/
inductive CacheState where
  | I | II | M | MI | MII | IS | IM
  deriving DecidableEq

/-- The events of a cache. -/
inductive CacheEvent where
  | load | ifetch | store | data | fwdGETX | inv | replacement | writebackAck | writebackNack
  deriving DecidableEq

/-- The line in a cache. -/
structure CacheEntry (b : ℕ) where
  cacheState : CacheState
  dataBlk : DataBlock b

/-- `TBE` of a cache. -/
structure CacheTBE (b : ℕ) where
  tbeState : CacheState
  dataBlk : DataBlock b

/-- The entry and the TBE of the line, where they are valid. -/
structure Cache (b : ℕ) where
  entry : Option (CacheEntry b)
  tbe : Option (CacheTBE b)

/-- What the ports of a cache deliver; a store has the value it leaves in the
line, also one that completes when the data arrives. -/
inductive CacheIn (N : Type) (b : ℕ) where
  | load
  | ifetch
  | store (w : DataBlock b)
  | replacement
  | forward (msg : ForwardMsg N)
  | response (dataBlk w : DataBlock b)

/-- A cache that handles a message. -/
structure CacheCtx (N : Type) (b : ℕ) where
  cache : Cache b
  inMsg : CacheIn N b
  requests : List (RequestMsg b) := []
  /-- `DATA` messages with their destinations. -/
  responses : List (N × DataBlock b) := []
  completion : Option (Completion b) := none
  popped : Bool := false

namespace Cache

/-- The state of the TBE, if there is one, or of the entry. -/
def getState (c : Cache b) : CacheState :=
  match c.tbe with
  | some tbe => tbe.tbeState
  | none =>
    match c.entry with
    | some e => e.cacheState
    | none => .I

/-- The state is set in both. -/
def setState (c : Cache b) (state : CacheState) : Cache b :=
  { entry := c.entry.map fun e => { e with cacheState := state }
    tbe := c.tbe.map fun tbe => { tbe with tbeState := state } }

/-- The event that a port triggers. -/
def event : CacheIn N b → CacheEvent
  | .load => .load
  | .ifetch => .ifetch
  | .store _ => .store
  | .replacement => .replacement
  | .forward (.GETX _) => .fwdGETX
  | .forward .WB_ACK => .writebackAck
  | .forward .WB_NACK => .writebackNack
  | .forward .INV => .inv
  | .response _ _ => .data

/-! ### Actions -/

section Actions

variable (ctx : CacheCtx N b)

/-- Issue a request. -/
def aIssueRequest : Option (CacheCtx N b) :=
  some { ctx with requests := ctx.requests ++ [.GETX] }

/-- Issue a PUT request. -/
def bIssuePUT : Option (CacheCtx N b) :=
  match ctx.cache.entry with
  | some e => some { ctx with requests := ctx.requests ++ [.PUTX e.dataBlk] }
  | none => none

/-- Send data from cache to requestor. -/
def eSendData : Option (CacheCtx N b) :=
  match ctx.inMsg, ctx.cache.entry with
  | .forward (.GETX r), some e => some { ctx with responses := ctx.responses ++ [(r, e.dataBlk)] }
  | _, _ => none

/-- Send data from TBE to requestor. -/
def eeSendDataFromTBE : Option (CacheCtx N b) :=
  match ctx.inMsg, ctx.cache.tbe with
  | .forward (.GETX r), some tbe =>
    some { ctx with responses := ctx.responses ++ [(r, tbe.dataBlk)] }
  | _, _ => none

/-- Allocate a cache block. -/
def iAllocateL1CacheBlock : Option (CacheCtx N b) :=
  match ctx.cache.entry with
  | some _ => some ctx
  | none => some { ctx with cache := { ctx.cache with entry := some ⟨.I, fun _ => 0⟩ } }

/-- Deallocate a cache block. -/
def hDeallocateL1CacheBlock : Option (CacheCtx N b) :=
  some { ctx with cache := { ctx.cache with entry := none } }

/-- Pop the mandatory request queue. -/
def mPopMandatoryQueue : Option (CacheCtx N b) := some { ctx with popped := true }

/-- Pop the response queue. -/
def nPopResponseQueue : Option (CacheCtx N b) := some { ctx with popped := true }

/-- Pop the forwarded request queue. -/
def oPopForwardedRequestQueue : Option (CacheCtx N b) := some { ctx with popped := true }

/-- `r_load_hit` and `rx_load_hit` -/
def rLoadHit : Option (CacheCtx N b) :=
  match ctx.cache.entry with
  | some e => some { ctx with completion := some (.readCallback e.dataBlk) }
  | none => none

/-- The value that the store being handled leaves. -/
def storeValue : Option (DataBlock b) :=
  match ctx.inMsg with
  | .store w => some w
  | .response _ w => some w
  | _ => none

/-- `s_store_hit` and `sx_store_hit` -/
def sStoreHit : Option (CacheCtx N b) :=
  match ctx.cache.entry, storeValue ctx with
  | some e, some w =>
    some { ctx with
            completion := some (.writeCallback e.dataBlk w)
            cache := { ctx.cache with entry := some { e with dataBlk := w } } }
  | _, _ => none

/-- Write data to the cache. -/
def uWriteDataToCache : Option (CacheCtx N b) :=
  match ctx.inMsg, ctx.cache.entry with
  | .response blk _, some e =>
    some { ctx with cache := { ctx.cache with entry := some { e with dataBlk := blk } } }
  | _, _ => none

/-- `allocate` asserts that there is none. -/
def vAllocateTBE : Option (CacheCtx N b) :=
  match ctx.cache.tbe with
  | some _ => none
  | none => some { ctx with cache := { ctx.cache with tbe := some ⟨.I, fun _ => 0⟩ } }

/-- Deallocate TBE. -/
def wDeallocateTBE : Option (CacheCtx N b) :=
  match ctx.cache.tbe with
  | some _ => some { ctx with cache := { ctx.cache with tbe := none } }
  | none => none

/-- Copy data from cache to TBE. -/
def xCopyDataFromCacheToTBE : Option (CacheCtx N b) :=
  match ctx.cache.entry, ctx.cache.tbe with
  | some e, some tbe =>
    some { ctx with cache := { ctx.cache with tbe := some { tbe with dataBlk := e.dataBlk } } }
  | _, _ => none

end Actions

/-! ### Transitions -/

/-- The transitions of a cache. -/
def transition : CacheState → CacheEvent → Option (Transition (CacheCtx N b) CacheState)
  | .IS, .load | .IS, .ifetch | .IS, .store | .IS, .replacement
  | .IM, .load | .IM, .ifetch | .IM, .store | .IM, .replacement
  | .MI, .load | .MI, .ifetch | .MI, .store | .MI, .replacement
  | .II, .load | .II, .ifetch | .II, .store | .II, .replacement
  | .MII, .load | .MII, .ifetch | .MII, .store | .MII, .replacement => some .stall
  | .IS, .fwdGETX | .IS, .inv | .IM, .fwdGETX | .IM, .inv => some .stall
  | .MI, .inv => some (.run [oPopForwardedRequestQueue] none)
  | .M, .store => some (.run [sStoreHit, mPopMandatoryQueue] none)
  | .M, .load | .M, .ifetch => some (.run [rLoadHit, mPopMandatoryQueue] none)
  | .I, .inv => some (.run [oPopForwardedRequestQueue] none)
  | .I, .store =>
    some (.run [vAllocateTBE, iAllocateL1CacheBlock, aIssueRequest, mPopMandatoryQueue] (some .IM))
  | .I, .load | .I, .ifetch =>
    some (.run [vAllocateTBE, iAllocateL1CacheBlock, aIssueRequest, mPopMandatoryQueue] (some .IS))
  | .IS, .data =>
    some (.run [uWriteDataToCache, rLoadHit, wDeallocateTBE, nPopResponseQueue] (some .M))
  | .IM, .data =>
    some (.run [uWriteDataToCache, sStoreHit, wDeallocateTBE, nPopResponseQueue] (some .M))
  | .M, .fwdGETX => some (.run [eSendData, oPopForwardedRequestQueue] (some .I))
  | .I, .replacement => some (.run [hDeallocateL1CacheBlock] none)
  -- the invalidation stays in its queue
  | .M, .replacement | .M, .inv =>
    some (.run [vAllocateTBE, bIssuePUT, xCopyDataFromCacheToTBE, hDeallocateL1CacheBlock]
      (some .MI))
  | .MI, .writebackAck => some (.run [wDeallocateTBE, oPopForwardedRequestQueue] (some .I))
  | .MI, .fwdGETX => some (.run [eeSendDataFromTBE, oPopForwardedRequestQueue] (some .II))
  | .MI, .writebackNack => some (.run [oPopForwardedRequestQueue] (some .MII))
  | .MII, .fwdGETX =>
    some (.run [eeSendDataFromTBE, wDeallocateTBE, oPopForwardedRequestQueue] (some .I))
  | .II, .writebackNack => some (.run [wDeallocateTBE, oPopForwardedRequestQueue] (some .I))
  | _, _ => none

/-- A cache handles the message of one of its ports. -/
def handle (c : Cache b) (msg : CacheIn N b) : Except Fault (CacheCtx N b) :=
  doTransition (fun state ctx => some { ctx with cache := ctx.cache.setState state }) c.getState
    { cache := c, inMsg := msg } (transition c.getState (event msg))

end Cache

/-! ## The directory -/

/-- The states of the directory. -/
inductive DirState where
  | I | M | M_DRD | M_DWR | M_DWRI | M_DRDI | IM | MI | ID | ID_W
  deriving DecidableEq

/-- The events of the directory. -/
inductive DirEvent where
  | GETX | GETS | PUTX | PUTX_NotOwner | DMA_READ | DMA_WRITE | Memory_Data | Memory_Ack
  deriving DecidableEq

/-- The sharers are never added to. -/
structure DirEntry (N : Type) where
  directoryState : DirState
  owner : Finset N

/-- `TBE` of the directory. -/
structure DirTBE (D : Type) (b : ℕ) where
  physicalAddress : Addr := 0
  tbeState : DirState := .I
  dataBlk : DataBlock b := fun _ => 0
  len : ℕ := 0
  dmaRequestor : Option D := none

/-- The directory entry and the TBE of the line at `line`, and the queue to
memory. -/
structure Dir (N D : Type) (b : ℕ) where
  line : Addr
  entry : DirEntry N
  tbe : Option (DirTBE D b)
  requestToMemory : List (MemoryMsg (MachineID N D) b)

/-- What the ports of the directory deliver. -/
inductive DirIn (N D : Type) (b : ℕ) where
  | request (requestor : N) (msg : RequestMsg b)
  | dmaRequest (requestor : D) (msg : DMARequestMsg b)
  | memory (msg : MemoryMsg (MachineID N D) b)

/-- What becomes of the message that is handled. -/
inductive Handled where
  | kept | popped | recycled
  deriving DecidableEq

/-- The directory that handles a message. -/
structure DirCtx (N D : Type) (b : ℕ) where
  dir : Dir N D b
  inMsg : DirIn N D b
  /-- On the forward network, each with its destinations. -/
  forwards : List (Finset N × ForwardMsg N) := []
  responses : List (N × DataBlock b) := []
  dmaResponses : List (D × DMAResponseMsg b) := []
  handled : Handled := .kept

namespace Dir

variable (dir : Dir N D b)

/-- The state of the TBE, if there is one, or of the entry. -/
def getState : DirState :=
  match dir.tbe with
  | some tbe => tbe.tbeState
  | none => dir.entry.directoryState

/-- In `M` there has to be one owner, in `I` none. -/
def setState (state : DirState) : Option (Dir N D b) :=
  if (state = .M → dir.entry.owner.card = 1) ∧ (state = .I → dir.entry.owner.card = 0) then
    some { dir with
            tbe := dir.tbe.map fun tbe => { tbe with tbeState := state }
            entry := { dir.entry with directoryState := state } }
  else none

/-- The event that a port triggers. -/
def event : DirIn N D b → DirEvent
  | .request _ .GETX => .GETX
  | .request _ .GETS => .GETS
  | .request r (.PUTX _) => if r ∈ dir.entry.owner then .PUTX else .PUTX_NotOwner
  | .dmaRequest _ msg =>
    match msg.type with
    | .READ => .DMA_READ
    | .WRITE => .DMA_WRITE
  | .memory msg =>
    match msg.type with
    | .MEMORY_READ => .Memory_Data
    | .MEMORY_WB => .Memory_Ack

/-! ### Actions -/

section Actions

variable (ctx : DirCtx N D b)

/-- The forward network leads to the caches. -/
def lSendWriteBackAck : Option (DirCtx N D b) :=
  match ctx.inMsg with
  | .memory { sender := .L1Cache n, .. } =>
    some { ctx with forwards := ctx.forwards ++ [({n}, .WB_ACK)] }
  | _ => none

/-- Send writeback nack to requestor. -/
def bSendWriteBackNack : Option (DirCtx N D b) :=
  match ctx.inMsg with
  | .request r _ => some { ctx with forwards := ctx.forwards ++ [({r}, .WB_NACK)] }
  | _ => none

/-- Clear the owner field. -/
def cClearOwner : Option (DirCtx N D b) :=
  some { ctx with dir := { ctx.dir with entry := { ctx.dir.entry with owner := ∅ } } }

/-- Data goes to the cache that asked for it. -/
def dSendData : Option (DirCtx N D b) :=
  match ctx.inMsg with
  | .memory { sender := .L1Cache n, dataBlk := blk, .. } =>
    some { ctx with responses := ctx.responses ++ [(n, blk)] }
  | _ => none

/-- Send data to DMA controller from directory. -/
def drSendDMAData : Option (DirCtx N D b) :=
  match ctx.inMsg, ctx.dir.tbe with
  | .memory msg, some { dmaRequestor := some d, .. } =>
    some { ctx with dmaResponses := ctx.dmaResponses ++ [(d, .DATA msg.dataBlk)] }
  | _, _ => none

/-- Send data to DMA controller from incoming PUTX. -/
def drpSendDMAData : Option (DirCtx N D b) :=
  match ctx.inMsg, ctx.dir.tbe with
  | .request _ (.PUTX blk), some { dmaRequestor := some d, .. } =>
    some { ctx with dmaResponses := ctx.dmaResponses ++ [(d, .DATA blk)] }
  | _, _ => none

/-- Send ack to DMA controller. -/
def daSendDMAAck : Option (DirCtx N D b) :=
  match ctx.dir.tbe with
  | some { dmaRequestor := some d, .. } =>
    some { ctx with dmaResponses := ctx.dmaResponses ++ [(d, .ACK)] }
  | _ => none

/-- The owner is now the requestor. -/
def eOwnerIsRequestor : Option (DirCtx N D b) :=
  match ctx.inMsg with
  | .request r _ =>
    some { ctx with dir := { ctx.dir with entry := { ctx.dir.entry with owner := {r} } } }
  | _ => none

/-- Forward request to owner. -/
def fForwardRequest : Option (DirCtx N D b) :=
  match ctx.inMsg with
  | .request r .GETX =>
    some { ctx with forwards := ctx.forwards ++ [(ctx.dir.entry.owner, .GETX r)] }
  | _ => none

/-- Invalidate a cache block. -/
def invSendCacheInvalidate : Option (DirCtx N D b) :=
  match ctx.inMsg with
  | .dmaRequest _ _ =>
    some { ctx with forwards := ctx.forwards ++ [(ctx.dir.entry.owner, .INV)] }
  | _ => none

/-- Pop incoming request queue. -/
def iPopIncomingRequestQueue : Option (DirCtx N D b) := some { ctx with handled := .popped }

/-- Pop incoming DMA queue. -/
def pPopIncomingDMARequestQueue : Option (DirCtx N D b) := some { ctx with handled := .popped }

/-- Pop off-chip request queue. -/
def lPopMemQueue : Option (DirCtx N D b) := some { ctx with handled := .popped }

/-- Recycle request queue. -/
def zRecycleRequestQueue : Option (DirCtx N D b) := some { ctx with handled := .recycled }

/-- Recycle DMA request queue. -/
def yRecycleDMARequestQueue : Option (DirCtx N D b) := some { ctx with handled := .recycled }

/-- `allocate` asserts that there is none. -/
def allocate (tbe : DirTBE D b) : Option (DirCtx N D b) :=
  match ctx.dir.tbe with
  | some _ => none
  | none => some { ctx with dir := { ctx.dir with tbe := some tbe } }

/-- Allocate TBE. -/
def vAllocateTBE : Option (DirCtx N D b) :=
  match ctx.inMsg with
  | .dmaRequest d msg =>
    allocate ctx
      { dataBlk := msg.dataBlk
        physicalAddress := msg.physicalAddress
        len := msg.len
        dmaRequestor := some d }
  | _ => none

/-- Allocate TBE for DMA read. -/
def rAllocateTbeForDmaRead : Option (DirCtx N D b) :=
  match ctx.inMsg with
  | .dmaRequest d _ => allocate ctx { dmaRequestor := some d }
  | _ => none

/-- A `GETX` has no data in its block. -/
def vAllocateTBEFromRequestNet : Option (DirCtx N D b) :=
  match ctx.inMsg with
  | .request _ (.PUTX blk) => allocate ctx { dataBlk := blk }
  | .request _ _ => allocate ctx {}
  | _ => none

/-- Deallocate TBE. -/
def wDeallocateTBE : Option (DirCtx N D b) :=
  match ctx.dir.tbe with
  | some _ => some { ctx with dir := { ctx.dir with tbe := none } }
  | none => none

/-- A request for memory. -/
def enqueueMemory (msg : MemoryMsg (MachineID N D) b) : Option (DirCtx N D b) :=
  some { ctx with
          dir := { ctx.dir with requestToMemory := ctx.dir.requestToMemory ++ [msg] } }

/-- Queue off-chip fetch request. -/
def qfQueueMemoryFetchRequest : Option (DirCtx N D b) :=
  match ctx.inMsg with
  | .request r _ =>
    enqueueMemory ctx
      { addr := ctx.dir.line, type := .MEMORY_READ, sender := .L1Cache r, dataBlk := fun _ => 0,
        len := 0 }
  | _ => none

/-- Queue off-chip fetch request of a DMA read. -/
def qfQueueMemoryFetchRequestDMA : Option (DirCtx N D b) :=
  match ctx.inMsg with
  | .dmaRequest d _ =>
    enqueueMemory ctx
      { addr := ctx.dir.line, type := .MEMORY_READ, sender := .DMA d, dataBlk := fun _ => 0,
        len := 0 }
  | _ => none

/-- Queue off-chip writeback of a DMA write. -/
def qwQueueMemoryWBRequestPartial : Option (DirCtx N D b) :=
  match ctx.inMsg with
  | .dmaRequest d msg =>
    enqueueMemory ctx
      { addr := ctx.dir.line, type := .MEMORY_WB, sender := .DMA d, dataBlk := msg.dataBlk,
        len := msg.len }
  | _ => none

/-- Queue off-chip writeback from the TBE. -/
def qwQueueMemoryWBRequestPartialTBE : Option (DirCtx N D b) :=
  match ctx.inMsg, ctx.dir.tbe with
  | .request r _, some tbe =>
    enqueueMemory ctx
      { addr := ctx.dir.line, type := .MEMORY_WB, sender := .L1Cache r, dataBlk := tbe.dataBlk,
        len := tbe.len }
  | _, _ => none

/-- Write PUTX data to memory. -/
def lQueueMemoryWBRequest : Option (DirCtx N D b) :=
  match ctx.inMsg with
  | .request r (.PUTX blk) =>
    enqueueMemory ctx
      { addr := ctx.dir.line, type := .MEMORY_WB, sender := .L1Cache r, dataBlk := blk, len := 0 }
  | _ => none

end Actions

/-! ### Transitions -/

/-- The transitions of the directory. -/
def transition : DirState → DirEvent → Option (Transition (DirCtx N D b) DirState)
  | .M_DRD, .GETX | .M_DWR, .GETX | .M_DWRI, .GETX | .M_DRDI, .GETX =>
    some (.run [zRecycleRequestQueue] none)
  | .IM, .GETX | .IM, .GETS | .IM, .PUTX | .IM, .PUTX_NotOwner
  | .MI, .GETX | .MI, .GETS | .MI, .PUTX | .MI, .PUTX_NotOwner
  | .ID, .GETX | .ID, .GETS | .ID, .PUTX | .ID, .PUTX_NotOwner
  | .ID_W, .GETX | .ID_W, .GETS | .ID_W, .PUTX | .ID_W, .PUTX_NotOwner =>
    some (.run [zRecycleRequestQueue] none)
  | .IM, .DMA_READ | .IM, .DMA_WRITE | .MI, .DMA_READ | .MI, .DMA_WRITE
  | .ID, .DMA_READ | .ID, .DMA_WRITE | .ID_W, .DMA_READ | .ID_W, .DMA_WRITE
  | .M_DRDI, .DMA_READ | .M_DRDI, .DMA_WRITE => some (.run [yRecycleDMARequestQueue] none)
  | .I, .GETX =>
    some (.run [vAllocateTBEFromRequestNet, qfQueueMemoryFetchRequest, eOwnerIsRequestor,
      iPopIncomingRequestQueue] (some .IM))
  | .IM, .Memory_Data => some (.run [dSendData, wDeallocateTBE, lPopMemQueue] (some .M))
  | .I, .DMA_READ =>
    some (.run [rAllocateTbeForDmaRead, qfQueueMemoryFetchRequestDMA,
      pPopIncomingDMARequestQueue] (some .ID))
  | .ID, .Memory_Data => some (.run [drSendDMAData, wDeallocateTBE, lPopMemQueue] (some .I))
  | .I, .DMA_WRITE =>
    some (.run [vAllocateTBE, qwQueueMemoryWBRequestPartial, pPopIncomingDMARequestQueue]
      (some .ID_W))
  | .ID_W, .Memory_Ack => some (.run [daSendDMAAck, wDeallocateTBE, lPopMemQueue] (some .I))
  | .M, .DMA_READ =>
    some (.run [vAllocateTBE, invSendCacheInvalidate, pPopIncomingDMARequestQueue] (some .M_DRD))
  | .M_DRD, .PUTX =>
    some (.run [drpSendDMAData, cClearOwner, lQueueMemoryWBRequest, iPopIncomingRequestQueue]
      (some .M_DRDI))
  | .M_DRDI, .Memory_Ack =>
    some (.run [lSendWriteBackAck, wDeallocateTBE, lPopMemQueue] (some .I))
  | .M, .DMA_WRITE =>
    some (.run [vAllocateTBE, invSendCacheInvalidate, pPopIncomingDMARequestQueue] (some .M_DWR))
  | .M_DWR, .PUTX =>
    some (.run [qwQueueMemoryWBRequestPartialTBE, cClearOwner, iPopIncomingRequestQueue]
      (some .M_DWRI))
  | .M_DWRI, .Memory_Ack =>
    some (.run [lSendWriteBackAck, daSendDMAAck, wDeallocateTBE, lPopMemQueue] (some .I))
  | .M, .GETX =>
    some (.run [fForwardRequest, eOwnerIsRequestor, iPopIncomingRequestQueue] (some .M))
  | .M, .PUTX =>
    some (.run [cClearOwner, vAllocateTBEFromRequestNet, lQueueMemoryWBRequest,
      iPopIncomingRequestQueue] (some .MI))
  | .MI, .Memory_Ack => some (.run [lSendWriteBackAck, wDeallocateTBE, lPopMemQueue] (some .I))
  | .M, .PUTX_NotOwner => some (.run [bSendWriteBackNack, iPopIncomingRequestQueue] (some .M))
  | .I, .PUTX_NotOwner => some (.run [bSendWriteBackNack, iPopIncomingRequestQueue] (some .I))
  | .M_DWR, .PUTX_NotOwner | .M_DRD, .PUTX_NotOwner | .M_DRDI, .PUTX_NotOwner
  | .M_DWRI, .PUTX_NotOwner => some (.run [bSendWriteBackNack, iPopIncomingRequestQueue] none)
  | _, _ => none

/-- The directory handles the message of one of its ports. -/
def handle (msg : DirIn N D b) : Except Fault (DirCtx N D b) :=
  doTransition
    (fun state ctx => do
      let dir ← ctx.dir.setState state
      some { ctx with dir := dir })
    dir.getState { dir := dir, inMsg := msg } (transition dir.getState (dir.event msg))

end Dir

/-! ## The DMA controller -/

/-- The states of a DMA controller. -/
inductive DMAState where
  | READY | BUSY_RD | BUSY_WR
  deriving DecidableEq

/-- The events of a DMA controller. -/
inductive DMAEvent where
  | readRequest | writeRequest | data | ack
  deriving DecidableEq

/-- `TBE` of a DMA controller. -/
structure DMATBE (b : ℕ) where
  tbeState : DMAState
  dataBlk : DataBlock b

/-- A DMA controller is its TBE. -/
abbrev DMA (b : ℕ) := Option (DMATBE b)

/-- What its ports deliver. -/
inductive DMAIn (b : ℕ) where
  /-- A `SequencerMsg` from the DMA sequencer. -/
  | sequencer (msg : DMARequestMsg b)
  | response (msg : DMAResponseMsg b)

/-- A DMA controller that handles a message. -/
structure DMACtx (b : ℕ) where
  tbe : DMA b
  inMsg : DMAIn b
  requests : List (DMARequestMsg b) := []
  popped : Bool := false

namespace DMA

/-- Without TBE it is ready. -/
def getState (tbe : DMA b) : DMAState :=
  match tbe with
  | some tbe => tbe.tbeState
  | none => .READY

/-- The event that a port triggers. -/
def event : DMAIn b → DMAEvent
  | .sequencer msg =>
    match msg.type with
    | .READ => .readRequest
    | .WRITE => .writeRequest
  | .response (.DATA _) => .data
  | .response .ACK => .ack

section Actions

variable (ctx : DMACtx b)

/-- `s_sendReadRequest` and `s_sendWriteRequest`: the fields of the request are
copied. -/
def sSendRequest : Option (DMACtx b) :=
  match ctx.inMsg with
  | .sequencer msg => some { ctx with requests := ctx.requests ++ [msg] }
  | _ => none

/-- Update TBE data. -/
def tUpdateTBEData : Option (DMACtx b) :=
  match ctx.inMsg, ctx.tbe with
  | .response (.DATA blk), some tbe => some { ctx with tbe := some { tbe with dataBlk := blk } }
  | _, _ => none

/-- Allocate TBE entry. -/
def vAllocateTBE : Option (DMACtx b) :=
  match ctx.tbe with
  | some _ => none
  | none => some { ctx with tbe := some ⟨.READY, fun _ => 0⟩ }

/-- Deallocate TBE entry. -/
def wDeallocateTBE : Option (DMACtx b) :=
  match ctx.tbe with
  | some _ => some { ctx with tbe := none }
  | none => none

/-- Pop request queue. -/
def pPopRequestQueue : Option (DMACtx b) := some { ctx with popped := true }

/-- Pop response queue. -/
def pPopResponseQueue : Option (DMACtx b) := some { ctx with popped := true }

/-- The message waits outside of the queue until all are woken up. -/
def zzStallAndWaitRequestQueue : Option (DMACtx b) := some ctx

end Actions

/-- The transitions of a DMA controller. -/
def transition : DMAState → DMAEvent → Option (Transition (DMACtx b) DMAState)
  | .READY, .readRequest => some (.run [vAllocateTBE, sSendRequest, pPopRequestQueue] (some .BUSY_RD))
  | .READY, .writeRequest => some (.run [vAllocateTBE, sSendRequest, pPopRequestQueue] (some .BUSY_WR))
  | .BUSY_RD, .data =>
    some (.run [tUpdateTBEData, wDeallocateTBE, pPopResponseQueue] (some .READY))
  | .BUSY_WR, .ack => some (.run [wDeallocateTBE, pPopResponseQueue] (some .READY))
  | .BUSY_RD, .readRequest | .BUSY_RD, .writeRequest | .BUSY_WR, .readRequest
  | .BUSY_WR, .writeRequest => some (.run [zzStallAndWaitRequestQueue] none)
  | _, _ => none

/-- A DMA controller handles a message. -/
def handle (tbe : DMA b) (msg : DMAIn b) : Except Fault (DMACtx b) :=
  doTransition
    (fun state ctx =>
      some { ctx with tbe := ctx.tbe.map fun tbe => { tbe with tbeState := state } })
    (getState tbe) { tbe := tbe, inMsg := msg } (transition (getState tbe) (event msg))

end DMA

/-! ## The system -/

/-- The machines and the channels between them. -/
structure System (N D : Type) (b : ℕ) where
  caches : N → Cache b
  dir : Dir N D b
  dmas : D → DMA b
  mem : Memory
  responseFromMemory : List (MemoryMsg (MachineID N D) b)
  /-- Virtual network 2, from each cache to the directory. -/
  requests : N → List (RequestMsg b)
  /-- Virtual network 3, from the directory to each cache. -/
  forwards : N → List (ForwardMsg N)
  /-- Virtual network 4, from the directory to each cache. -/
  dirData : N → List (DataBlock b)
  /-- Virtual network 4, from one cache to another one. -/
  cacheData : N → N → List (DataBlock b)
  /-- Virtual network 0, from each DMA controller to the directory. -/
  dmaRequests : D → List (DMARequestMsg b)
  /-- Virtual network 1, from the directory to each DMA controller. -/
  dmaResponses : D → List (DMAResponseMsg b)

/-- What happens next. -/
inductive Label (N D : Type) (b : ℕ) where
  | load (i : N)
  | ifetch (i : N)
  | store (i : N) (w : DataBlock b)
  | replacement (i : N)
  | forward (i : N)
  | dirData (i : N) (w : DataBlock b)
  | cacheData (j i : N) (w : DataBlock b)
  /-- The head of a request channel; recycled, it goes to position `k`. -/
  | request (i : N) (k : ℕ)
  | dmaRequest (d : D) (k : ℕ)
  | serviceMemory
  | memory
  | sequencer (d : D) (msg : DMARequestMsg b)
  | dmaResponse (d : D)

namespace System

/-- No line is cached and nothing is on its way. -/
def init (line : Addr) (mem : Memory) : System N D b where
  caches := fun _ => ⟨none, none⟩
  dir := { line := line, entry := ⟨.I, ∅⟩, tbe := none, requestToMemory := [] }
  dmas := fun _ => none
  mem := mem
  responseFromMemory := []
  requests := fun _ => []
  forwards := fun _ => []
  dirData := fun _ => []
  cacheData := fun _ _ => []
  dmaRequests := fun _ => []
  dmaResponses := fun _ => []

variable (s : System N D b)

/-- The cache `i` has handled a message. -/
def afterCache (i : N) (ctx : CacheCtx N b) : System N D b :=
  { s with
    caches := update s.caches i ctx.cache
    requests := update s.requests i (s.requests i ++ ctx.requests)
    cacheData := update s.cacheData i (push (s.cacheData i) ctx.responses) }

/-- The directory has handled a message. -/
def afterDir (ctx : DirCtx N D b) : System N D b :=
  { s with
    dir := ctx.dir
    forwards := fun i => s.forwards i ++ (ctx.forwards.filter fun m => i ∈ m.1).map Prod.snd
    dirData := push s.dirData ctx.responses
    dmaResponses := push s.dmaResponses ctx.dmaResponses }

/-- The channel after its head `m` was handled. -/
def consumeDir {α : Type} (handled : Handled) (k : ℕ) (m : α) (rest : List α) : List α :=
  match handled with
  | .kept => m :: rest
  | .popped => rest
  | .recycled => rest.take k ++ m :: rest.drop k

/-! ### What a delivery leaves

`ctx` is what the machine has made of the head `m` of the channel. -/

section Deliveries

variable (s : System N D b)

/-- A forwarded request. -/
def deliverForward (i : N) (m : ForwardMsg N) (rest : List (ForwardMsg N)) (ctx : CacheCtx N b) :
    System N D b :=
  { s.afterCache i ctx with
    forwards := update s.forwards i (consume ctx.popped m rest) }

/-- Data from the directory. -/
def deliverDirData (i : N) (m : DataBlock b) (rest : List (DataBlock b)) (ctx : CacheCtx N b) :
    System N D b :=
  { s.afterCache i ctx with
    dirData := update s.dirData i (consume ctx.popped m rest) }

/-- Data from another cache. -/
def deliverCacheData (j i : N) (m : DataBlock b) (rest : List (DataBlock b))
    (ctx : CacheCtx N b) : System N D b :=
  let s' := s.afterCache i ctx
  { s' with
    cacheData := update s'.cacheData j
      (update (s'.cacheData j) i (consume ctx.popped m rest)) }

/-- A request of a cache. -/
def deliverRequest (i : N) (k : ℕ) (m : RequestMsg b) (rest : List (RequestMsg b))
    (ctx : DirCtx N D b) : System N D b :=
  { s.afterDir ctx with
    requests := update s.requests i (consumeDir ctx.handled k m rest) }

/-- A DMA request. -/
def deliverDMARequest (d : D) (k : ℕ) (m : DMARequestMsg b) (rest : List (DMARequestMsg b))
    (ctx : DirCtx N D b) : System N D b :=
  { s.afterDir ctx with
    dmaRequests := update s.dmaRequests d (consumeDir ctx.handled k m rest) }

/-- An answer of memory. -/
def deliverMemory (m : MemoryMsg (MachineID N D) b) (rest : List (MemoryMsg (MachineID N D) b))
    (ctx : DirCtx N D b) : System N D b :=
  { s.afterDir ctx with responseFromMemory := consumeDir ctx.handled 0 m rest }

/-- A request of the DMA sequencer. -/
def deliverSequencer (d : D) (ctx : DMACtx b) : System N D b :=
  { s with
    dmas := update s.dmas d ctx.tbe
    dmaRequests := update s.dmaRequests d (s.dmaRequests d ++ ctx.requests) }

/-- An answer to a DMA controller. -/
def deliverDMAResponse (d : D) (m : DMAResponseMsg b) (rest : List (DMAResponseMsg b))
    (ctx : DMACtx b) : System N D b :=
  { s with
    dmas := update s.dmas d ctx.tbe
    dmaResponses := update s.dmaResponses d (consume ctx.popped m rest) }

/-- Memory has answered a request. -/
def afterService (rest : List (MemoryMsg (MachineID N D) b)) (mem : Memory)
    (answer : MemoryMsg (MachineID N D) b) : System N D b :=
  { s with
    mem := mem
    dir := { s.dir with requestToMemory := rest }
    responseFromMemory := s.responseFromMemory ++ [answer] }

end Deliveries

/-- A cache handles a message that did not come over the network. -/
def cacheStep (i : N) (msg : CacheIn N b) : Outcome (System N D b) b :=
  ((s.caches i).handle msg).map fun ctx => (s.afterCache i ctx, ctx.completion)

/-- One step: `none` if there is no such message. -/
def step : Label N D b → Option (Outcome (System N D b) b)
  | .load i => some (s.cacheStep i .load)
  | .ifetch i => some (s.cacheStep i .ifetch)
  | .store i w => some (s.cacheStep i (.store w))
  | .replacement i =>
    -- only a line that is in the cache is replaced
    if (s.caches i).entry.isSome then some (s.cacheStep i .replacement) else none
  | .forward i =>
    match s.forwards i with
    | [] => none
    | m :: rest => some (((s.caches i).handle (.forward m)).map fun ctx =>
      (s.deliverForward i m rest ctx, ctx.completion))
  | .dirData i w =>
    match s.dirData i with
    | [] => none
    | m :: rest => some (((s.caches i).handle (.response m w)).map fun ctx =>
      (s.deliverDirData i m rest ctx, ctx.completion))
  | .cacheData j i w =>
    match s.cacheData j i with
    | [] => none
    | m :: rest => some (((s.caches i).handle (.response m w)).map fun ctx =>
      (s.deliverCacheData j i m rest ctx, ctx.completion))
  | .request i k =>
    match s.requests i with
    | [] => none
    | m :: rest => some ((s.dir.handle (.request i m)).map fun ctx =>
      (s.deliverRequest i k m rest ctx, none))
  | .dmaRequest d k =>
    match s.dmaRequests d with
    | [] => none
    | m :: rest => some ((s.dir.handle (.dmaRequest d m)).map fun ctx =>
      (s.deliverDMARequest d k m rest ctx, none))
  | .serviceMemory =>
    match s.dir.requestToMemory with
    | [] => none
    | m :: rest =>
      match serviceMemoryQueue m s.mem with
      | none => some (.error .assertion)
      | some (mem, answer) => some (.ok (s.afterService rest mem answer, none))
  | .memory =>
    match s.responseFromMemory with
    | [] => none
    | m :: rest => some ((s.dir.handle (.memory m)).map fun ctx =>
      (s.deliverMemory m rest ctx, none))
  | .sequencer d msg =>
    some ((DMA.handle (s.dmas d) (.sequencer msg)).map fun ctx =>
      (s.deliverSequencer d ctx, none))
  | .dmaResponse d =>
    match s.dmaResponses d with
    | [] => none
    | m :: rest => some ((DMA.handle (s.dmas d) (.response m)).map fun ctx =>
      (s.deliverDMAResponse d m rest ctx, none))

/-- The state after a step that goes well. -/
def next (l : Label N D b) : Option (System N D b) := nextState step s l

end System

end MIExample
