/-
# The MSI protocol

Model of the two machines of the MSI protocol (learning_gem5/part3/MSI-cache.sm,
MSI-dir.sm, MSI-msg.sm) and of the system they make up, for one cache line: any
number of L1 caches `N`, one directory and the memory behind it.

Machines, channels and stores are as in MI_example, but a port first chooses the
event, where an assertion may fail (`none`), and `stall` is an action like the others,
which does nothing.  The data block of a TBE and the one of an `InvAck` are never
read, and the eviction callback to the CPU has no effect.
-/
import Gem5.Ruby
import Gem5.Run

open Function

namespace MSI

open Ruby

variable {N : Type} [DecidableEq N] {b : ℕ}

/-! ## Messages -/

/-- `RequestMsg` of a cache, on virtual network 0. -/
inductive RequestMsg (b : ℕ) where
  | GetS
  | GetM
  | PutS
  | PutM (dataBlk : DataBlock b)

/-- `RequestMsg` of the directory, on virtual network 1. -/
inductive ForwardMsg (N : Type) where
  | GetS (requestor : N)
  | GetM (requestor : N)
  | Inv (requestor : N)
  | PutAck
  deriving DecidableEq

/-- `ResponseMsg` from one cache to another one, on virtual network 2. -/
inductive ResponseMsg (b : ℕ) where
  | Data (dataBlk : DataBlock b)
  | InvAck

/-- `ResponseMsg` from the directory, on virtual network 2. -/
structure DirData (b : ℕ) where
  dataBlk : DataBlock b
  acks : ℤ

/-! ## The cache -/

/-- The states of a cache. -/
inductive CacheState where
  | I | IS_D | IM_AD | IM_A | S | SM_AD | SM_A | M | MI_A | SI_A | II_A
  deriving DecidableEq

/-- The events of a cache. -/
inductive CacheEvent where
  | Load | Store | Replacement | FwdGetS | FwdGetM | Inv | PutAck
  | DataDirNoAcks | DataDirAcks | DataOwner | InvAck | LastInvAck
  deriving DecidableEq

/-- The line in a cache. -/
structure CacheEntry (b : ℕ) where
  cacheState : CacheState
  dataBlk : DataBlock b

/-- `TBE` of a cache. -/
structure TBE where
  tbeState : CacheState
  acksOutstanding : ℤ := 0

/-- The entry and the TBE of the line. -/
structure Cache (b : ℕ) where
  entry : Option (CacheEntry b)
  tbe : Option TBE

/-- What the ports of a cache deliver; a store has the value it leaves in the
line, also one that completes when a response arrives. -/
inductive CacheIn (N : Type) (b : ℕ) where
  | load
  | store (w : DataBlock b)
  | replacement
  | forward (msg : ForwardMsg N)
  | dirResponse (msg : DirData b) (w : DataBlock b)
  | cacheResponse (msg : ResponseMsg b) (w : DataBlock b)

/-- A cache that handles a message. -/
structure CacheCtx (N : Type) (b : ℕ) where
  cache : Cache b
  inMsg : CacheIn N b
  requests : List (RequestMsg b) := []
  /-- Responses to other caches with their destinations. -/
  responses : List (N × ResponseMsg b) := []
  /-- `Data` for the directory. -/
  dataToDir : List (DataBlock b) := []
  completion : Option (Completion b) := none
  popped : Bool := false

namespace Cache

variable (c : Cache b)

/-- The state of the TBE, if there is one, or of the entry. -/
def getState : CacheState :=
  match c.tbe with
  | some tbe => tbe.tbeState
  | none =>
    match c.entry with
    | some e => e.cacheState
    | none => .I

/-- The state is set in both. -/
def setState (state : CacheState) : Cache b :=
  { entry := c.entry.map fun e => { e with cacheState := state }
    tbe := c.tbe.map fun tbe => { tbe with tbeState := state } }

/-- The event that a port triggers; a response needs a TBE, and the acks may not
be more than those that the directory asks for. -/
def event : CacheIn N b → Option CacheEvent
  | .load => some .Load
  | .store _ => some .Store
  | .replacement => some .Replacement
  | .forward (.GetS _) => some .FwdGetS
  | .forward (.GetM _) => some .FwdGetM
  | .forward (.Inv _) => some .Inv
  | .forward .PutAck => some .PutAck
  | .dirResponse msg _ =>
    match c.tbe with
    | none => none
    | some tbe =>
      if msg.acks + tbe.acksOutstanding < 0 then none
      else if msg.acks + tbe.acksOutstanding = 0 then some .DataDirNoAcks
      else some .DataDirAcks
  | .cacheResponse (.Data _) _ =>
    match c.tbe with
    | none => none
    | some _ => some .DataOwner
  | .cacheResponse .InvAck _ =>
    match c.tbe with
    | none => none
    | some tbe => if tbe.acksOutstanding = 1 then some .LastInvAck else some .InvAck

/-! ### Actions -/

section Actions

variable (ctx : CacheCtx N b)

/-- Send `GetS` to the directory. -/
def sendGetS : Option (CacheCtx N b) := some { ctx with requests := ctx.requests ++ [.GetS] }

/-- Send `GetM` to the directory. -/
def sendGetM : Option (CacheCtx N b) := some { ctx with requests := ctx.requests ++ [.GetM] }

/-- Send `PutS` to the directory. -/
def sendPutS : Option (CacheCtx N b) := some { ctx with requests := ctx.requests ++ [.PutS] }

/-- Send `PutM` and the data to the directory. -/
def sendPutM : Option (CacheCtx N b) :=
  match ctx.cache.entry with
  | some e => some { ctx with requests := ctx.requests ++ [.PutM e.dataBlk] }
  | none => none

/-- The cache that a forwarded message asks to answer. -/
def requestor : CacheIn N b → Option N
  | .forward (.GetS r) | .forward (.GetM r) | .forward (.Inv r) => some r
  | _ => none

/-- Send cache data to requestor. -/
def sendCacheDataToReq : Option (CacheCtx N b) :=
  match ctx.cache.entry, requestor ctx.inMsg with
  | some e, some r => some { ctx with responses := ctx.responses ++ [(r, .Data e.dataBlk)] }
  | _, _ => none

/-- Send the cache data to the directory. -/
def sendCacheDataToDir : Option (CacheCtx N b) :=
  match ctx.cache.entry with
  | some e => some { ctx with dataToDir := ctx.dataToDir ++ [e.dataBlk] }
  | none => none

/-- Send inv-ack to requestor. -/
def sendInvAcktoReq : Option (CacheCtx N b) :=
  match ctx.cache.entry, requestor ctx.inMsg with
  | some _, some r => some { ctx with responses := ctx.responses ++ [(r, .InvAck)] }
  | _, _ => none

/-- Decrement the number of acks. -/
def decrAcks : Option (CacheCtx N b) :=
  match ctx.cache.tbe with
  | some tbe =>
    some { ctx with
            cache := { ctx.cache with
              tbe := some { tbe with acksOutstanding := tbe.acksOutstanding - 1 } } }
  | none => none

/-- There has to be an ack left to wait for. -/
def storeAcks : Option (CacheCtx N b) :=
  match ctx.cache.tbe, ctx.inMsg with
  | some tbe, .dirResponse msg _ =>
    if 0 < msg.acks + tbe.acksOutstanding then
      some { ctx with
              cache := { ctx.cache with
                tbe := some { tbe with acksOutstanding := msg.acks + tbe.acksOutstanding } } }
    else none
  | _, _ => none

/-- `loadHit` and `externalLoadHit` -/
def loadHit : Option (CacheCtx N b) :=
  match ctx.cache.entry with
  | some e => some { ctx with completion := some (.readCallback e.dataBlk) }
  | none => none

/-- The value that the store being handled leaves. -/
def storeValue : CacheIn N b → Option (DataBlock b)
  | .store w | .dirResponse _ w | .cacheResponse _ w => some w
  | _ => none

/-- `storeHit` and `externalStoreHit` -/
def storeHit : Option (CacheCtx N b) :=
  match ctx.cache.entry, storeValue ctx.inMsg with
  | some e, some w =>
    some { ctx with
            completion := some (.writeCallback e.dataBlk w)
            cache := { ctx.cache with entry := some { e with dataBlk := w } } }
  | _, _ => none

/-- Send eviction notification to CPU. -/
def forwardEviction : Option (CacheCtx N b) := some ctx

/-- Allocate a cache block. -/
def allocateCacheBlock : Option (CacheCtx N b) :=
  match ctx.cache.entry with
  | some _ => none
  | none => some { ctx with cache := { ctx.cache with entry := some ⟨.I, fun _ => 0⟩ } }

/-- Deallocate a cache block. -/
def deallocateCacheBlock : Option (CacheCtx N b) :=
  match ctx.cache.entry with
  | some _ => some { ctx with cache := { ctx.cache with entry := none } }
  | none => none

/-- Write data to the cache. -/
def writeDataToCache : Option (CacheCtx N b) :=
  match ctx.cache.entry, ctx.inMsg with
  | some e, .dirResponse msg _ =>
    some { ctx with cache := { ctx.cache with entry := some { e with dataBlk := msg.dataBlk } } }
  | some e, .cacheResponse (.Data blk) _ =>
    some { ctx with cache := { ctx.cache with entry := some { e with dataBlk := blk } } }
  | _, _ => none

/-- Allocate TBE. -/
def allocateTBE : Option (CacheCtx N b) :=
  match ctx.cache.tbe with
  | some _ => none
  | none => some { ctx with cache := { ctx.cache with tbe := some { tbeState := .I } } }

/-- Deallocate TBE. -/
def deallocateTBE : Option (CacheCtx N b) :=
  match ctx.cache.tbe with
  | some _ => some { ctx with cache := { ctx.cache with tbe := none } }
  | none => none

/-- Pop the mandatory queue. -/
def popMandatoryQueue : Option (CacheCtx N b) := some { ctx with popped := true }

/-- Pop the response queue. -/
def popResponseQueue : Option (CacheCtx N b) := some { ctx with popped := true }

/-- Pop the forward queue. -/
def popForwardQueue : Option (CacheCtx N b) := some { ctx with popped := true }

/-- Stall the incoming request. -/
def stall : Option (CacheCtx N b) := some ctx

end Actions

/-! ### Transitions -/

/-- The transitions of a cache. -/
def transition : CacheState → CacheEvent → Option (Transition (CacheCtx N b) CacheState)
  | .I, .Load =>
    some (.run [allocateCacheBlock, allocateTBE, sendGetS, popMandatoryQueue] (some .IS_D))
  | .I, .Store =>
    some (.run [allocateCacheBlock, allocateTBE, sendGetM, popMandatoryQueue] (some .IM_AD))
  | .IS_D, .Load | .IS_D, .Store | .IS_D, .Replacement | .IS_D, .Inv => some (.run [stall] none)
  | .IS_D, .DataDirNoAcks | .IS_D, .DataOwner =>
    some (.run [writeDataToCache, deallocateTBE, loadHit, popResponseQueue] (some .S))
  | .IM_AD, .Load | .IM_AD, .Store | .IM_AD, .Replacement | .IM_AD, .FwdGetS | .IM_AD, .FwdGetM
  | .IM_A, .Load | .IM_A, .Store | .IM_A, .Replacement | .IM_A, .FwdGetS | .IM_A, .FwdGetM =>
    some (.run [stall] none)
  | .IM_AD, .DataDirNoAcks | .IM_AD, .DataOwner | .SM_AD, .DataDirNoAcks | .SM_AD, .DataOwner =>
    some (.run [writeDataToCache, deallocateTBE, storeHit, popResponseQueue] (some .M))
  | .IM_AD, .DataDirAcks => some (.run [writeDataToCache, storeAcks, popResponseQueue] (some .IM_A))
  | .IM_AD, .InvAck | .IM_A, .InvAck | .SM_AD, .InvAck | .SM_A, .InvAck =>
    some (.run [decrAcks, popResponseQueue] none)
  | .IM_A, .LastInvAck | .SM_A, .LastInvAck =>
    some (.run [deallocateTBE, storeHit, popResponseQueue] (some .M))
  | .S, .Load | .SM_AD, .Load | .SM_A, .Load | .M, .Load =>
    some (.run [loadHit, popMandatoryQueue] none)
  | .S, .Store => some (.run [allocateTBE, sendGetM, popMandatoryQueue] (some .SM_AD))
  -- the request that needs the place stays in its queue
  | .S, .Replacement => some (.run [sendPutS] (some .SI_A))
  | .S, .Inv =>
    some (.run [sendInvAcktoReq, forwardEviction, deallocateCacheBlock, popForwardQueue] (some .I))
  | .SM_AD, .Store | .SM_AD, .Replacement | .SM_AD, .FwdGetS | .SM_AD, .FwdGetM
  | .SM_A, .Store | .SM_A, .Replacement | .SM_A, .FwdGetS | .SM_A, .FwdGetM =>
    some (.run [stall] none)
  | .SM_AD, .Inv => some (.run [sendInvAcktoReq, popForwardQueue] (some .IM_AD))
  | .SM_AD, .DataDirAcks => some (.run [writeDataToCache, storeAcks, popResponseQueue] (some .SM_A))
  | .M, .Store => some (.run [storeHit, forwardEviction, popMandatoryQueue] none)
  | .M, .Replacement => some (.run [sendPutM] (some .MI_A))
  | .M, .FwdGetS =>
    some (.run [sendCacheDataToReq, sendCacheDataToDir, popForwardQueue] (some .S))
  | .M, .FwdGetM =>
    some (.run [sendCacheDataToReq, deallocateCacheBlock, popForwardQueue] (some .I))
  | .MI_A, .Load | .MI_A, .Store | .MI_A, .Replacement
  | .SI_A, .Load | .SI_A, .Store | .SI_A, .Replacement
  | .II_A, .Load | .II_A, .Store | .II_A, .Replacement => some (.run [stall] none)
  | .MI_A, .FwdGetS =>
    some (.run [sendCacheDataToReq, sendCacheDataToDir, popForwardQueue] (some .SI_A))
  | .MI_A, .FwdGetM => some (.run [sendCacheDataToReq, popForwardQueue] (some .II_A))
  | .MI_A, .PutAck | .SI_A, .PutAck | .II_A, .PutAck =>
    some (.run [deallocateCacheBlock, popForwardQueue] (some .I))
  | .SI_A, .Inv => some (.run [sendInvAcktoReq, popForwardQueue] (some .II_A))
  | _, _ => none

/-- A cache handles the message of one of its ports. -/
def handle (msg : CacheIn N b) : Except Fault (CacheCtx N b) :=
  match c.event msg with
  | none => .error .assertion
  | some event =>
    doTransition (fun state ctx => some { ctx with cache := ctx.cache.setState state }) c.getState
      { cache := c, inMsg := msg } (transition c.getState event)

end Cache

/-! ## The directory -/

/-- The states of the directory. -/
inductive DirState where
  | I | S | M | S_D | S_m | M_m | MI_m | SS_m
  deriving DecidableEq

/-- The events of the directory. -/
inductive DirEvent where
  | GetS | GetM | PutSNotLast | PutSLast | PutMOwner | PutMNonOwner | Data | MemData | MemAck
  deriving DecidableEq

/-- The entry of the line at `line`, and the queue to memory. -/
structure Dir (N : Type) (b : ℕ) where
  line : Addr
  dirState : DirState
  sharers : Finset N
  owner : Finset N
  requestToMemory : List (MemoryMsg N b)

/-- What the ports of the directory deliver. -/
inductive DirIn (N : Type) (b : ℕ) where
  | request (requestor : N) (msg : RequestMsg b)
  | response (sender : N) (dataBlk : DataBlock b)
  | memory (msg : MemoryMsg N b)

/-- The directory that handles a message. -/
structure DirCtx (N : Type) (b : ℕ) where
  dir : Dir N b
  inMsg : DirIn N b
  /-- On the forward network, each with its destinations. -/
  forwards : List (Finset N × ForwardMsg N) := []
  responses : List (N × DirData b) := []
  popped : Bool := false

namespace Dir

/-- In `M` there has to be one owner and no sharer, in `I` neither. -/
def setState (dir : Dir N b) (state : DirState) : Option (Dir N b) :=
  if (state = .M → dir.owner.card = 1 ∧ dir.sharers.card = 0) ∧
      (state = .I → dir.owner.card = 0 ∧ dir.sharers.card = 0) then
    some { dir with dirState := state }
  else none

/-- The event that a port triggers; a single sharer has to be the one that a
`PutS` comes from. -/
def event (dir : Dir N b) : DirIn N b → Option DirEvent
  | .request _ .GetS => some .GetS
  | .request _ .GetM => some .GetM
  | .request r .PutS =>
    if dir.sharers.card = 1 then
      if r ∈ dir.sharers then some .PutSLast else none
    else some .PutSNotLast
  | .request r (.PutM _) => if r ∈ dir.owner then some .PutMOwner else some .PutMNonOwner
  | .response _ _ => some .Data
  | .memory msg =>
    match msg.type with
    | .MEMORY_READ => some .MemData
    | .MEMORY_WB => some .MemAck

/-! ### Actions -/

section Actions

variable (ctx : DirCtx N b)

/-- A request for memory. -/
def enqueueMemory (msg : MemoryMsg N b) : Option (DirCtx N b) :=
  some { ctx with
          dir := { ctx.dir with requestToMemory := ctx.dir.requestToMemory ++ [msg] } }

/-- Send a memory read request. -/
def sendMemRead : Option (DirCtx N b) :=
  match ctx.inMsg with
  | .request r _ =>
    enqueueMemory ctx
      { addr := ctx.dir.line, type := .MEMORY_READ, sender := r, dataBlk := fun _ => 0, len := 0 }
  | _ => none

/-- Write data to memory. -/
def sendDataToMem : Option (DirCtx N b) :=
  match ctx.inMsg with
  | .request r (.PutM blk) =>
    enqueueMemory ctx
      { addr := ctx.dir.line, type := .MEMORY_WB, sender := r, dataBlk := blk, len := 0 }
  | _ => none

/-- Write data to memory from response. -/
def sendRespDataToMem : Option (DirCtx N b) :=
  match ctx.inMsg with
  | .response j blk =>
    enqueueMemory ctx
      { addr := ctx.dir.line, type := .MEMORY_WB, sender := j, dataBlk := blk, len := 0 }
  | _ => none

/-- Add requestor to sharer list. -/
def addReqToSharers : Option (DirCtx N b) :=
  match ctx.inMsg with
  | .request r _ =>
    some { ctx with dir := { ctx.dir with sharers := insert r ctx.dir.sharers } }
  | _ => none

/-- Set the owner. -/
def setOwner : Option (DirCtx N b) :=
  match ctx.inMsg with
  | .request r _ => some { ctx with dir := { ctx.dir with owner := insert r ctx.dir.owner } }
  | _ => none

/-- Add the owner to sharers. -/
def addOwnerToSharers : Option (DirCtx N b) :=
  if ctx.dir.owner.card = 1 then
    some { ctx with dir := { ctx.dir with sharers := ctx.dir.sharers ∪ ctx.dir.owner } }
  else none

/-- Remove requestor from sharers. -/
def removeReqFromSharers : Option (DirCtx N b) :=
  match ctx.inMsg with
  | .request r _ =>
    some { ctx with dir := { ctx.dir with sharers := ctx.dir.sharers.erase r } }
  | _ => none

/-- Clear the sharer list. -/
def clearSharers : Option (DirCtx N b) := some { ctx with dir := { ctx.dir with sharers := ∅ } }

/-- Clear the owner. -/
def clearOwner : Option (DirCtx N b) := some { ctx with dir := { ctx.dir with owner := ∅ } }

/-- Send invalidate to all sharers. -/
def sendInvToSharers : Option (DirCtx N b) :=
  match ctx.inMsg with
  | .request r _ => some { ctx with forwards := ctx.forwards ++ [(ctx.dir.sharers, .Inv r)] }
  | _ => none

/-- `sendFwdGetS` and `sendFwdGetM` send to the one owner. -/
def sendToOwner (msg : N → ForwardMsg N) : Option (DirCtx N b) :=
  match ctx.inMsg with
  | .request r _ =>
    if ctx.dir.owner.card = 1 then
      some { ctx with forwards := ctx.forwards ++ [(ctx.dir.owner, msg r)] }
    else none
  | _ => none

/-- Send forward `GetS` to owner. -/
def sendFwdGetS : Option (DirCtx N b) := sendToOwner ctx .GetS

/-- Send forward `GetM` to owner. -/
def sendFwdGetM : Option (DirCtx N b) := sendToOwner ctx .GetM

/-- Acks are only asked of the sharers of a line that gets an owner. -/
def sendDataToReq : Option (DirCtx N b) :=
  match ctx.inMsg with
  | .memory msg =>
    some { ctx with
            responses := ctx.responses ++ [(msg.sender,
              { dataBlk := msg.dataBlk
                acks := if msg.sender ∈ ctx.dir.owner then (ctx.dir.sharers.card : ℤ) else 0 })] }
  | _ => none

/-- Send the put ack. -/
def sendPutAck : Option (DirCtx N b) :=
  match ctx.inMsg with
  | .request r _ => some { ctx with forwards := ctx.forwards ++ [({r}, .PutAck)] }
  | _ => none

/-- Pop the response queue. -/
def popResponseQueue : Option (DirCtx N b) := some { ctx with popped := true }

/-- Pop the request queue. -/
def popRequestQueue : Option (DirCtx N b) := some { ctx with popped := true }

/-- Pop the memory queue. -/
def popMemQueue : Option (DirCtx N b) := some { ctx with popped := true }

/-- Stall the incoming request. -/
def stall : Option (DirCtx N b) := some ctx

end Actions

/-! ### Transitions -/

/-- The transitions of the directory. -/
def transition : DirState → DirEvent → Option (Transition (DirCtx N b) DirState)
  | .I, .GetS | .S, .GetS =>
    some (.run [sendMemRead, addReqToSharers, popRequestQueue] (some .S_m))
  | .I, .PutSNotLast | .I, .PutSLast | .I, .PutMNonOwner =>
    some (.run [sendPutAck, popRequestQueue] none)
  | .S_m, .MemData => some (.run [sendDataToReq, popMemQueue] (some .S))
  | .I, .GetM => some (.run [sendMemRead, setOwner, popRequestQueue] (some .M_m))
  | .M_m, .MemData => some (.run [sendDataToReq, clearSharers, popMemQueue] (some .M))
  | .S, .GetM =>
    some (.run [sendMemRead, removeReqFromSharers, sendInvToSharers, setOwner, popRequestQueue]
      (some .M_m))
  | .S, .PutSNotLast | .S, .PutMNonOwner | .S_D, .PutSNotLast | .S_D, .PutMNonOwner
  | .SS_m, .PutSNotLast | .SS_m, .PutMNonOwner | .S_m, .PutSNotLast | .S_m, .PutMNonOwner =>
    some (.run [removeReqFromSharers, sendPutAck, popRequestQueue] none)
  | .S, .PutSLast => some (.run [removeReqFromSharers, sendPutAck, popRequestQueue] (some .I))
  | .M, .GetS =>
    some (.run [sendFwdGetS, addReqToSharers, addOwnerToSharers, clearOwner, popRequestQueue]
      (some .S_D))
  | .M, .GetM => some (.run [sendFwdGetM, clearOwner, setOwner, popRequestQueue] none)
  | .M, .PutSNotLast | .M, .PutSLast | .M, .PutMNonOwner
  | .M_m, .PutSNotLast | .M_m, .PutSLast | .M_m, .PutMNonOwner
  | .MI_m, .PutSNotLast | .MI_m, .PutSLast | .MI_m, .PutMNonOwner =>
    some (.run [sendPutAck, popRequestQueue] none)
  | .M, .PutMOwner =>
    some (.run [sendDataToMem, clearOwner, sendPutAck, popRequestQueue] (some .MI_m))
  | .MI_m, .MemAck => some (.run [popMemQueue] (some .I))
  | .S_D, .GetS | .S_D, .GetM => some (.run [stall] none)
  | .S_D, .PutSLast => some (.run [removeReqFromSharers, sendPutAck, popRequestQueue] none)
  | .S_D, .Data => some (.run [sendRespDataToMem, popResponseQueue] (some .SS_m))
  | .SS_m, .MemAck => some (.run [popMemQueue] (some .S))
  | .MI_m, .GetS | .MI_m, .GetM | .SS_m, .GetS | .SS_m, .GetM
  | .S_m, .GetS | .S_m, .GetM | .M_m, .GetS | .M_m, .GetM => some (.run [stall] none)
  | _, _ => none

/-- The directory handles the message of one of its ports. -/
def handle (dir : Dir N b) (msg : DirIn N b) : Except Fault (DirCtx N b) :=
  match dir.event msg with
  | none => .error .assertion
  | some event =>
    doTransition
      (fun state ctx => do
        let dir ← ctx.dir.setState state
        some { ctx with dir := dir })
      dir.dirState { dir := dir, inMsg := msg } (transition dir.dirState event)

end Dir

/-! ## The system -/

/-- The machines and the channels between them. -/
structure System (N : Type) (b : ℕ) where
  caches : N → Cache b
  dir : Dir N b
  mem : Memory
  responseFromMemory : List (MemoryMsg N b)
  /-- Virtual network 0, from each cache to the directory. -/
  requests : N → List (RequestMsg b)
  /-- Virtual network 1, from the directory to each cache. -/
  forwards : N → List (ForwardMsg N)
  /-- Virtual network 2, from the directory to each cache. -/
  dirData : N → List (DirData b)
  /-- Virtual network 2, from each cache to the directory. -/
  dataToDir : N → List (DataBlock b)
  /-- Virtual network 2, from one cache to another one. -/
  responses : N → N → List (ResponseMsg b)

/-- What happens next. -/
inductive Label (N : Type) (b : ℕ) where
  | load (i : N)
  | store (i : N) (w : DataBlock b)
  | replacement (i : N)
  | forward (i : N)
  | dirData (i : N) (w : DataBlock b)
  | response (j i : N) (w : DataBlock b)
  | request (i : N)
  | dataToDir (i : N)
  | serviceMemory
  | memory

namespace System

/-- No line is cached and nothing is on its way. -/
def init (line : Addr) (mem : Memory) : System N b where
  caches := fun _ => ⟨none, none⟩
  dir := { line := line, dirState := .I, sharers := ∅, owner := ∅, requestToMemory := [] }
  mem := mem
  responseFromMemory := []
  requests := fun _ => []
  forwards := fun _ => []
  dirData := fun _ => []
  dataToDir := fun _ => []
  responses := fun _ _ => []

variable (s : System N b)

/-- The cache `i` has handled a message. -/
def afterCache (i : N) (ctx : CacheCtx N b) : System N b :=
  { s with
    caches := update s.caches i ctx.cache
    requests := update s.requests i (s.requests i ++ ctx.requests)
    dataToDir := update s.dataToDir i (s.dataToDir i ++ ctx.dataToDir)
    responses := update s.responses i (push (s.responses i) ctx.responses) }

/-- The directory has handled a message. -/
def afterDir (ctx : DirCtx N b) : System N b :=
  { s with
    dir := ctx.dir
    forwards := fun i => s.forwards i ++ (ctx.forwards.filter fun m => i ∈ m.1).map Prod.snd
    dirData := push s.dirData ctx.responses }

/-! ### What a delivery leaves

`ctx` is what the machine has made of the head `m` of the channel. -/

section Deliveries

variable (s : System N b)

/-- A forwarded request. -/
def deliverForward (i : N) (m : ForwardMsg N) (rest : List (ForwardMsg N)) (ctx : CacheCtx N b) :
    System N b :=
  { s.afterCache i ctx with
    forwards := update s.forwards i (consume ctx.popped m rest) }

/-- Data from the directory. -/
def deliverDirData (i : N) (m : DirData b) (rest : List (DirData b)) (ctx : CacheCtx N b) :
    System N b :=
  { s.afterCache i ctx with
    dirData := update s.dirData i (consume ctx.popped m rest) }

/-- A response of another cache. -/
def deliverResponse (j i : N) (m : ResponseMsg b) (rest : List (ResponseMsg b))
    (ctx : CacheCtx N b) : System N b :=
  let s' := s.afterCache i ctx
  { s' with
    responses := update s'.responses j
      (update (s'.responses j) i (consume ctx.popped m rest)) }

/-- A request of a cache. -/
def deliverRequest (i : N) (m : RequestMsg b) (rest : List (RequestMsg b)) (ctx : DirCtx N b) :
    System N b :=
  { s.afterDir ctx with
    requests := update s.requests i (consume ctx.popped m rest) }

/-- Data of a cache for the directory. -/
def deliverDataToDir (i : N) (m : DataBlock b) (rest : List (DataBlock b)) (ctx : DirCtx N b) :
    System N b :=
  { s.afterDir ctx with
    dataToDir := update s.dataToDir i (consume ctx.popped m rest) }

/-- An answer of memory. -/
def deliverMemory (m : MemoryMsg N b) (rest : List (MemoryMsg N b)) (ctx : DirCtx N b) :
    System N b :=
  { s.afterDir ctx with responseFromMemory := consume ctx.popped m rest }

/-- Memory has answered a request. -/
def afterService (rest : List (MemoryMsg N b)) (mem : Memory) (answer : MemoryMsg N b) :
    System N b :=
  { s with
    mem := mem
    dir := { s.dir with requestToMemory := rest }
    responseFromMemory := s.responseFromMemory ++ [answer] }

end Deliveries

/-- A cache handles a message that did not come over the network. -/
def cacheStep (i : N) (msg : CacheIn N b) : Outcome (System N b) b :=
  ((s.caches i).handle msg).map fun ctx => (s.afterCache i ctx, ctx.completion)

/-- One step: `none` if there is no such message. -/
def step : Label N b → Option (Outcome (System N b) b)
  | .load i => some (s.cacheStep i .load)
  | .store i w => some (s.cacheStep i (.store w))
  | .replacement i =>
    -- only a line that is in the cache is replaced
    if (s.caches i).entry.isSome then some (s.cacheStep i .replacement) else none
  | .forward i =>
    match s.forwards i with
    | [] => none
    | m :: rest => some (((s.caches i).handle (.forward m)).map fun ctx =>
      (s.deliverForward i m rest ctx, ctx.completion))
  | .dirData i w =>
    match s.dirData i with
    | [] => none
    | m :: rest => some (((s.caches i).handle (.dirResponse m w)).map fun ctx =>
      (s.deliverDirData i m rest ctx, ctx.completion))
  | .response j i w =>
    match s.responses j i with
    | [] => none
    | m :: rest => some (((s.caches i).handle (.cacheResponse m w)).map fun ctx =>
      (s.deliverResponse j i m rest ctx, ctx.completion))
  | .request i =>
    match s.requests i with
    | [] => none
    | m :: rest => some ((s.dir.handle (.request i m)).map fun ctx =>
      (s.deliverRequest i m rest ctx, none))
  | .dataToDir i =>
    match s.dataToDir i with
    | [] => none
    | m :: rest => some ((s.dir.handle (.response i m)).map fun ctx =>
      (s.deliverDataToDir i m rest ctx, none))
  | .serviceMemory =>
    match s.dir.requestToMemory with
    | [] => none
    | m :: rest =>
      match serviceMemoryQueue m s.mem with
      | none => some (.error .assertion)
      | some (mem, answer) => some (.ok (s.afterService rest mem answer, none))
  | .memory =>
    match s.responseFromMemory with
    | [] => none
    | m :: rest => some ((s.dir.handle (.memory m)).map fun ctx =>
      (s.deliverMemory m rest ctx, none))

/-- The state after a step that goes well. -/
def next (l : Label N b) : Option (System N b) := nextState step s l

end System

end MSI
