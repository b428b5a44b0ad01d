/-
# Register renaming in the out-of-order CPU

Model of the rename maps (cpu/o3/rename_map.hh, rename_map.cc), the free lists
(cpu/o3/free_list.hh), the part of the rename stage that moves physical
registers (`renameDestRegs`, `doSquash`, `removeFromHistory` and the freeing
branch of `checkSignalsAndUpdate` in cpu/o3/rename.cc), and the initial
mapping set up by the CPU's constructor (cpu/o3/cpu.cc).

All threads share the free lists; everything else is kept per thread.  The
counters for pinned writes are mutable data of a register and kept aside.
Operations return `none` where the source fails an assertion or reads outside a map.
-/
import Gem5.Run

/-! ## Registers -/

open Function

/-- `RegClassType`. -/
inductive RegClassType where
  | IntRegClass
  | FloatRegClass
  | VecRegClass
  | VecElemClass
  | VecPredRegClass
  | MatRegClass
  | CCRegClass
  | MiscRegClass
  | InvalidRegClass
  deriving DecidableEq, Repr

namespace RegClassType

/-- The classes that have a rename map and a free list, in source order. -/
def renamed : List RegClassType :=
  [IntRegClass, FloatRegClass, VecRegClass, VecElemClass, VecPredRegClass, MatRegClass,
    CCRegClass]

instance : Fintype RegClassType where
  elems := insert MiscRegClass (insert InvalidRegClass renamed.toFinset)
  complete := by
    intro c
    cases c <;> decide

def isRenameable : RegClassType → Bool
  | MiscRegClass => false
  | InvalidRegClass => false
  | _ => true

end RegClassType

/-- A flattened architectural register, with the number of writes it is to be
pinned for. -/
structure RegId where
  classValue : RegClassType
  index : ℕ
  numPinnedWrites : ℤ
  deriving DecidableEq, Repr

/-- `RegId::isRenameable`. -/
def RegId.isRenameable (r : RegId) : Bool := r.classValue.isRenameable

/-- A physical register; two pointers are equal when they name the same
register of the register file. -/
structure PhysRegId where
  classValue : RegClassType
  index : ℕ
  deriving DecidableEq, Repr

/-- The mutable pinning data of a physical register. -/
structure Pins where
  numPinnedWrites : ℤ
  numPinnedWritesToComplete : ℤ
  pinned : Bool
  deriving DecidableEq, Repr

def Pins.setNumPinnedWrites (w : ℤ) (p : Pins) : Pins :=
  { p with pinned := w ≠ 0, numPinnedWrites := w }

def Pins.decrNumPinnedWrites (p : Pins) : Pins :=
  { p with numPinnedWrites := p.numPinnedWrites - 1 }

def Pins.setNumPinnedWritesToComplete (w : ℤ) (p : Pins) : Pins :=
  { p with numPinnedWritesToComplete := w }

/-! ## Rename state -/

abbrev InstSeqNum := ℕ

/-- `RenameHistory`. -/
structure RenameHistory where
  instSeqNum : InstSeqNum
  archReg : RegId
  newPhysReg : PhysRegId
  prevPhysReg : PhysRegId
  deriving DecidableEq, Repr

/-- A thread's rename map: for each class the vector of physical registers. -/
abbrev RenameMap := RegClassType → List PhysRegId

/-- Overwrite one entry of a rename map. -/
def RenameMap.set (m : RenameMap) (r : RegId) (p : PhysRegId) : RenameMap :=
  update m r.classValue ((m r.classValue).set r.index p)

/-- The rename stage of a CPU with `n` threads, with the shared free lists. -/
structure Rename (n : ℕ) where
  renameMap : Fin n → RenameMap
  freeList : RegClassType → List PhysRegId
  /-- Youngest entry first. -/
  historyBuffer : Fin n → List RenameHistory
  freeingInProgress : Fin n → List PhysRegId
  pins : PhysRegId → Pins

/-- `RenameInfo`: the new and the previous physical register. -/
structure RenameInfo where
  newPhysReg : PhysRegId
  prevPhysReg : PhysRegId
  deriving DecidableEq, Repr

/-- The destination registers of an instruction, flattened. -/
structure Inst where
  seqNum : InstSeqNum
  destRegs : List RegId
  deriving DecidableEq, Repr

namespace Rename

variable {n : ℕ} (s : Rename n)

/-- `SimpleFreeList::getReg`. -/
def getReg (c : RegClassType) : Option (PhysRegId × Rename n) :=
  match s.freeList c with
  | [] => none  -- assertion: the free list is not empty
  | p :: ps => some (p, { s with freeList := update s.freeList c ps })

/-- `UnifiedFreeList::addReg`. -/
def addReg (p : PhysRegId) : Rename n :=
  { s with
    freeList := update s.freeList p.classValue (s.freeList p.classValue ++ [p]) }

variable (tid : Fin n) (r : RegId)

/-- `UnifiedRenameMap::lookup`. -/
def lookup : Option PhysRegId :=
  match r.classValue with
  | .InvalidRegClass => some ⟨.InvalidRegClass, 0⟩
  | .MiscRegClass => some ⟨.MiscRegClass, r.index⟩
  | c => (s.renameMap tid c)[r.index]?

def setMap (p : PhysRegId) : Rename n :=
  { s with renameMap := update s.renameMap tid ((s.renameMap tid).set r p) }

/-- `UnifiedRenameMap::setEntry`. -/
def setEntry (p : PhysRegId) : Option (Rename n) :=
  if p.classValue ≠ r.classValue then none
  else if !r.isRenameable then
    -- misc registers keep their mapping
    if s.lookup tid r = some p then some s else none
  else if r.index < (s.renameMap tid r.classValue).length then
    some (s.setMap tid r p)
  else none

def updatePins (p : PhysRegId) (f : Pins → Pins) : Rename n :=
  { s with pins := update s.pins p (f (s.pins p)) }

/-- `SimpleRenameMap::rename`, on the map of the register's class. -/
def renameSimple : Option (RenameInfo × Rename n) := do
  let prev ← (s.renameMap tid r.classValue)[r.index]?
  if r.classValue = .InvalidRegClass then
    if prev.classValue = .InvalidRegClass then return (⟨prev, prev⟩, s) else none
  else if 0 < (s.pins prev).numPinnedWrites then
    -- do not rename while the register is pinned, and do not pin it twice
    if r.numPinnedWrites ≠ 0 then none
    else return (⟨prev, prev⟩, s.updatePins prev Pins.decrNumPinnedWrites)
  else
    let (renamed, s) ← s.getReg r.classValue
    let s := s.setMap tid r renamed
    return (⟨renamed, prev⟩, s.updatePins renamed fun p =>
      (p.setNumPinnedWrites r.numPinnedWrites).setNumPinnedWritesToComplete
        (r.numPinnedWrites + 1))

/-- `UnifiedRenameMap::rename`. -/
def renameReg : Option (RenameInfo × Rename n) :=
  if !r.isRenameable then do
    -- misc registers are not really renamed, just remapped
    let p ← s.lookup tid r
    return (⟨p, p⟩, s)
  else s.renameSimple tid r

def pushHistory (hb : RenameHistory) : Rename n :=
  { s with
    historyBuffer := update s.historyBuffer tid (hb :: s.historyBuffer tid) }

/-- Rename one destination and record it in the history buffer. -/
def renameDestReg (seqNum : InstSeqNum) (r : RegId) : Option (RenameInfo × Rename n) := do
  let (info, s) ← s.renameReg tid r
  return (info, s.pushHistory tid ⟨seqNum, r, info.newPhysReg, info.prevPhysReg⟩)

/-- The loop of `Rename::renameDestRegs`; returns what the instruction records
about each destination. -/
def renameDestRegsLoop (s : Rename n) (tid : Fin n) (seqNum : InstSeqNum) :
    List RegId → Option (List (RegId × RenameInfo) × Rename n)
  | [] => some ([], s)
  | r :: rs => do
    let (info, s) ← s.renameDestReg tid seqNum r
    let (infos, s) ← renameDestRegsLoop s tid seqNum rs
    return ((r, info) :: infos, s)

/-- `Rename::renameDestRegs`. -/
def renameDestRegs (inst : Inst) (tid : Fin n) : Option (List (RegId × RenameInfo) × Rename n) :=
  s.renameDestRegsLoop tid inst.seqNum inst.destRegs

/-- Undo one history entry, unless it was not a change. -/
def undoEntry (hb : RenameHistory) : Option (Rename n) :=
  if hb.newPhysReg ≠ hb.prevPhysReg then do
    let s ← s.setEntry tid hb.archReg hb.prevPhysReg
    -- the register may still be owned by instructions in flight: freed later
    return { s with
      freeingInProgress :=
        update s.freeingInProgress tid (s.freeingInProgress tid ++ [hb.newPhysReg]) }
  else some s

/-- The loop of `Rename::doSquash`, over the history buffer of the thread. -/
def doSquashLoop (s : Rename n) (squashedSeqNum : InstSeqNum) (tid : Fin n) :
    List RenameHistory → Option (Rename n)
  | [] => some { s with historyBuffer := update s.historyBuffer tid [] }
  | hb :: rest =>
    if squashedSeqNum < hb.instSeqNum then do
      let s ← s.undoEntry tid hb
      doSquashLoop s squashedSeqNum tid rest
    else some { s with historyBuffer := update s.historyBuffer tid (hb :: rest) }

/-- `Rename::doSquash`. -/
def doSquash (squashedSeqNum : InstSeqNum) (tid : Fin n) : Option (Rename n) :=
  s.doSquashLoop squashedSeqNum tid (s.historyBuffer tid)

/-- The loop of `Rename::removeFromHistory`, over the history buffer from its
old end. -/
def removeFromHistoryLoop (s : Rename n) (instSeqNum : InstSeqNum) (tid : Fin n) :
    List RenameHistory → Rename n
  | [] => { s with historyBuffer := update s.historyBuffer tid [] }
  | hb :: rest =>
    if hb.instSeqNum ≤ instSeqNum then
      let s := if hb.newPhysReg ≠ hb.prevPhysReg then s.addReg hb.prevPhysReg else s
      removeFromHistoryLoop s instSeqNum tid rest
    else { s with historyBuffer := update s.historyBuffer tid (hb :: rest).reverse }

/-- `Rename::removeFromHistory`. -/
def removeFromHistory (instSeqNum : InstSeqNum) (tid : Fin n) : Rename n :=
  s.removeFromHistoryLoop instSeqNum tid (s.historyBuffer tid).reverse

/-- What commit tells rename about a thread. -/
structure CommitInfo where
  squash : Bool
  doneSeqNum : InstSeqNum
  robSquashing : Bool
  deriving DecidableEq, Repr

/-- `Rename::checkSignalsAndUpdate`, as far as it moves registers: a squash
signal squashes; otherwise, once the reorder buffer is done squashing, the
registers of squashed instructions go back to the free lists. -/
def checkSignalsAndUpdate (info : CommitInfo) : Option (Rename n) :=
  if info.squash then s.doSquash info.doneSeqNum tid
  else if !info.robSquashing then
    let s := (s.freeingInProgress tid).foldl addReg s
    some { s with freeingInProgress := update s.freeingInProgress tid [] }
  else some s

/-! ## Initial mapping -/

/-- The sizes the CPU is built with. -/
structure Params where
  /-- Threads with a workload; only these get an initial mapping. -/
  activeThreads : ℕ
  numPhysRegs : RegClassType → ℕ
  numRegs : RegClassType → ℕ

/-- The classes whose sizes the constructor compares: the vector elements take
their number from the vector registers. -/
def checkedClasses : List RegClassType :=
  RegClassType.renamed.filter (· ≠ .VecElemClass)

/-- `panic_if`: not enough physical registers of the class. -/
def notEnoughPhysRegs (n : ℕ) (params : Params) (c : RegClassType) : Bool :=
  params.numPhysRegs c ≤ n * params.numRegs c && params.numRegs c != 0

/-- `PhysRegFile::initFreeList`. -/
def initFreeList (numPhysRegs : RegClassType → ℕ) (c : RegClassType) : List PhysRegId :=
  if c.isRenameable then (List.range (numPhysRegs c)).map (PhysRegId.mk c) else []

/-- Give the next architectural register of a thread its first physical
register.  The map grows here, where the source fills a vector of null
pointers in the same order. -/
def mapReg (slot : Fin n × RegClassType) : Option (Rename n) := do
  let (p, s) ← s.getReg slot.2
  return { s with
    renameMap := update s.renameMap slot.1
      (update (s.renameMap slot.1) slot.2 (s.renameMap slot.1 slot.2 ++ [p])) }

/-- The architectural registers in the order the constructor maps them. -/
def initSlots (n : ℕ) (params : Params) : List (Fin n × RegClassType) :=
  ((List.finRange n).take params.activeThreads).flatMap fun tid =>
    RegClassType.renamed.flatMap fun c => List.replicate (params.numRegs c) (tid, c)

/-- The state before any register is mapped. -/
def start (n : ℕ) (params : Params) : Rename n where
  renameMap := fun _ _ => []
  freeList := initFreeList params.numPhysRegs
  historyBuffer := fun _ => []
  freeingInProgress := fun _ => []
  pins := fun _ => ⟨0, 0, false⟩

/-- The rename state the CPU's constructor sets up. -/
def init (n : ℕ) (params : Params) : Option (Rename n) :=
  if checkedClasses.any (notEnoughPhysRegs n params) then none
  else runSteps mapReg (start n params) (initSlots n params)

/-! ## Steps -/

/-- A step of the rename stage, or of another stage changing the pinning data
of a register (completed or rewound writes). -/
inductive Step (n : ℕ) where
  | renameDestRegs (inst : Inst) (tid : Fin n)
  | doSquash (squashedSeqNum : InstSeqNum) (tid : Fin n)
  | removeFromHistory (instSeqNum : InstSeqNum) (tid : Fin n)
  | checkSignalsAndUpdate (tid : Fin n) (info : CommitInfo)
  | setPins (reg : PhysRegId) (pins : Pins)

def step : Step n → Option (Rename n)
  | .renameDestRegs inst tid => (s.renameDestRegs inst tid).map Prod.snd
  | .doSquash sn tid => s.doSquash sn tid
  | .removeFromHistory sn tid => some (s.removeFromHistory sn tid)
  | .checkSignalsAndUpdate tid info => s.checkSignalsAndUpdate tid info
  | .setPins reg pins => some (s.updatePins reg fun _ => pins)

end Rename
