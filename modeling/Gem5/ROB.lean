/-
# The reorder buffer of the O3 CPU

`cpu/o3/rob.cc`.  The buffer keeps one list of instructions for each thread, oldest first.
`insertInst` adds at the back, `retireHead` takes the oldest, and `squash` walks from the
youngest instruction back to a sequence number, `squashWidth` instructions in each call of
`doSquash`; where it stopped is kept as an iterator.
-/
import Gem5.NodeList
import Gem5.Run

namespace ROB

variable {numThreads : ℕ}

/-- What the buffer reads and sets of an instruction. -/
structure DynInst (numThreads : ℕ) where
  seqNum : ℕ
  threadNumber : Fin numThreads
  squashed : Bool
  canCommit : Bool
  inROB : Bool
  committed : Bool
deriving DecidableEq

namespace DynInst

variable (inst : DynInst numThreads)

def setSquashed : DynInst numThreads := { inst with squashed := true }

def setCanCommit : DynInst numThreads := { inst with canCommit := true }

def setInROB : DynInst numThreads := { inst with inROB := true }

def clearInROB : DynInst numThreads := { inst with inROB := false }

def setCommitted : DynInst numThreads := { inst with committed := true }

def readyToCommit : Bool := inst.canCommit

end DynInst

structure Params where
  numEntries : ℕ
  squashWidth : ℕ

/-- What the buffer asks the CPU in a call. -/
structure CPU (numThreads : ℕ) where
  activeThreads : List (Fin numThreads)
  isThreadExiting : Fin numThreads → Bool

/-- The number of instructions a call of `doSquash` may squash. -/
def Params.numInstsToSquash (p : Params) (cpu : CPU numThreads) (tid : Fin numThreads) : ℕ :=
  if cpu.isThreadExiting tid then p.numEntries else p.squashWidth

/-- The arrays of the buffer at one thread; `squashIt` is `none` at the end of the list. -/
structure Thread (numThreads : ℕ) where
  instList : NodeList (DynInst numThreads)
  threadEntries : ℕ
  squashIt : Option ℕ
  squashedSeqNum : ℕ
  doneSquashing : Bool

namespace Thread

def insertInst (inst : DynInst numThreads) (t : Thread numThreads) : Thread numThreads :=
  { t with
    instList := t.instList.pushBack inst.setInROB
    threadEntries := t.threadEntries + 1 }

/-- The oldest instruction leaves the list; there must be one, and it must be ready. -/
def retireHead (t : Thread numThreads) : Option (DynInst numThreads × Thread numThreads) :=
  t.instList.first.bind fun headIt =>
  (t.instList.deref headIt).bind fun headInst =>
  (t.instList.erase headIt).bind fun instList =>
  if headInst.readyToCommit then
    some (headInst.clearInROB.setCommitted,
      { t with instList := instList, threadEntries := t.threadEntries - 1 })
  else none

/-- The variables of the loop of `doSquash`. -/
structure SquashLoop (numThreads : ℕ) where
  instList : NodeList (DynInst numThreads)
  squashIt : Option ℕ
  robTailUpdate : Bool
  reachedHead : Bool

/-- The loop of `doSquash`, `numInstsToSquash` rounds at most. -/
def squashLoop (squashedSeqNum : ℕ) : ℕ → SquashLoop numThreads → Option (SquashLoop numThreads)
  | 0, w => some w
  | num + 1, w =>
    match w.squashIt with
    | none => some w
    | some it =>
      (w.instList.deref it).bind fun inst =>
      if squashedSeqNum < inst.seqNum then
        (w.instList.modify it fun inst => inst.setSquashed.setCanCommit).bind fun instList =>
        if instList.first = some it then
          some { w with instList := instList, squashIt := none, reachedHead := true }
        else
          (instList.prev it).bind fun before =>
          squashLoop squashedSeqNum num
            { instList := instList
              squashIt := some before
              robTailUpdate := w.robTailUpdate || instList.last = some it
              reachedHead := false }
      else some w

/-- The squash of the thread is over. -/
def endSquash (t : Thread numThreads) : Thread numThreads :=
  { t with squashIt := none, doneSquashing := true }

/-- The thread after a call of `doSquash`, and whether the tail of the buffer is to be
updated. -/
def doSquash (numInstsToSquash : ℕ) (t : Thread numThreads) : Option (Thread numThreads × Bool) :=
  t.squashIt.bind fun it =>
  (t.instList.deref it).bind fun inst =>
  if inst.seqNum < t.squashedSeqNum then some (t.endSquash, false)
  else
    (squashLoop t.squashedSeqNum numInstsToSquash ⟨t.instList, some it, false, false⟩).bind fun w =>
    let t' := { t with instList := w.instList, squashIt := w.squashIt }
    if w.reachedHead then some (t'.endSquash, false)
    else
      w.squashIt.bind fun it' =>
      (w.instList.deref it').bind fun inst' =>
      if inst'.seqNum ≤ t.squashedSeqNum then some (t'.endSquash, w.robTailUpdate)
      else some (t', w.robTailUpdate)

def squash (numInstsToSquash squashNum : ℕ) (t : Thread numThreads) :
    Option (Thread numThreads × Bool) :=
  if t.threadEntries = 0 then some (t, false)
  else
    let t' := { t with doneSquashing := false, squashedSeqNum := squashNum }
    match t.instList.last with
    | none => some (t', false)
    | some tailThread => doSquash numInstsToSquash { t' with squashIt := some tailThread }

/-- Another stage changes the status of an instruction in the list. -/
def update (it : ℕ) (f : DynInst numThreads → DynInst numThreads) (t : Thread numThreads) :
    Option (Thread numThreads) :=
  (t.instList.modify it f).map fun instList => { t with instList := instList }

end Thread

end ROB

/-- The reorder buffer; `head` and `tail` are `none` at the end of a list. -/
structure ROB (numThreads : ℕ) where
  threads : Fin numThreads → ROB.Thread numThreads
  numInstsInROB : ℕ
  head : Option (Fin numThreads × ℕ)
  tail : Option (Fin numThreads × ℕ)

namespace ROB

variable {numThreads : ℕ}

def resetState : ROB numThreads where
  threads := fun _ =>
    { instList := NodeList.empty
      threadEntries := 0
      squashIt := none
      squashedSeqNum := 0
      doneSquashing := true }
  numInstsInROB := 0
  head := none
  tail := none

def setThread (tid : Fin numThreads) (t : Thread numThreads) (r : ROB numThreads) :
    ROB numThreads :=
  { r with threads := Function.update r.threads tid t }

/-- One end of each active thread's list; of these the one that comes first. -/
def endOfThreads (node? : List (ℕ × DynInst numThreads) → Option (ℕ × DynInst numThreads))
    (before : ℕ → ℕ → Bool) (cpu : CPU numThreads) (r : ROB numThreads) :
    Option (Fin numThreads × ℕ) :=
  (cpu.activeThreads.foldl
    (fun best tid =>
      match node? (r.threads tid).instList.nodes with
      | none => best
      | some node =>
        match best with
        | none => some (tid, node)
        | some (tid', node') =>
          if before node.2.seqNum node'.2.seqNum then some (tid, node) else some (tid', node'))
    none).map fun best => (best.1, best.2.1)

variable (cpu : CPU numThreads) (r : ROB numThreads)

def updateHead : ROB numThreads :=
  { r with head := r.endOfThreads List.head? (fun a b => a < b) cpu }

def updateTail : ROB numThreads :=
  { r with tail := r.endOfThreads List.getLast? (fun a b => b < a) cpu }

variable (p : Params)

/-- `none` where an assertion fails: the buffer is full, or `head` or `tail` is not the
new instruction. -/
def insertInst (inst : DynInst numThreads) (r : ROB numThreads) : Option (ROB numThreads) :=
  if r.numInstsInROB = p.numEntries then none
  else
    let tid := inst.threadNumber
    let it := (r.threads tid).instList.fresh
    let t := (r.threads tid).insertInst inst
    let head := if r.numInstsInROB = 0 then t.instList.first.map fun it => (tid, it) else r.head
    let tail := t.instList.last.map fun it => (tid, it)
    if (r.numInstsInROB = 0 → head = some (tid, it)) ∧ tail = some (tid, it) then
      some
        { threads := Function.update r.threads tid t
          numInstsInROB := r.numInstsInROB + 1
          head := head
          tail := tail }
    else none

/-- The instruction that is retired, for the CPU to remove, and the buffer without it. -/
def retireHead (tid : Fin numThreads) (r : ROB numThreads) :
    Option (DynInst numThreads × ROB numThreads) :=
  if r.numInstsInROB = 0 then none
  else
    (r.threads tid).retireHead.map fun (headInst, t) =>
      (headInst,
        updateHead cpu { r.setThread tid t with numInstsInROB := r.numInstsInROB - 1 })

/-- The buffer with the thread as a squash left it. -/
def putSquashed (tid : Fin numThreads) (r : ROB numThreads)
    (result : Thread numThreads × Bool) : ROB numThreads :=
  if result.2 then updateTail cpu (r.setThread tid result.1) else r.setThread tid result.1

def doSquash (cpu : CPU numThreads) (tid : Fin numThreads) (r : ROB numThreads) :
    Option (ROB numThreads) :=
  ((r.threads tid).doSquash (p.numInstsToSquash cpu tid)).map (r.putSquashed cpu tid)

def squash (cpu : CPU numThreads) (squashNum : ℕ) (tid : Fin numThreads)
    (r : ROB numThreads) : Option (ROB numThreads) :=
  ((r.threads tid).squash (p.numInstsToSquash cpu tid) squashNum).map (r.putSquashed cpu tid)

/-! ## Runs -/

/-- The calls of the buffer, and what the other stages do to its instructions. -/
inductive Action (numThreads : ℕ) where
  | insertInst (inst : DynInst numThreads)
  | retireHead (cpu : CPU numThreads) (tid : Fin numThreads)
  | squash (cpu : CPU numThreads) (squashNum : ℕ) (tid : Fin numThreads)
  | doSquash (cpu : CPU numThreads) (tid : Fin numThreads)
  | setCanCommit (tid : Fin numThreads) (it : ℕ)
  | setSquashed (tid : Fin numThreads) (it : ℕ)

def step (r : ROB numThreads) : Action numThreads → Option (ROB numThreads)
  | .insertInst inst => r.insertInst p inst
  | .retireHead cpu tid => (r.retireHead cpu tid).map Prod.snd
  | .squash cpu squashNum tid => r.squash p cpu squashNum tid
  | .doSquash cpu tid => r.doSquash p cpu tid
  | .setCanCommit tid it =>
    ((r.threads tid).update it DynInst.setCanCommit).map fun t => r.setThread tid t
  | .setSquashed tid it =>
    ((r.threads tid).update it DynInst.setSquashed).map fun t => r.setThread tid t

/-- The thread an action is about. -/
def Action.tid : Action numThreads → Fin numThreads
  | .insertInst inst => inst.threadNumber
  | .retireHead _ tid | .squash _ _ tid | .doSquash _ tid | .setCanCommit tid _
  | .setSquashed tid _ => tid

/-- How the pipeline uses the buffer: a thread's instructions come in the order of their
sequence numbers, and none is retired that a squash has yet to look at again.  (The commit
stage retires nothing of a thread that is squashing.) -/
def Thread.Allowed (t : Thread numThreads) : Action numThreads → Prop
  | .insertInst inst => ∀ other ∈ t.instList.items, other.seqNum < inst.seqNum
  | .retireHead _ _ => t.squashIt = none ∨ t.instList.first ≠ t.squashIt
  | _ => True

instance Thread.decidableAllowed (t : Thread numThreads) : DecidablePred t.Allowed
  | .insertInst inst =>
    inferInstanceAs (Decidable (∀ other ∈ t.instList.items, other.seqNum < inst.seqNum))
  | .retireHead _ _ =>
    inferInstanceAs (Decidable (t.squashIt = none ∨ t.instList.first ≠ t.squashIt))
  | .squash _ _ _ => isTrue trivial
  | .doSquash _ _ => isTrue trivial
  | .setCanCommit _ _ => isTrue trivial
  | .setSquashed _ _ => isTrue trivial

def Allowed (a : Action numThreads) : Prop := (r.threads a.tid).Allowed a

instance (r : ROB numThreads) : DecidablePred r.Allowed :=
  fun a => inferInstanceAs (Decidable ((r.threads a.tid).Allowed a))

end ROB
