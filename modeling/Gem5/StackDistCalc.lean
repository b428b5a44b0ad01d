/-
# The stack distance calculator

Model of `StackDistCalc` (mem/stack_dist_calc.hh, stack_dist_calc.cc): a
binary tree of partial sums over the order of insertion that grows with the
index counter and discards subtrees that are used up, and the naive stack that
checks it when `verifyStack` is set.

A node is named by its layer and its index in that layer, and a `Node*` by the
index of the node it points to, one layer up.  Reading a node that is not in the
tree is the panic `nullNode`: in the source a null or dangling pointer.  Sums stay
below the number of insertions and are natural numbers here.
-/
import Gem5.Bitfield

open Function

namespace StackDist

/-- What stops the calculator. -/
inductive Panic where
  | nullNode (level index : ℕ)
  | sumLeft (level nodeIndex sum : ℕ)
  | sumRight (level nodeIndex sum : ℕ)
  | sanityCheck (nodeIndex : ℕ)
  | stackDist (addr : Addr) (expected found : ℕ)
  deriving DecidableEq, Repr

/-- `StackDistCalc::Infinity`. -/
def Infinity : ℕ := 2 ^ 64 - 1

/-- `1 << i` in the source: a 32-bit integer, then converted to 64 bits. -/
def intShl (i : ℕ) : ℕ := (((1 : BitVec 32) <<< i).signExtend 64).toNat

structure Node where
  sumLeft : ℕ
  sumRight : ℕ
  discardLeft : Bool
  discardRight : Bool
  nodeIndex : ℕ
  parent : Option ℕ
  isLeftNode : Bool
  isMarked : Bool
  deriving DecidableEq, Repr

/-- `new Node()`. -/
def Node.new : Node where
  sumLeft := 0
  sumRight := 0
  discardLeft := false
  discardRight := false
  nodeIndex := 0
  parent := none
  isLeftNode := true
  isMarked := false

/-- The new sums and discard flags of a node in `updateSum`. -/
def Node.update (nd : Node) (fromLeft : Bool) (sumFromBelow : ℕ) (discardNode : Bool) : Node :=
  { nd with
    sumLeft := if fromLeft then sumFromBelow else nd.sumLeft
    sumRight := if fromLeft then nd.sumRight else sumFromBelow
    discardLeft := nd.discardLeft || (discardNode && sumFromBelow == 0 && fromLeft)
    discardRight := nd.discardRight || (discardNode && sumFromBelow == 0 && !fromLeft) }

/-- A layered tree of nodes. -/
abbrev Tree := ℕ → ℕ → Option Node

def Tree.set (t : Tree) (level k : ℕ) (nd : Option Node) : Tree :=
  update t level (update (t level) k nd)

structure StackDistCalc where
  index : ℕ
  /-- `tree.size()`. -/
  treeSize : ℕ
  tree : Tree
  aiMap : Addr → Option ℕ
  nextIndex : ℕ → ℕ
  /-- The debug stack; the list has the top of the stack first. -/
  stack : List Addr
  verifyStack : Bool

namespace StackDistCalc

/-- The constructor: an empty layer of leaves and a root above it. -/
def init (verifyStack : Bool) : StackDistCalc where
  index := 0
  treeSize := 2
  tree := Tree.set (fun _ _ => none) 1 0 (some Node.new)
  aiMap := fun _ => none
  nextIndex := update (fun _ => 0) 1 1
  stack := []
  verifyStack := verifyStack

variable (c : StackDistCalc)

def getTreeDepth : ℕ := c.treeSize - 1

def getNode (level k : ℕ) : Except Panic Node :=
  match c.tree level k with
  | some nd => .ok nd
  | none => .error (.nullNode level k)

def setNode (level k : ℕ) (nd : Option Node) : StackDistCalc :=
  { c with tree := c.tree.set level k nd }

/-! ## Sums along the way to the root -/

/-- The sanity check of `updateSum`: a sum is at most the number of leaves
below it. -/
def checkSums (level : ℕ) (nd : Node) : Except Panic Unit :=
  if !c.verifyStack then .ok ()
  else if intShl (level - 1) < nd.sumLeft then .error (.sumLeft level nd.nodeIndex nd.sumLeft)
  else if intShl (level - 1) < nd.sumRight then .error (.sumRight level nd.nodeIndex nd.sumRight)
  else .ok ()

/-- `updateSum`, with the number of layers still above as fuel. -/
def updateSum : ℕ → StackDistCalc → ℕ → Bool → ℕ → ℕ → ℕ → Bool →
    Except Panic (ℕ × StackDistCalc)
  | 0, _, node, _, _, level, _, _ => .error (.nullNode (level + 1) node)
  | layers + 1, c, node, fromLeft, sumFromBelow, level, stackDist, discardNode => do
    let nd ← c.getNode (level + 1) node
    c.checkSums (level + 1) nd
    let nd' := nd.update fromLeft sumFromBelow discardNode
    -- delete the node if it is not required anymore
    let discard := nd'.discardLeft && nd'.discardRight && discardNode && nd.parent.isSome &&
      sumFromBelow == 0
    let c := if discard then c.setNode (level + 1) nd.nodeIndex none
      else c.setNode (level + 1) node (some nd')
    let stackDist := if fromLeft then stackDist + nd.sumRight else stackDist
    match nd.parent with
    | some parent =>
      updateSum layers c parent nd.isLeftNode (nd'.sumLeft + nd'.sumRight) (level + 1)
        stackDist discard
    | none => .ok (stackDist, c)

variable (k : ℕ)

/-- The parent of a leaf, which is followed without a check for null. -/
def leafParent (leaf : Node) : Except Panic ℕ :=
  match leaf.parent with
  | some parent => .ok parent
  | none => .error (.nullNode 1 k)

/-- `updateSumsLeavesToRoot`. -/
def updateSumsLeavesToRoot (isNewLeaf : Bool) : Except Panic (ℕ × StackDistCalc) := do
  let leaf ← c.getNode 0 k
  let parent ← leafParent k leaf
  if isNewLeaf then
    let c := c.setNode 0 k (some { leaf with sumLeft := 1 })
    let (_, c) ← c.updateSum c.getTreeDepth parent leaf.isLeftNode 1 0 0 false
    return (Infinity, c)
  else
    let c := c.setNode 0 k (some { leaf with sumLeft := 0 })
    c.updateSum c.getTreeDepth parent leaf.isLeftNode 0 0 0 true

/-- `getSum`; the argument `sum_from_below`, which the source hands on but
never reads, is left out. -/
def getSum (c : StackDistCalc) : ℕ → ℕ → Bool → ℕ → ℕ → Except Panic ℕ
  | 0, node, _, _, level => .error (.nullNode (level + 1) node)
  | layers + 1, node, fromLeft, stackDist, level => do
    let nd ← c.getNode (level + 1) node
    let stackDist := if fromLeft then stackDist + nd.sumRight else stackDist
    match nd.parent with
    | some parent => c.getSum layers parent nd.isLeftNode stackDist (level + 1)
    | none => .ok stackDist

/-- `getSumsLeavesToRoot`. -/
def getSumsLeavesToRoot : Except Panic ℕ := do
  let leaf ← c.getNode 0 k
  let parent ← leafParent k leaf
  c.getSum c.getTreeDepth parent leaf.isLeftNode 0 0

/-! ## Growing the tree -/

/-- A new intermediate node at the end of a layer, linked to the last node of
the layer above. -/
def addINode (i : ℕ) : Except Panic StackDistCalc := do
  let parent := c.nextIndex (i + 1) - 1
  let _ ← c.getNode (i + 1) parent
  let newINode : Node :=
    { Node.new with
      isLeftNode := c.nextIndex i % 2 == 0
      parent := some parent
      nodeIndex := c.nextIndex i }
  return { c.setNode i (c.nextIndex i) (some newINode) with
    nextIndex := update c.nextIndex i (c.nextIndex i + 1) }

/-- The body of the loops of `updateTree`: a node for every layer, or only for
a layer whose width divides the index. -/
def addINodeIf (all : Bool) (c : StackDistCalc) (i : ℕ) : Except Panic StackDistCalc :=
  if all || c.index % intShl i == 0 then c.addINode i else .ok c

/-- The loops of `updateTree` that add intermediate nodes from layer `i` down
to layer one. -/
def addINodes (all : Bool) (c : StackDistCalc) : ℕ → Except Panic StackDistCalc
  | 0 => .ok c
  | i + 1 => do
    let c ← c.addINodeIf all (i + 1)
    c.addINodes all i

/-- The new root that `updateTree` puts above the old one. -/
def addRoot : Except Panic StackDistCalc := do
  let depth := c.getTreeDepth
  let oldRoot ← c.getNode depth 0
  let newRootNode : Node :=
    { Node.new with
      sumLeft := oldRoot.sumRight + oldRoot.sumLeft
      discardLeft := oldRoot.discardLeft && oldRoot.discardRight }
  return { c with
    treeSize := c.treeSize + 1
    tree := update (c.tree.set depth 0 (some { oldRoot with parent := some 0 }))
      (depth + 1) (update (fun _ => none) 0 (some newRootNode))
    nextIndex := update c.nextIndex (depth + 1) 1 }

/-- `updateTree`. -/
def updateTree : Except Panic StackDistCalc := do
  if isPowerOf2 c.index then
    let c ← c.addRoot
    c.addINodes true (c.getTreeDepth - 1)
  else c.addINodes false (c.getTreeDepth - 1)

/-! ## Checking -/

/-- The loop of `sanityCheckTree`: follow the parent pointer so many times. -/
def parentsUp (c : StackDistCalc) (leaf : ℕ) : ℕ → ℕ × ℕ → Except Panic (ℕ × ℕ)
  | 0, pos => .ok pos
  | n + 1, pos => do
    let nd ← c.getNode pos.1 pos.2
    match nd.parent with
    | some parent => c.parentsUp leaf n (pos.1 + 1, parent)
    | none => .error (.sanityCheck leaf)

/-- `sanityCheckTree`, for a leaf. -/
def sanityCheckTree : Except Panic Unit := do
  let leaf ← c.getNode 0 k
  let parent ← leafParent k leaf
  let (level, top) ← c.parentsUp k (c.getTreeDepth - 1) (1, parent)
  let nd ← c.getNode level top
  if nd.parent.isSome then .error (.sanityCheck k) else .ok ()

/-- The scan of `verifyStackDist` from the top of the stack. -/
def scanStack (addr : Addr) : List Addr → ℕ → Option ℕ
  | [], _ => none
  | a :: rest, stackDist => if a = addr then some stackDist else scanStack addr rest (stackDist + 1)

variable (addr : Addr)

/-- `verifyStackDist`. -/
def verifyStackDist (updateStack : Bool) : ℕ × StackDistCalc :=
  let stackDist := (scanStack addr c.stack 0).getD Infinity
  (stackDist,
    if updateStack then { c with stack := addr :: c.stack.erase addr } else c)

/-- The comparison that follows `verifyStackDist`. -/
def compareStackDist (updateStack : Bool) (stackDist : ℕ) : Except Panic StackDistCalc :=
  let (verifyDist, c) := c.verifyStackDist addr updateStack
  if verifyDist ≠ stackDist then .error (.stackDist addr verifyDist stackDist) else .ok c

/-! ## The interface -/

/-- The leaf of an address seen before is taken out of the tree. -/
def removeLeaf : Except Panic ((ℕ × Bool) × StackDistCalc) := do
  let (stackDist, c) ← c.updateSumsLeavesToRoot k false
  let leaf ← c.getNode 0 k
  return ((stackDist, leaf.isMarked), c.setNode 0 k none)

/-- The lookup in `calcStackDistAndUpdate`. -/
def lookupAndRemove (addNewNode : Bool) : Except Panic ((ℕ × Bool) × StackDistCalc) :=
  match c.aiMap addr with
  | some k =>
    removeLeaf { c with
      aiMap := update c.aiMap addr (if addNewNode then some c.index else none) } k
  | none => .ok ((Infinity, false),
      if addNewNode then { c with aiMap := update c.aiMap addr (some c.index) } else c)

/-- The tree is extended at every other index. -/
def extendTree : Except Panic StackDistCalc :=
  if c.index % 2 = 0 then c.updateTree else .ok c

/-- A new leaf at the current index. -/
def addLeaf : Except Panic StackDistCalc := do
  let c ← c.extendTree
  let parent := c.nextIndex 1 - 1
  let _ ← c.getNode 1 parent
  let newLeafNode : Node :=
    { Node.new with
      nodeIndex := c.index
      isLeftNode := c.index % 2 == 0
      parent := some parent }
  let c := { c.setNode 0 c.index (some newLeafNode) with
    nextIndex := update c.nextIndex 0 (c.nextIndex 0 + 1) }
  let (_, c) ← c.updateSumsLeavesToRoot c.index true
  return c

/-- The checks after a new leaf. -/
def verifyUpdate (stackDist : ℕ) : Except Panic StackDistCalc :=
  if c.verifyStack then do
    c.sanityCheckTree c.index
    c.compareStackDist addr true stackDist
  else .ok c

/-- `calcStackDistAndUpdate`. -/
def calcStackDistAndUpdate (addNewNode : Bool) : Except Panic ((ℕ × Bool) × StackDistCalc) := do
  let ((stackDist, mark), c) ← c.lookupAndRemove addr addNewNode
  if addNewNode then
    let c ← c.addLeaf
    let c ← c.verifyUpdate addr stackDist
    return ((stackDist, mark), { c with index := c.index + 1 })
  else
    return ((stackDist, mark), c)

/-- The lookup in `calcStackDist`. -/
def lookupAndMark (mark : Bool) : Except Panic ((ℕ × Bool) × StackDistCalc) :=
  match c.aiMap addr with
  | some k => do
    let leaf ← c.getNode 0 k
    let c := c.setNode 0 k (some { leaf with isMarked := mark })
    let stackDist ← c.getSumsLeavesToRoot k
    return ((stackDist, leaf.isMarked), c)
  | none => .ok ((Infinity, false), c)

/-- The check after a lookup. -/
def verifyLookup (stackDist : ℕ) : Except Panic StackDistCalc :=
  if c.verifyStack then c.compareStackDist addr false stackDist else .ok c

/-- `calcStackDist`. -/
def calcStackDist (mark : Bool) : Except Panic ((ℕ × Bool) × StackDistCalc) := do
  let ((stackDist, wasMarked), c) ← c.lookupAndMark addr mark
  let c ← c.verifyLookup addr stackDist
  return ((stackDist, wasMarked), c)

end StackDistCalc

/-! ## Sequences of calls -/

inductive Call where
  | calcStackDistAndUpdate (addr : Addr) (addNewNode : Bool)
  | calcStackDist (addr : Addr) (mark : Bool)
  deriving DecidableEq, Repr

def StackDistCalc.call (c : StackDistCalc) : Call → Except Panic ((ℕ × Bool) × StackDistCalc)
  | .calcStackDistAndUpdate addr addNewNode => c.calcStackDistAndUpdate addr addNewNode
  | .calcStackDist addr mark => c.calcStackDist addr mark

/-- What a sequence of calls returns, and the panic that ends it, if any. -/
def StackDistCalc.run (c : StackDistCalc) : List Call → List (ℕ × Bool) × Option Panic
  | [] => ([], none)
  | x :: xs =>
    match c.call x with
    | .error e => ([], some e)
    | .ok (out, c) => (out :: (c.run xs).1, (c.run xs).2)

end StackDist
