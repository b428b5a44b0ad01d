/-
# The trie

Model of `Trie` (base/trie.hh): a radix tree over the leading bits of keys of
`w = MaxBits` bits.  A node holds the masked key and the mask of its prefix, a
value (null marks an internal node), the pointer to its parent and its two
kids.  Nodes live in a `Store`; the member `head` has address 0.

Every operation returns `none` where the source panics, fails an assertion, or
dereferences a null or deleted node.  The loops go down the tree, or extend a
mask, by at least one bit an iteration, so `w + 1` is fuel enough.

Assigning to a `unique_ptr` deletes what it owned, which is modelled by `Store.free`.
-/
import Gem5.Store

abbrev Handle := ℕ

namespace Trie

/-- `Trie::Node`. -/
structure Node (w : ℕ) (α : Type) where
  key : BitVec w
  mask : BitVec w
  value : Option α
  parent : Option Handle
  kid0 : Option Handle
  kid1 : Option Handle
  deriving DecidableEq, Repr

variable {w : ℕ} {α : Type}

namespace Node

/-- The constructor of a node. -/
def make (key mask : BitVec w) (val : Option α) : Node w α :=
  { key := key &&& mask
    mask := mask
    value := val
    parent := none
    kid0 := none
    kid1 := none }

variable (n : Node w α)

/-- `matches`, a keyword here. -/
def matchesKey (test : BitVec w) : Bool := test &&& n.mask == n.key

/-- `kids[i]`; the index is `true` for one. -/
def kids : Bool → Option Handle
  | false => n.kid0
  | true => n.kid1

def setKid (i : Bool) (kid : Option Handle) : Node w α :=
  match i with
  | false => { n with kid0 := kid }
  | true => { n with kid1 := kid }

def setParent (parent : Option Handle) : Node w α := { n with parent := parent }

def setValue (value : Option α) : Node w α := { n with value := value }

/-- A lone second kid becomes the first one. -/
def promote : Node w α :=
  if n.kid1.isSome && n.kid0.isNone then { n with kid0 := n.kid1, kid1 := none } else n

end Node

end Trie

/-- The nodes of a trie. -/
abbrev Trie (w : ℕ) (α : Type) := Store (Trie.Node w α)

namespace Trie

variable {w : ℕ} {α : Type}

/-- The address of the member `head`. -/
def head : Handle := 0

/-- `Trie()`. -/
def new (w : ℕ) (α : Type) : Trie w α := ⟨[some (Node.make 0 0 none)]⟩

/-! ## Lookup -/

variable (t : Trie w α)

/-- A kid that exists and matches the key. -/
def matchingKid (kid : Option Handle) (key : BitVec w) : Option (Option Handle) :=
  match kid with
  | none => some none
  | some k => do
    let n ← t.read k
    some (if n.matchesKey key then some k else none)

/-- The loop of `lookupHandle`. -/
def lookupLoop (t : Trie w α) (key : BitVec w) : ℕ → Handle → Option (Option Handle)
  | 0, _ => none
  | fuel + 1, node => do
    let n ← t.read node
    if n.value.isSome then
      some (some node)
    else
      match ← t.matchingKid n.kid0 key with
      | some k => lookupLoop t key fuel k
      | none =>
        match ← t.matchingKid n.kid1 key with
        | some k => lookupLoop t key fuel k
        | none => some none

section

variable (key : BitVec w)

def lookupHandle : Option (Option Handle) :=
  t.lookupLoop key (w + 1) head

/-- `lookup`: the value found, null when there is none. -/
def lookup : Option (Option α) := do
  match ← t.lookupHandle key with
  | some h => do
    let n ← t.read h
    some n.value
  | none => some none

/-! ## Insertion -/

/-- `goesAfter`: the kid the walk advances to, if any. -/
def goesAfter (kid : Option Handle) (key newMask : BitVec w) : Option (Option Handle) :=
  match kid with
  | none => some none
  | some k => do
    let n ← t.read k
    some (if n.matchesKey key && (n.mask &&& newMask == n.mask) then some k else none)

/-- Walk past all the nodes the new node will be inserted after. -/
def walkLoop (t : Trie w α) (key newMask : BitVec w) : ℕ → Handle → Option Handle
  | 0, _ => none
  | fuel + 1, node => do
    let n ← t.read node
    match ← t.goesAfter n.kid0 key newMask with
    | some k => walkLoop t key newMask fuel k
    | none =>
      match ← t.goesAfter n.kid1 key newMask with
      | some k => walkLoop t key newMask fuel k
      | none => some node

/-- One more bit towards the lsb. -/
def extendMask (orig : BitVec w) : BitVec w := orig ||| (orig >>> 1) ||| BitVec.twoPow w (w - 1)

/-- Walk down the leg until something doesn't match or we run out of bits;
the result is `last_mask`. -/
def legLoop (key kidKey newMask : BitVec w) : ℕ → BitVec w → Option (BitVec w)
  | 0, _ => none
  | fuel + 1, lastMask =>
    let curMask := extendMask lastMask
    if (key &&& curMask != kidKey &&& curMask) || lastMask == newMask then
      some lastMask
    else
      legLoop key kidKey newMask fuel curMask

/-- Add a new node with the value as a kid. -/
def addLeaf (node : Handle) (i : Bool) (key newMask : BitVec w) (val : α) :
    Option (Handle × Trie w α) := do
  let (t, newNode) := t.alloc ((Node.make key newMask (some val)).setParent (some node))
  let t ← t.modify node fun n => n.setKid i (some newNode)
  some (newNode, t)

/-- At the point we walked to, add a new node above the kid. -/
def splitLeg (node : Handle) (i : Bool) (kid : Handle) (key curMask : BitVec w) :
    Option (Handle × Trie w α) := do
  let (t, newNode) := t.alloc ((Node.make key curMask none).setParent (some node))
  let t ← t.modify kid fun k => k.setParent (some newNode)
  let t ← t.modify newNode fun m => m.setKid false (some kid)
  let t ← t.modify node fun n => n.setKid i (some newNode)
  some (newNode, t)

/-- One iteration of the loop over the kids: either the node is placed, or this
is not the right leg and the loop goes on with the mask. -/
def insertLeg (node : Handle) (i : Bool) (key newMask : BitVec w) (val : α)
    (curMask : BitVec w) : Option (BitVec w ⊕ (Handle × Trie w α)) := do
  let n ← t.read node
  match n.kids i with
  | none => do
    -- no kid: add a new one
    let placed ← t.addLeaf node i key newMask val
    some (.inr placed)
  | some kid => do
    let k ← t.read kid
    let curMask ← legLoop key k.key newMask (w + 1) curMask
    if curMask == n.mask then
      some (.inl curMask)
    else do
      let (newNode, t) ← t.splitLeg node i kid key curMask
      if curMask == newMask then do
        -- we ran out of bits: the value goes right here
        let t ← t.modify newNode fun m => m.setValue (some val)
        some (.inr (newNode, t))
      else do
        -- still more bits to deal with
        let placed ← t.addLeaf newNode true key newMask val
        some (.inr placed)

/-- The mask of the first `width` bits, as `insert` builds it. -/
def prefixMask (w width : ℕ) : BitVec w :=
  if width < w then BitVec.allOnes w <<< (w - width) else BitVec.allOnes w

def insert (width : ℕ) (val : α) : Option (Handle × Trie w α) := do
  let newMask := prefixMask w width
  let key := key &&& newMask
  let node ← t.walkLoop key newMask (w + 1) head
  let n ← t.read node
  if n.mask == newMask then
    -- already where the value needs to be
    if n.value.isSome then none
    else do
      let t ← t.modify node fun n => n.setValue (some val)
      some (node, t)
  else
    match ← t.insertLeg node false key newMask val n.mask with
    | .inr placed => some placed
    | .inl curMask =>
      match ← t.insertLeg node true key newMask val curMask with
      | .inr placed => some placed
      | .inl _ => none

/-! ## Removal -/

/-- Replace `node` by its kid in its parent, which deletes `node`. -/
def unlink (parent node : Handle) (kid : Option Handle) : Option (Trie w α) := do
  let p ← t.read parent
  if p.kid0 = some node then do
    let t ← t.modify parent fun p => p.setKid false kid
    some (t.free node)
  else if p.kid1 = some node then do
    let t ← t.modify parent fun p => p.setKid true kid
    some (t.free node)
  else none

/-- Make sure if the parent only has one kid, it's `kid[0]`. -/
def promote (parent : Handle) : Option (Trie w α) :=
  t.modify parent Node.promote

/-- Fix up the parent pointer of the kid, if there is one. -/
def reparent (kid : Option Handle) (parent : Handle) : Option (Trie w α) :=
  match kid with
  | none => some t
  | some k => t.modify k fun k => k.setParent (some parent)

/-- `remove(handle)`: the value of the node and the trie without it.  The
source recurses into the parent. -/
def removeLoop : ℕ → Trie w α → Handle → Option (Option α × Trie w α)
  | 0, _, _ => none
  | fuel + 1, t, node => do
    let n ← t.read node
    if n.kid1.isSome then
      if n.value.isSome then do
        let t ← t.modify node fun n => n.setValue none
        some (n.value, t)
      else none
    else do
      let parent ← n.parent
      let t ← t.reparent n.kid0 parent
      let t ← t.unlink parent node n.kid0
      let t ← t.promote parent
      let p ← t.read parent
      if p.kid1.isNone && p.value.isNone && p.parent.isSome then do
        let (_, t) ← removeLoop fuel t parent
        some (n.value, t)
      else
        some (n.value, t)

def remove (handle : Handle) : Option (Option α × Trie w α) :=
  removeLoop (w + 1) t handle

/-- `remove(key)`. -/
def removeKey : Option (Option α × Trie w α) := do
  match ← t.lookupHandle key with
  | none => some (none, t)
  | some handle => t.remove handle

end

/-- The destructor of an owned node: it deletes the kids it owns. -/
def destroy : ℕ → Trie w α → Option Handle → Option (Trie w α)
  | _, t, none => some t
  | 0, _, some _ => none
  | fuel + 1, t, some node => do
    let n ← t.read node
    let t ← destroy fuel t n.kid1
    let t ← destroy fuel t n.kid0
    some (t.free node)

/-- Take the kid away from the head and delete it. -/
def resetKid (i : Bool) : Option (Trie w α) := do
  let n ← t.read head
  let t ← t.modify head fun n => n.setKid i none
  destroy (w + 1) t (n.kids i)

def clear : Option (Trie w α) := do
  let t ← t.resetKid true
  t.resetKid false

end Trie
