/-
# The Huffman encoder

Model of the Huffman encoder of the frequent values compressor
(mem/cache/compressors/encoders/huffman.cc, huffman.hh).

The samples are put into a priority queue as leaves, and the two least frequent trees
are merged until there is one.  Which one of several trees of the same frequency is on
top is left open by `std::priority_queue`; `PriorityQueue` is any choice.
-/
import Mathlib.Data.List.MinMax
import Gem5.BitStrings

open List

namespace Huffman

/-! ## Trees -/

/-- `Node`; only leaves have a value. -/
inductive Node where
  | leaf (value frequency : BitVec 64)
  | parent (frequency : BitVec 64) (left right : Node)
  deriving DecidableEq

namespace Node

def getFrequency : Node → BitVec 64
  | leaf _ frequency => frequency
  | parent frequency _ _ => frequency

/-- `Node(left, right)` -/
def new (left right : Node) : Node := parent (left.getFrequency + right.getFrequency) left right

end Node

/-- `std::priority_queue` with `NodeComparator`: the top is a node of the least
frequency. -/
structure PriorityQueue where
  pop : List Node → Option (Node × List Node)
  pop_nil : pop [] = none
  pop_of_ne_nil : ∀ trees, trees ≠ [] → ∃ top rest, pop trees = some (top, rest) ∧
    trees.Perm (top :: rest) ∧ ∀ node ∈ trees, top.getFrequency ≤ node.getFrequency

/-- The first one of the least frequency. -/
def firstLeast : PriorityQueue where
  pop := fun trees =>
    (trees.argmin fun node => node.getFrequency.toNat).map fun top => (top, trees.erase top)
  pop_nil := rfl
  pop_of_ne_nil := by
    intro trees hne
    obtain ⟨top, htop⟩ := Option.ne_none_iff_exists'.mp
      (mt (List.argmin_eq_none (f := fun node => node.getFrequency.toNat)).mp hne)
    refine ⟨top, trees.erase top, ?_, ?_, ?_⟩
    · rw [htop]
      rfl
    · exact List.perm_cons_erase (List.argmin_mem htop)
    · intro node hnode
      have hle : top.getFrequency.toNat ≤ node.getFrequency.toNat :=
        List.le_of_mem_argmin (f := fun node : Node => node.getFrequency.toNat) hnode htop
      exact BitVec.le_def.mpr hle

/-! ## Codes -/

structure Code where
  code : BitVec 64
  length : ℕ

/-- The bits of a code, the first one is the highest. -/
def Code.bits (c : Code) : List Bool := (List.range c.length).reverse.map fun i => c.code.getLsbD i

/-- `valueToCode` and `codeToValue` -/
structure CodeMaps where
  valueToCode : BitVec 64 → Option Code
  codeToValue : BitVec 64 → Option (BitVec 64)

def CodeMaps.empty : CodeMaps := ⟨fun _ => none, fun _ => none⟩

def generateCodes (maxCodeLength : ℕ) : Node → Code → CodeMaps → CodeMaps
  | .leaf value _, current, maps =>
    -- too long a code is dropped
    if maxCodeLength < current.length then maps
    else
      { valueToCode := Function.update maps.valueToCode value (some current)
        codeToValue := Function.update maps.codeToValue current.code (some value) }
  | .parent _ left right, current, maps =>
    if maxCodeLength < current.length then maps
    else
      generateCodes maxCodeLength left ⟨current.code <<< 1, current.length + 1⟩
        (generateCodes maxCodeLength right ⟨(current.code <<< 1) + 1, current.length + 1⟩ maps)

/-! ## The encoder -/

/-- `Huffman`; the constructor fails if a code would not fit into its container. -/
structure Encoder where
  maxCodeLength : ℕ
  maxCodeLength_le : maxCodeLength ≤ 64
  trees : List Node
  maps : CodeMaps

/-- `Huffman(max_code_length)` -/
def Encoder.new (maxCodeLength : ℕ) (h : maxCodeLength ≤ 64) : Encoder :=
  ⟨maxCodeLength, h, [], .empty⟩

variable (e : Encoder)

def Encoder.sample (value frequency : BitVec 64) : Encoder :=
  if frequency ≠ 0 then { e with trees := e.trees ++ [.leaf value frequency] } else e

variable (samples : List (BitVec 64 × BitVec 64))

/-- An encoder that has seen samples, each a value and a frequency. -/
def Encoder.sampleAll : Encoder :=
  samples.foldl (fun e s => e.sample s.1 s.2) e

variable (q : PriorityQueue)

/-- The body of the loop of `buildTree`. -/
def mergeStep (trees : List Node) : Option (List Node) := do
  let (left, trees) ← q.pop trees
  let (right, trees) ← q.pop trees
  some (trees ++ [Node.new left right])

/-- The loop of `buildTree`: it ends when there are no two trees left. -/
def mergeAll (q : PriorityQueue) : ℕ → List Node → Option (List Node)
  | 0, trees => some trees
  | fuel + 1, trees =>
    if 1 < trees.length then (mergeStep q trees).bind (mergeAll q fuel) else some trees

/-- There is no root if nothing was sampled. -/
def buildTree (trees : List Node) : Option Node := do
  let trees ← mergeAll q trees.length trees
  let (root, _) ← q.pop trees
  some root

def Encoder.generateCodeMaps (e : Encoder) : Option Encoder :=
  (buildTree q e.trees).map fun root =>
    { e with trees := [], maps := generateCodes e.maxCodeLength root ⟨0, 0⟩ .empty }

/-- A value that is not known gets a code of an invalid length. -/
def Encoder.encode (val : BitVec 64) : Code :=
  (e.maps.valueToCode val).getD ⟨0, 65⟩

/-- A code that does not exist cannot be decoded. -/
def Encoder.decode (code : BitVec 64) : Option (BitVec 64) := e.maps.codeToValue code

/-! ## The tree is there -/

variable {trees : List Node} (q : PriorityQueue)

theorem mergeStep_eq (h : 1 < trees.length) :
    ∃ trees', mergeStep q trees = some trees' ∧ trees'.length + 1 = trees.length := by
  obtain ⟨left, rest, hleft, hperm, -⟩ := q.pop_of_ne_nil trees (ne_nil_of_length_pos (by omega))
  have hlen : trees.length = rest.length + 1 := hperm.length_eq
  obtain ⟨right, rest', hright, hperm', -⟩ := q.pop_of_ne_nil rest (ne_nil_of_length_pos (by omega))
  have hlen' : rest.length = rest'.length + 1 := hperm'.length_eq
  refine ⟨rest' ++ [Node.new left right], ?_, ?_⟩
  · simp [mergeStep, hleft, hright]
  · rw [length_append, length_singleton]
    omega

/-- Merging goes on until there is one tree. -/
theorem mergeAll_eq (fuel : ℕ) (hpos : 0 < trees.length)
    (hfuel : trees.length ≤ fuel + 1) : ∃ root, mergeAll q fuel trees = some [root] := by
  induction fuel generalizing trees with
  | zero =>
    obtain ⟨root, rfl⟩ := length_eq_one_iff.mp (by omega : trees.length = 1)
    exact ⟨root, rfl⟩
  | succ fuel ih =>
    rw [mergeAll]
    split_ifs with h
    · obtain ⟨trees', hstep, hlen⟩ := mergeStep_eq q h
      obtain ⟨root, hroot⟩ := @ih trees' (by omega) (by omega)
      refine ⟨root, ?_⟩
      rw [hstep]
      exact hroot
    · obtain ⟨root, rfl⟩ := length_eq_one_iff.mp (by omega : trees.length = 1)
      exact ⟨root, rfl⟩

theorem buildTree_eq (hne : trees ≠ []) : ∃ root, buildTree q trees = some root := by
  obtain ⟨root, hroot⟩ := mergeAll_eq q trees.length (length_pos_of_ne_nil hne) (by omega)
  obtain ⟨top, rest, hpop, -, -⟩ := q.pop_of_ne_nil [root] (cons_ne_nil _ _)
  refine ⟨top, ?_⟩
  simp [buildTree, hroot, hpop]

@[simp] theorem maxCodeLength_sample (value frequency : BitVec 64) :
    (e.sample value frequency).maxCodeLength = e.maxCodeLength := by
  rw [Encoder.sample]
  split_ifs <;> rfl

@[simp] theorem maxCodeLength_sampleAll :
    (e.sampleAll samples).maxCodeLength = e.maxCodeLength := by
  induction samples generalizing e with
  | nil => rfl
  | cons s samples ih => exact (ih _).trans (maxCodeLength_sample e s.1 s.2)

theorem trees_sampleAll : (e.sampleAll samples).trees =
      e.trees ++ (samples.filter fun s => s.2 ≠ 0).map fun s => .leaf s.1 s.2 := by
  induction samples generalizing e with
  | nil => exact (append_nil _).symm
  | cons s samples ih =>
    have hrest : (e.sampleAll (s :: samples)).trees = _ := ih (e.sample s.1 s.2)
    rw [hrest, filter_cons]
    simp only [Encoder.sample]
    split_ifs with h h' h'
    · rw [append_assoc]
      rfl
    · exact absurd (decide_eq_true h) h'
    · exact absurd (of_decide_eq_true h') h
    · rfl

end Huffman
