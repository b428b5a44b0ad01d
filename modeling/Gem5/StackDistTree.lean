/-
# The partial sums are right

The invariant of the calculator's tree.  Node `k` of layer `i + 1` stands for
the dyadic block `(i + 1, k)` of insertion indices: its sums count the live
indices in its halves, a discard flag says that the half is spent, and a node
that has been given out and is not in the tree any more stands for a spent
block (`NodeOk`, `LevelOk`).

A live index is in no spent block, and neither is the next index to be given
out, so every node that a pass from a leaf to the root looks up is still there.
-/
import Gem5.Dyadic
import Gem5.StackDistCalc

open Function
open Dyadic

namespace StackDist

open StackDistCalc

variable {D N N' m i k x : ℕ} {L L' : Finset ℕ} {t t' : Tree} {nd : Node} {c : StackDistCalc}
  {discard : Bool} {leaf : Node} {layers : ℕ}

theorem ok_bind {ε α β : Type} (a : α) (f : α → Except ε β) : (Except.ok a >>= f) = f a := rfl

/-- Up to 30, shifting a 32-bit integer is a power of two. -/
theorem intShl_eq (hi : i < 31) : intShl i = 2 ^ i := by
  interval_cases i <;> rfl

/-! ## Trees -/

@[simp] theorem Tree.set_same (t : Tree) (l k : ℕ) (v : Option Node) :
    t.set l k v l = update (t l) k v := by
  simp [Tree.set]

theorem Tree.set_ne (t : Tree) {l l' : ℕ} (k : ℕ) (v : Option Node) (h : l' ≠ l) :
    t.set l k v l' = t l' := by
  simp [Tree.set, h]

@[simp] theorem setNode_tree (c : StackDistCalc) (l k : ℕ) (v : Option Node) :
    (c.setNode l k v).tree = c.tree.set l k v := rfl

/-- What a node says about the live indices `L` among the first `N`, in a tree
of depth `D`. -/
structure NodeOk (D N : ℕ) (L : Finset ℕ) (i k : ℕ) (nd : Node) : Prop where
  nodeIndex : nd.nodeIndex = k
  isLeft : nd.isLeftNode = (k % 2 == 0)
  parent : nd.parent = if i + 1 = D then none else some (k / 2)
  sumLeft : nd.sumLeft = count L i (2 * k)
  sumRight : nd.sumRight = count L i (2 * k + 1)
  discardLeft : nd.discardLeft = true → Spent L N i (2 * k)
  discardRight : nd.discardRight = true → Spent L N i (2 * k + 1)

/-- A leaf. -/
structure LeafOk (k : ℕ) (nd : Node) : Prop where
  isLeft : nd.isLeftNode = (k % 2 == 0)
  parent : nd.parent = some (k / 2)

/-- Layer `i + 1` of the tree, with the nodes given out up to index `m`. -/
structure LevelOk (t : Tree) (D N m : ℕ) (L : Finset ℕ) (i : ℕ) : Prop where
  ok : ∀ k nd, t (i + 1) k = some nd → k ≤ m / 2 ^ (i + 1) ∧ NodeOk D N L i k nd
  spent : ∀ k, k ≤ m / 2 ^ (i + 1) → t (i + 1) k = none → Spent L N (i + 1) k

theorem LevelOk.frame (h : LevelOk t D N m L i) (ht : t' (i + 1) = t (i + 1)) :
    LevelOk t' D N m L i :=
  ⟨fun k nd hk => h.ok k nd (ht ▸ hk), fun k hk hn => h.spent k hk (ht ▸ hn)⟩

/-- A block that is not spent has its node. -/
theorem LevelOk.exists_node (h : LevelOk t D N m L i) (hx : x ≤ m)
    (hs : ¬ Spent L N (i + 1) (x / 2 ^ (i + 1))) :
    ∃ nd, t (i + 1) (x / 2 ^ (i + 1)) = some nd ∧ NodeOk D N L i (x / 2 ^ (i + 1)) nd := by
  cases hnd : t (i + 1) (x / 2 ^ (i + 1)) with
  | none => exact absurd (h.spent _ (Nat.div_le_div_right hx) hnd) hs
  | some nd => exact ⟨nd, rfl, (h.ok _ _ hnd).2⟩

/-! ## Changing one index -/

/-- The set of live indices changes at `x`, which is in no spent block. -/
structure Change (L L' : Finset ℕ) (N N' x : ℕ) : Prop where
  same : ∀ j, j ≠ x → (j ∈ L ↔ j ∈ L')
  mono : ∀ i k, Spent L N i k → Spent L' N' i k
  path : ∀ i, ¬ Spent L N i (x / 2 ^ i)

theorem Change.erase (hx : x ∈ L) : Change L (L.erase x) N N x where
  same j hj := by simp [hj]
  mono i k h := h.erase x
  path i := not_spent_of_mem hx i

theorem Change.insert (L : Finset ℕ) (N : ℕ) : Change L (insert N L) N (N + 1) N where
  same j hj := by simp [hj]
  mono i k h := h.insert
  path i := not_spent_next L N i

/-- Nodes off the path to `x` keep their meaning. -/
theorem NodeOk.off (h : NodeOk D N L i k nd) (hc : Change L L' N N' x)
    (hk : k ≠ x / 2 ^ (i + 1)) : NodeOk D N' L' i k nd := by
  rw [div_pow_succ] at hk
  have hl : count L i (2 * k) = count L' i (2 * k) := count_congr hc.same (by omega)
  have hr : count L i (2 * k + 1) = count L' i (2 * k + 1) := count_congr hc.same (by omega)
  exact
    { nodeIndex := h.nodeIndex
      isLeft := h.isLeft
      parent := h.parent
      sumLeft := by rw [h.sumLeft, hl]
      sumRight := by rw [h.sumRight, hr]
      discardLeft := fun hd => hc.mono _ _ (h.discardLeft hd)
      discardRight := fun hd => hc.mono _ _ (h.discardRight hd) }

/-- The node on the path takes the new count of the half that `x` is in. -/
theorem NodeOk.update (h : NodeOk D N L i (x / 2 ^ (i + 1)) nd) (hc : Change L L' N N' x)
    (hd : discard = true → Spent L' N' i (x / 2 ^ i)) : NodeOk D N' L' i (x / 2 ^ (i + 1))
      (nd.update (x / 2 ^ i % 2 == 0) (count L' i (x / 2 ^ i)) discard) := by
  have hhalf := div_pow_succ x i
  rcases Nat.mod_two_eq_zero_or_one (x / 2 ^ i) with heven | hodd
  · -- from the left
    have hq : x / 2 ^ i = 2 * (x / 2 ^ (i + 1)) := by omega
    have hr : count L i (2 * (x / 2 ^ (i + 1)) + 1) = count L' i (2 * (x / 2 ^ (i + 1)) + 1) :=
      count_congr hc.same (by omega)
    constructor
    · exact h.nodeIndex
    · exact h.isLeft
    · exact h.parent
    · simp [Node.update, heven, ← hq]
    · simp [Node.update, heven, h.sumRight, hr]
    · intro hdl
      simp only [Node.update, Bool.or_eq_true, Bool.and_eq_true] at hdl
      rcases hdl with hdl | ⟨⟨hdl, -⟩, -⟩
      · exact hc.mono _ _ (h.discardLeft hdl)
      · rw [← hq]
        exact hd hdl
    · intro hdr
      simp only [Node.update, heven, beq_self_eq_true, Bool.not_true, Bool.and_false,
        Bool.or_false] at hdr
      exact hc.mono _ _ (h.discardRight hdr)
  · -- from the right
    have hq : x / 2 ^ i = 2 * (x / 2 ^ (i + 1)) + 1 := by omega
    have hl : count L i (2 * (x / 2 ^ (i + 1))) = count L' i (2 * (x / 2 ^ (i + 1))) :=
      count_congr hc.same (by omega)
    constructor
    · exact h.nodeIndex
    · exact h.isLeft
    · exact h.parent
    · simp [Node.update, hodd, h.sumLeft, hl]
    · simp [Node.update, hodd, ← hq]
    · intro hdl
      simp only [Node.update, hodd, Nat.reduceBEq, Bool.and_false, Bool.or_false] at hdl
      exact hc.mono _ _ (h.discardLeft hdl)
    · intro hdr
      simp only [Node.update, Bool.or_eq_true, Bool.and_eq_true] at hdr
      rcases hdr with hdr | ⟨⟨hdr, -⟩, -⟩
      · exact hc.mono _ _ (h.discardRight hdr)
      · rw [← hq]
        exact hd hdr

/-- Replacing the node on the path turns a layer into one for the new set. -/
theorem LevelOk.replace (h : LevelOk t D N m L i) (hc : Change L L' N N' x) (hx : x ≤ m)
    {v : Option Node} (hv : ∀ nd, v = some nd → NodeOk D N' L' i (x / 2 ^ (i + 1)) nd)
    (hnone : v = none → Spent L' N' (i + 1) (x / 2 ^ (i + 1))) :
    LevelOk (t.set (i + 1) (x / 2 ^ (i + 1)) v) D N' m L' i := by
  constructor
  · intro k nd hk
    rw [Tree.set_same] at hk
    by_cases hkx : k = x / 2 ^ (i + 1)
    · subst hkx
      rw [update_self] at hk
      exact ⟨Nat.div_le_div_right hx, hv nd hk⟩
    · rw [update_of_ne hkx] at hk
      obtain ⟨hle, hok⟩ := h.ok k nd hk
      exact ⟨hle, hok.off hc hkx⟩
  · intro k hle hk
    rw [Tree.set_same] at hk
    by_cases hkx : k = x / 2 ^ (i + 1)
    · subst hkx
      rw [update_self] at hk
      exact hnone hk
    · rw [update_of_ne hkx] at hk
      exact hc.mono _ _ (h.spent k hle hk)

/-! ## Passes to the root -/

theorem getNode_eq {l : ℕ} (h : c.tree l k = some nd) : c.getNode l k = .ok nd := by
  simp [getNode, h]

/-- The sanity check of the sums never fires. -/
theorem checkSums_ok (h : NodeOk D N L i k nd) (hi : c.verifyStack = true → i < 31) :
    c.checkSums (i + 1) nd = .ok () := by
  unfold checkSums
  cases hv : c.verifyStack with
  | false => rfl
  | true =>
    have hl : nd.sumLeft ≤ 2 ^ i := h.sumLeft ▸ count_le L i _
    have hr : nd.sumRight ≤ 2 ^ i := h.sumRight ▸ count_le L i _
    rw [Nat.add_sub_cancel, intShl_eq (hi hv)]
    simp [Nat.not_lt.mpr hl, Nat.not_lt.mpr hr]

/-- Coming from the left adds the right half to the distance. -/
theorem NodeOk.dist (h : NodeOk D N L i (x / 2 ^ (i + 1)) nd) :
    (if (x / 2 ^ i % 2 == 0) = true then above L x i + nd.sumRight else above L x i)
      = above L x (i + 1) := by
  have hhalf := div_pow_succ x i
  rw [above_succ, h.sumRight]
  by_cases heven : x / 2 ^ i % 2 = 0
  · have hq : 2 * (x / 2 ^ (i + 1)) + 1 = x / 2 ^ i + 1 := by omega
    simp [heven, hq]
  · simp [heven]

/-- One node of the pass: it is replaced or, below the root, deleted, which turns its layer
into one for the new set, and the pass goes on to its parent, if it has one. -/
theorem updateSum_step (hc : Change L L' N N' x) (hx : x ≤ m) (layers : ℕ)
    (hv : c.verifyStack = true → i < 31) (hlevel : LevelOk c.tree D N m L i)
    (hd : discard = true → Spent L' N' i (x / 2 ^ i)) :
    ∃ v delete, LevelOk (c.tree.set (i + 1) (x / 2 ^ (i + 1)) v) D N' m L' i ∧
      (delete = true → Spent L' N' (i + 1) (x / 2 ^ (i + 1))) ∧ (i + 1 = D → v.isSome = true) ∧
      c.updateSum (layers + 1) (x / 2 ^ (i + 1)) (x / 2 ^ i % 2 == 0) (count L' i (x / 2 ^ i)) i
          (above L x i) discard =
        if i + 1 = D then .ok (above L x (i + 1), c.setNode (i + 1) (x / 2 ^ (i + 1)) v)
        else (c.setNode (i + 1) (x / 2 ^ (i + 1)) v).updateSum layers (x / 2 ^ (i + 1 + 1))
          (x / 2 ^ (i + 1) % 2 == 0) (count L' (i + 1) (x / 2 ^ (i + 1))) (i + 1)
          (above L x (i + 1)) delete := by
  obtain ⟨nd, hnd, hok⟩ := hlevel.exists_node hx (hc.path (i + 1))
  have hok' := hok.update hc hd
  set nd' := nd.update (x / 2 ^ i % 2 == 0) (count L' i (x / 2 ^ i)) discard with hnd'
  set delete := nd'.discardLeft && nd'.discardRight && discard && nd.parent.isSome &&
    count L' i (x / 2 ^ i) == 0 with hdelete
  have hflags : delete = true → nd'.discardLeft = true ∧ nd'.discardRight = true ∧
      nd.parent.isSome = true := by
    rw [hdelete]
    simp only [Bool.and_eq_true]
    tauto
  have hspent : delete = true → Spent L' N' (i + 1) (x / 2 ^ (i + 1)) := fun h =>
    (hok'.discardLeft (hflags h).1).join (hok'.discardRight (hflags h).2.1)
  have hsum : nd'.sumLeft + nd'.sumRight = count L' (i + 1) (x / 2 ^ (i + 1)) := by
    rw [hok'.sumLeft, hok'.sumRight, count_succ]
  -- either way one entry of layer `i + 1` is replaced
  have hset : (if delete = true then c.setNode (i + 1) nd.nodeIndex none
      else c.setNode (i + 1) (x / 2 ^ (i + 1)) (some nd'))
      = c.setNode (i + 1) (x / 2 ^ (i + 1)) (if delete = true then none else some nd') := by
    rw [hok.nodeIndex]
    split <;> rfl
  refine ⟨if delete = true then none else some nd', delete, ?_, hspent, ?_, ?_⟩
  · refine hlevel.replace hc hx ?_ ?_
    · intro nd'' h
      split at h
      · cases h
      · cases h
        exact hok'
    · intro h
      split at h
      · exact hspent ‹_›
      · cases h
  · intro htop
    have hkeep : ¬ delete = true := fun h => by
      have := (hflags h).2.2
      simp [hok.parent, htop] at this
    simp [hkeep]
  · rw [updateSum, getNode_eq hnd, ok_bind, checkSums_ok hok hv, ok_bind]
    simp only [hok.dist, ← hnd', ← hdelete, hset]
    by_cases htop : i + 1 = D
    · rw [hok.parent, if_pos htop, if_pos htop]
    · rw [hok.parent, if_neg htop, if_neg htop, div_pow_succ x (i + 1)]
      simp only [hsum, hok.isLeft]

/-- **A pass of `updateSum`** from the child of layer `i` to the root: it
succeeds, returns the number of live indices after `x`, and leaves the tree of
the changed set. -/
theorem updateSum_spec (hc : Change L L' N N' x) (hx : x ≤ m) (hv : c.verifyStack = true → D ≤ 31)
    (hlayers : layers + i = D) (hi : i < D) (hlow : ∀ l < i, LevelOk c.tree D N' m L' l)
    (hhigh : ∀ l, i ≤ l → l < D → LevelOk c.tree D N m L l) (hroot : (c.tree D 0).isSome)
    (hd : discard = true → Spent L' N' i (x / 2 ^ i)) (hxD : x < 2 ^ D) :
    ∃ t', c.updateSum layers (x / 2 ^ (i + 1)) (x / 2 ^ i % 2 == 0) (count L' i (x / 2 ^ i)) i
        (above L x i) discard = .ok (above L x D, { c with tree := t' }) ∧
      (∀ l < D, LevelOk t' D N' m L' l) ∧ (t' D 0).isSome ∧ t' 0 = c.tree 0 := by
  induction layers generalizing i c discard with
  | zero => omega
  | succ layers ih =>
    have hv' : c.verifyStack = true → i < 31 := fun h => hi.trans_le (hv h)
    obtain ⟨v, delete, hlevel, hspent, hkeep, hrun⟩ :=
      updateSum_step hc hx layers hv' (hhigh i le_rfl hi) hd
    set t1 := c.tree.set (i + 1) (x / 2 ^ (i + 1)) v with ht1
    have hother : ∀ l, l ≠ i + 1 → t1 l = c.tree l := fun l hl => Tree.set_ne _ _ _ hl
    have hlow' : ∀ l < i + 1, LevelOk t1 D N' m L' l := by
      intro l hl
      by_cases hli : l = i
      · subst hli
        exact hlevel
      · exact (hlow l (by omega)).frame (hother _ (by omega))
    rw [hrun]
    by_cases htop : i + 1 = D
    · have hzero : x / 2 ^ (i + 1) = 0 := by
        rw [htop]
        exact Nat.div_eq_of_lt hxD
      refine ⟨t1, ?_, fun l hl => hlow' l (htop ▸ hl), ?_, hother 0 (by omega)⟩
      · have htotal : above L x D = above L x (i + 1) := by rw [htop]
        rw [if_pos htop, htotal]
        rfl
      · rw [ht1, ← htop, Tree.set_same, hzero]
        exact hkeep htop
    · have hhigh' : ∀ l, i + 1 ≤ l → l < D → LevelOk t1 D N m L l := fun l hl hlD =>
        (hhigh l (by omega) hlD).frame (hother _ (by omega))
      have hroot1 : (t1 D 0).isSome := by
        rwa [hother D (Ne.symm htop)]
      obtain ⟨t', hrest, hlevels, hroot', hleaves⟩ :=
        ih (c := c.setNode (i + 1) (x / 2 ^ (i + 1)) v) hv (by omega) (by omega) hlow' hhigh'
          hroot1 hspent
      refine ⟨t', ?_, hlevels, hroot', hleaves.trans (hother 0 (by omega))⟩
      rw [if_neg htop, hrest]
      rfl

/-! ## The whole tree -/

/-- **Tree invariant** for the live indices `L` among the first `N`, in a tree
of depth `D` with the nodes given out up to index `m`. -/
structure TreeInv (c : StackDistCalc) (L : Finset ℕ) (D N m : ℕ) : Prop where
  size : c.treeSize = D + 1
  pos : 0 < D
  level : ∀ l < D, LevelOk c.tree D N m L l
  next : ∀ l < D, c.nextIndex (l + 1) = m / 2 ^ (l + 1) + 1
  root : (c.tree D 0).isSome
  leaf : ∀ x ∈ L, ∃ nd, c.tree 0 x = some nd ∧ LeafOk x nd
  live : ∀ x ∈ L, x < N
  covers : N ≤ m + 1
  bound : m < 2 ^ D
  tight : D = 1 ∨ 2 ^ (D - 1) ≤ m

namespace TreeInv

variable (h : TreeInv c L D N m)

include h

theorem depth : c.getTreeDepth = D := by
  simp [getTreeDepth, h.size]

variable {c' : StackDistCalc}

/-- The leaves may change as long as those of the live indices are there. -/
theorem onLeaves (hsize : c'.treeSize = c.treeSize) (htree : ∀ l, l ≠ 0 → c'.tree l = c.tree l)
    (hnext : ∀ l, l ≠ 0 → c'.nextIndex l = c.nextIndex l)
    (hleaf : ∀ x ∈ L, ∃ nd, c'.tree 0 x = some nd ∧ LeafOk x nd) : TreeInv c' L D N m where
  size := hsize.trans h.size
  pos := h.pos
  level l hl := (h.level l hl).frame (htree _ l.succ_ne_zero)
  next l hl := (hnext _ l.succ_ne_zero).trans (h.next l hl)
  root := by
    rw [htree D h.pos.ne']
    exact h.root
  leaf := hleaf
  live := h.live
  covers := h.covers
  bound := h.bound
  tight := h.tight

/-- Only the shape of the tree matters. -/
theorem congr (hsize : c'.treeSize = c.treeSize) (htree : c'.tree = c.tree)
    (hnext : c'.nextIndex = c.nextIndex) : TreeInv c' L D N m :=
  h.onLeaves hsize (fun l _ => congrFun htree l) (fun l _ => congrFun hnext l) (htree ▸ h.leaf)

/-- Below `2 ^ 31` insertions every shift in the code is exact. -/
theorem depth_le (hm : m < 2 ^ 31) : D ≤ 31 := by
  rcases h.tight with hD | hD
  · omega
  · by_contra hlt
    have : 2 ^ 31 ≤ 2 ^ (D - 1) := Nat.pow_le_pow_right (by norm_num) (by omega)
    omega

theorem le_of_mem (hx : x ∈ L) : x ≤ m := by
  have := h.live x hx
  have := h.covers
  omega

theorem lt_of_mem (hx : x ∈ L) : x < 2 ^ D :=
  (h.le_of_mem hx).trans_lt h.bound

/-- The distance is the number of live indices after `x`. -/
theorem dist_eq (hx : x ∈ L) : above L x D = (L.filter (x < ·)).card :=
  above_top (fun _ hj => h.lt_of_mem hj) (h.lt_of_mem hx)

/-- The nodes above a live index. -/
theorem exists_node (hx : x ∈ L) (hi : i < D) :
    ∃ nd, c.tree (i + 1) (x / 2 ^ (i + 1)) = some nd ∧ NodeOk D N L i (x / 2 ^ (i + 1)) nd :=
  (h.level i hi).exists_node (h.le_of_mem hx) (not_spent_of_mem hx (i + 1))

/-- Changing the mark of a leaf. -/
theorem mark (hleaf : c.tree 0 x = some leaf) (b : Bool) :
    TreeInv (c.setNode 0 x (some { leaf with isMarked := b })) L D N m := by
  refine h.onLeaves rfl (fun l hl => Tree.set_ne _ _ _ hl) (fun _ _ => rfl) ?_
  intro y hy
  obtain ⟨nd, hnd, hok⟩ := h.leaf y hy
  rw [setNode_tree, Tree.set_same]
  by_cases hyx : y = x
  · subst hyx
    obtain rfl := Option.mem_unique hleaf hnd
    exact ⟨_, update_self .., hok.isLeft, hok.parent⟩
  · exact ⟨nd, by rw [update_of_ne hyx, hnd], hok⟩

/-! ## Reading the distance -/

theorem getSum_spec (hx : x ∈ L) (hlayers : layers + i = D) (hi : i < D) :
    c.getSum layers (x / 2 ^ (i + 1)) (x / 2 ^ i % 2 == 0) (above L x i) i = .ok (above L x D) := by
  induction layers generalizing i with
  | zero => omega
  | succ layers ih =>
    obtain ⟨nd, hnd, hok⟩ := h.exists_node hx hi
    rw [getSum, getNode_eq hnd, ok_bind]
    simp only [hok.dist]
    by_cases htop : i + 1 = D
    · rw [hok.parent, if_pos htop, htop]
    · rw [hok.parent, if_neg htop]
      simp only [hok.isLeft, ← div_pow_succ]
      exact ih (by omega) (by omega)

theorem getSumsLeavesToRoot_spec (hx : x ∈ L) :
    c.getSumsLeavesToRoot x = .ok (L.filter (x < ·)).card := by
  obtain ⟨leaf, hleaf, hok⟩ := h.leaf x hx
  have hsum := h.getSum_spec hx (add_zero D) h.pos
  rw [above_zero, h.dist_eq hx] at hsum
  rw [getSumsLeavesToRoot, getNode_eq hleaf]
  simp only [leafParent, hok.parent, ok_bind, h.depth, hok.isLeft]
  simpa using hsum

end TreeInv

/-! ## Passes from a leaf -/

/-- A pass from a leaf whose index changes. -/
theorem updateSumsLeavesToRoot_spec (h : TreeInv c L D N m) (hc : Change L L' N N' x)
    (hx : x ≤ m) (hm : m < 2 ^ 31) (hleaf : c.tree 0 x = some leaf)
    (hok : LeafOk x leaf) {isNewLeaf : Bool} (hcount : count L' 0 x = if isNewLeaf then 1 else 0)
    (hspent : isNewLeaf = false → Spent L' N' 0 x) (hlive : ∀ y ∈ L', y < N')
    (hcovers : N' ≤ m + 1) :
    ∃ t', c.updateSumsLeavesToRoot x isNewLeaf
        = .ok (if isNewLeaf then Infinity else above L x D, { c with tree := t' }) ∧
      TreeInv { c with tree := t' } L' D N' m ∧
      t' 0 x = some { leaf with sumLeft := if isNewLeaf then 1 else 0 } := by
  have hpos := h.pos
  set c1 := c.setNode 0 x (some { leaf with sumLeft := if isNewLeaf then 1 else 0 }) with hc1
  have hother : ∀ l, l ≠ 0 → c1.tree l = c.tree l := fun l hl => Tree.set_ne _ _ _ hl
  have hd : (!isNewLeaf) = true → Spent L' N' 0 (x / 2 ^ 0) := fun hd => by
    simpa using hspent (by simpa using hd)
  have hroot1 : (c1.tree D 0).isSome := by
    rw [hother D (by omega)]
    exact h.root
  obtain ⟨t', hrun, hlevels, hroot, hleaves⟩ :=
    updateSum_spec hc hx (fun _ => h.depth_le hm) (add_zero D) h.pos
      (fun l hl => absurd hl (by omega))
      (fun l _ hl => (h.level l hl).frame (hother _ (by omega))) hroot1 hd (hx.trans_lt h.bound)
  rw [setNode_tree, Tree.set_same] at hleaves
  simp only [zero_add, pow_one, pow_zero, Nat.div_one, hcount, above_zero] at hrun
  rw [← hok.isLeft] at hrun
  have hparent : leafParent x leaf = .ok (x / 2) := by
    simp [leafParent, hok.parent]
  refine ⟨t', ?_, ?_, by rw [hleaves, update_self]⟩
  · rw [updateSumsLeavesToRoot, getNode_eq hleaf, ok_bind, hparent, ok_bind]
    have hdepth : ∀ v, (c.setNode 0 x v).getTreeDepth = D := fun _ => h.depth
    cases isNewLeaf with
    | false =>
      simp only [hdepth]
      exact hrun
    | true =>
      simp only [hdepth]
      simp only [hc1, if_true, Bool.not_true] at hrun
      rw [hrun]
      rfl
  · have hleaf' : ∀ y ∈ L', ∃ nd, t' 0 y = some nd ∧ LeafOk y nd := by
      intro y hy
      rw [hleaves]
      by_cases hyx : y = x
      · subst hyx
        exact ⟨_, update_self .., hok.isLeft, hok.parent⟩
      · rw [update_of_ne hyx]
        exact h.leaf y ((hc.same y hyx).mpr hy)
    exact
      { size := h.size
        pos := h.pos
        level := hlevels
        next := h.next
        root := hroot
        leaf := hleaf'
        live := hlive
        covers := hcovers
        bound := h.bound
        tight := h.tight }

end StackDist
