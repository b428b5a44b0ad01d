/-
# Growing the tree, and whole calls on it

`updateTree` prepares the layers for the next index: a layer that starts a new
block gets a node, and at a power of two a new root goes on top.  With that,
taking a leaf out and putting the next leaf in keep the tree invariant.
-/
import Gem5.StackDistTree

open Function
open Dyadic

namespace StackDist

open StackDistCalc
open Nat hiding count_succ

variable {D N m i k x : ℕ} {L : Finset ℕ} {c : StackDistCalc} {l : ℕ} {nd : Node}

/-! ## One layer -/

/-- A layer with its counter. -/
structure LayerAt (c : StackDistCalc) (D N m : ℕ) (L : Finset ℕ) (l : ℕ) : Prop where
  level : LevelOk c.tree D N m L l
  next : c.nextIndex (l + 1) = m / 2 ^ (l + 1) + 1

variable {c' : StackDistCalc} {t : Tree} {all : Bool}

theorem LayerAt.frame (h : LayerAt c D N m L l) (ht : c'.tree (l + 1) = c.tree (l + 1))
    (hn : c'.nextIndex (l + 1) = c.nextIndex (l + 1)) : LayerAt c' D N m L l :=
  ⟨h.level.frame ht, hn.trans h.next⟩

/-- A layer whose width does not divide the next index is ready for it. -/
theorem LayerAt.skip (h : LayerAt c D N (N - 1) L l) (hd : 0 < N → ¬ 2 ^ (l + 1) ∣ N) :
    LayerAt c D N N L l := by
  have heq : (N - 1) / 2 ^ (l + 1) = N / 2 ^ (l + 1) := by
    rcases Nat.eq_zero_or_pos N with rfl | hN
    · rfl
    · obtain ⟨M, rfl⟩ : ∃ M, N = M + 1 := ⟨N - 1, by omega⟩
      exact (succ_div_of_not_dvd (hd hN)).symm
  obtain ⟨⟨hok, hspent⟩, hnext⟩ := h
  rw [heq] at hok hspent hnext
  exact ⟨⟨hok, hspent⟩, hnext⟩

theorem count_eq_zero_of_le {j : ℕ} (hlive : ∀ x ∈ L, x < N) (hj : N ≤ j * 2 ^ i) :
    count L i j = 0 := by
  rw [count_eq_zero]
  intro x hx
  have hlt : x / 2 ^ i < j := Nat.div_lt_of_lt_mul (by
    have := hlive x hx
    rw [Nat.mul_comm]
    omega)
  exact hlt.ne

/-- A node for the block that starts at the next index. -/
theorem LevelOk.push {M l : ℕ} (h : LevelOk t D (M + 1) M L l)
    (hstep : M / 2 ^ (l + 1) + 1 = (M + 1) / 2 ^ (l + 1))
    (hok : NodeOk D (M + 1) L l ((M + 1) / 2 ^ (l + 1)) nd) :
    LevelOk (t.set (l + 1) ((M + 1) / 2 ^ (l + 1)) (some nd)) D (M + 1) (M + 1) L l := by
  constructor
  · intro k nd' hnd
    rw [Tree.set_same] at hnd
    by_cases hk : k = (M + 1) / 2 ^ (l + 1)
    · subst hk
      rw [update_self] at hnd
      cases hnd
      exact ⟨le_rfl, hok⟩
    · rw [update_of_ne hk] at hnd
      obtain ⟨hle, hok'⟩ := h.ok k nd' hnd
      exact ⟨by omega, hok'⟩
  · intro k hle hnd
    rw [Tree.set_same] at hnd
    by_cases hk : k = (M + 1) / 2 ^ (l + 1)
    · subst hk
      rw [update_self] at hnd
      cases hnd
    · rw [update_of_ne hk] at hnd
      exact h.spent k (by omega) hnd

/-- A new node at the end of a layer whose width divides the next index. -/
theorem addINode_spec (h : LayerAt c D N (N - 1) L l) (hup : LayerAt c D N N L (l + 1))
    (hl : l + 1 < D) (hN : 0 < N) (hd : 2 ^ (l + 1) ∣ N) (hlive : ∀ x ∈ L, x < N) :
    ∃ t' n', c.addINode (l + 1) = .ok { c with tree := t', nextIndex := n' } ∧
      LayerAt { c with tree := t', nextIndex := n' } D N N L l ∧
      ∀ j, j ≠ l + 1 → t' j = c.tree j ∧ n' j = c.nextIndex j := by
  obtain ⟨M, rfl⟩ : ∃ M, N = M + 1 := ⟨N - 1, by omega⟩
  have hstep : M / 2 ^ (l + 1) + 1 = (M + 1) / 2 ^ (l + 1) := (succ_div_of_dvd hd).symm
  obtain ⟨parent, hparent, -⟩ := hup.level.exists_node le_rfl (not_spent_next L (M + 1) (l + 2))
  have hindex : c.nextIndex (l + 1) = (M + 1) / 2 ^ (l + 1) := by
    rw [h.next, Nat.add_sub_cancel, hstep]
  have hwidth : 2 * ((M + 1) / 2 ^ (l + 1)) * 2 ^ l = M + 1 := by
    have hcancel := Nat.div_mul_cancel hd
    calc 2 * ((M + 1) / 2 ^ (l + 1)) * 2 ^ l = (M + 1) / 2 ^ (l + 1) * 2 ^ (l + 1) := by ring
      _ = M + 1 := hcancel
  set k := (M + 1) / 2 ^ (l + 1) with hk
  set newINode : Node :=
    { Node.new with isLeftNode := k % 2 == 0, parent := some ((M + 1) / 2 ^ (l + 1 + 1)),
                    nodeIndex := k } with hnode
  have hok : NodeOk D (M + 1) L l k newINode :=
    { nodeIndex := rfl
      isLeft := rfl
      parent := by rw [if_neg (by omega), ← div_pow_succ]
      sumLeft := (count_eq_zero_of_le hlive hwidth.ge).symm
      sumRight := (count_eq_zero_of_le hlive (by rw [Nat.add_mul]; omega)).symm
      discardLeft := by simp [hnode, Node.new]
      discardRight := by simp [hnode, Node.new] }
  refine ⟨c.tree.set (l + 1) k (some newINode), update c.nextIndex (l + 1) (k + 1),
    ?_, ⟨h.level.push hstep hok, update_self ..⟩, ?_⟩
  · have hup' : c.nextIndex (l + 1 + 1) - 1 = (M + 1) / 2 ^ (l + 1 + 1) := by
      rw [hup.next, Nat.add_sub_cancel]
    simp only [addINode, hup', getNode_eq hparent, hindex]
    rfl
  · intro j hj
    exact ⟨Tree.set_ne _ _ _ hj, update_of_ne hj ..⟩

/-! ## All layers -/

/-- One layer of the loop gets a node, or its width does not divide the index. -/
theorem addINodeIf_spec (hindex : c.index = N) (hl : l + 1 < D) (hl' : l + 1 < 31)
    (h : LayerAt c D N (N - 1) L l) (hup : LayerAt c D N N L (l + 1)) (hN : 0 < N)
    (hall : all = true → 2 ^ (l + 1) ∣ N) (hlive : ∀ x ∈ L, x < N) :
    ∃ t' n', c.addINodeIf all (l + 1) = .ok { c with tree := t', nextIndex := n' } ∧
      LayerAt { c with tree := t', nextIndex := n' } D N N L l ∧
      ∀ j, j ≠ l + 1 → t' j = c.tree j ∧ n' j = c.nextIndex j := by
  unfold addINodeIf
  by_cases hd : 2 ^ (l + 1) ∣ N
  · have hcond : (all || c.index % intShl (l + 1) == 0) = true := by
      simp [intShl_eq hl', hindex, mod_eq_zero_of_dvd hd]
    rw [if_pos hcond]
    exact addINode_spec h hup hl hN hd hlive
  · have hcond : ¬ (all || c.index % intShl (l + 1) == 0) = true := by
      have hmod : N % 2 ^ (l + 1) ≠ 0 := fun h => hd (dvd_of_mod_eq_zero h)
      cases all with
      | true => exact absurd (hall rfl) hd
      | false => simpa [intShl_eq hl', hindex] using hmod
    rw [if_neg hcond]
    exact ⟨c.tree, c.nextIndex, rfl, h.skip fun _ => hd, fun _ _ => ⟨rfl, rfl⟩⟩

/-- The loop that adds intermediate nodes readies every layer for the index. -/
theorem addINodes_spec (hindex : c.index = N) (hi : i < D) (hi' : i < 31)
    (hhigh : ∀ l, i ≤ l → l < D → LayerAt c D N N L l) (hlow : ∀ l < i, LayerAt c D N (N - 1) L l)
    (hN : 0 < i → 0 < N) (hall : all = true → ∀ j ≤ i, 2 ^ j ∣ N) (hlive : ∀ x ∈ L, x < N) :
    ∃ t' n', c.addINodes all i = .ok { c with tree := t', nextIndex := n' } ∧
      (∀ l < D, LayerAt { c with tree := t', nextIndex := n' } D N N L l) ∧
      t' 0 = c.tree 0 ∧ t' D = c.tree D := by
  induction i generalizing c with
  | zero => exact ⟨c.tree, c.nextIndex, rfl, fun l hl => hhigh l (zero_le l) hl, rfl, rfl⟩
  | succ i ih =>
    obtain ⟨t1, n1, hadd, hlay, hother⟩ :=
      addINodeIf_spec hindex hi hi' (hlow i (by omega)) (hhigh (i + 1) le_rfl hi)
        (hN (by omega)) (fun ha => hall ha (i + 1) le_rfl) hlive
    have hhigh1 : ∀ l, i ≤ l → l < D →
        LayerAt { c with tree := t1, nextIndex := n1 } D N N L l := by
      intro l hl hlD
      by_cases hli : l = i
      · subst hli
        exact hlay
      · exact (hhigh l (by omega) hlD).frame (hother _ (by omega)).1 (hother _ (by omega)).2
    have hlow1 : ∀ l < i, LayerAt { c with tree := t1, nextIndex := n1 } D N (N - 1) L l :=
      fun l hl => (hlow l (by omega)).frame (hother _ (by omega)).1 (hother _ (by omega)).2
    obtain ⟨t', n', hrun, hlayers, hleaf, hroot⟩ :=
      ih (c := { c with tree := t1, nextIndex := n1 }) hindex (by omega) (by omega) hhigh1 hlow1
        (fun _ => hN (by omega)) (fun ha j hj => hall ha j (by omega))
    refine ⟨t', n', ?_, hlayers, ?_, ?_⟩
    · rw [addINodes, hadd]
      exact hrun
    · rw [hleaf]
      exact (hother 0 (by omega)).1
    · rw [hroot]
      exact (hother D (by omega)).1

/-! ## A new root -/

theorem NodeOk.deepen (h : NodeOk D N L i k nd) (hi : i + 1 < D) : NodeOk (D + 1) N L i k nd :=
  { h with parent := by rw [h.parent, if_neg (by omega), if_neg (by omega)] }

theorem NodeOk.link (h : NodeOk (i + 1) N L i k nd) :
    NodeOk (i + 1 + 1) N L i k { nd with parent := some (k / 2) } :=
  { h with parent := by simp }

theorem TreeInv.layer (h : TreeInv c L D N m) (hl : l < D) : LayerAt c D N m L l :=
  ⟨h.level l hl, h.next l hl⟩

theorem LevelOk.deepen (h : LevelOk t D N m L i) (hi : i + 1 < D) : LevelOk t (D + 1) N m L i where
  ok k nd hk := ⟨(h.ok k nd hk).1, (h.ok k nd hk).2.deepen hi⟩
  spent := h.spent

/-- A layer with one node only. -/
theorem LevelOk.single (hm : m / 2 ^ (i + 1) = 0) (hself : t (i + 1) 0 = some nd)
    (hother : ∀ k, k ≠ 0 → t (i + 1) k = none) (hok : NodeOk D N L i 0 nd) :
    LevelOk t D N m L i where
  ok := by
    intro k nd' hk
    by_cases hk0 : k = 0
    · subst hk0
      obtain rfl := Option.mem_unique hself hk
      exact ⟨zero_le _, hok⟩
    · rw [hother k hk0] at hk
      cases hk
  spent := by
    intro k hle hk
    obtain rfl : k = 0 := by omega
    rw [hself] at hk
    cases hk

/-- The root that `addRoot` puts over the node `old`. -/
def Node.over (old : Node) : Node :=
  { Node.new with sumLeft := old.sumRight + old.sumLeft,
                  discardLeft := old.discardLeft && old.discardRight }

theorem NodeOk.over {old : Node} (h : NodeOk D N L i 0 old) (hlive : ∀ x ∈ L, x < N)
    (hN : N ≤ 2 ^ (i + 1)) : NodeOk (i + 1 + 1) N L (i + 1) 0 old.over where
  nodeIndex := rfl
  isLeft := rfl
  parent := by simp [Node.over, Node.new]
  sumLeft := by
    rw [Nat.mul_zero, count_succ, ← h.sumLeft, ← h.sumRight, Nat.add_comm]
    rfl
  sumRight := (count_eq_zero_of_le hlive (by omega)).symm
  discardLeft := by
    intro hd
    simp only [Node.over, Bool.and_eq_true] at hd
    exact (h.discardLeft hd.1).join (h.discardRight hd.2)
  discardRight := by simp [Node.over, Node.new]

/-- The old root becomes the left child of the new one. -/
theorem addRoot_spec (h : TreeInv c L D N (N - 1)) (hN : N = 2 ^ D) :
    ∃ t' n', c.addRoot = .ok { c with treeSize := D + 2, tree := t', nextIndex := n' } ∧
      (∀ l < D, LayerAt { c with treeSize := D + 2, tree := t', nextIndex := n' }
        (D + 1) N (N - 1) L l) ∧
      LayerAt { c with treeSize := D + 2, tree := t', nextIndex := n' } (D + 1) N N L D ∧
      (t' (D + 1) 0).isSome ∧ t' 0 = c.tree 0 := by
  obtain ⟨d, rfl⟩ : ∃ d, D = d + 1 := ⟨D - 1, by have := h.pos; omega⟩
  obtain ⟨old, hold⟩ := Option.isSome_iff_exists.mp h.root
  have hold' := (h.level d (by omega)).ok 0 old hold
  set t1 := c.tree.set (d + 1) 0 (some { old with parent := some 0 }) with ht1
  set t' := update t1 (d + 1 + 1) (update (fun _ => none) 0 (some old.over))
    with ht'
  have hlow : ∀ l, l ≠ d + 1 + 1 → t' l = t1 l := fun l hl => update_of_ne hl ..
  have htop : t' (d + 1 + 1) = update (fun _ => none) 0 (some old.over) := update_self ..
  have hmid : t' (d + 1) = update (c.tree (d + 1)) 0 (some { old with parent := some 0 }) := by
    rw [hlow _ (by omega), ht1, Tree.set_same]
  have hzero : N / 2 ^ (d + 1 + 1) = 0 := by
    rw [hN]
    exact Nat.div_eq_of_lt (Nat.pow_lt_pow_right (by norm_num) (by omega))
  have hlast : (N - 1) / 2 ^ (d + 1) = 0 := div_eq_of_lt h.bound
  have hnext : ∀ l, l ≠ d + 1 + 1 → update c.nextIndex (d + 1 + 1) 1 l = c.nextIndex l :=
    fun l hl => update_of_ne hl ..
  have hlevel : ∀ l < d + 1, LevelOk t' (d + 1 + 1) N (N - 1) L l := by
    intro l hl
    by_cases hld : l = d
    · -- layer of the old root: the root is its only node
      subst hld
      refine LevelOk.single hlast (by rw [hmid, update_self]) ?_ hold'.2.link
      intro k hk
      rw [hmid, update_of_ne hk]
      refine Option.eq_none_iff_forall_ne_some.mpr fun nd hnd => ?_
      have := ((h.level l hl).ok k nd hnd).1
      omega
    · apply ((h.level l hl).deepen (by omega)).frame
      rw [hlow _ (by omega), ht1, Tree.set_ne _ _ _ (by omega)]
  have hroot : LevelOk t' (d + 1 + 1) N N L (d + 1) := by
    refine LevelOk.single hzero (by rw [htop, update_self]) ?_ (hold'.2.over h.live hN.le)
    intro k hk
    rw [htop, update_of_ne hk]
  refine ⟨t', update c.nextIndex (d + 1 + 1) 1, ?_, ?_, ⟨hroot, ?_⟩, ?_, ?_⟩
  · rw [addRoot]
    simp only [h.depth, getNode_eq hold, h.size]
    rfl
  · exact fun l hl => ⟨hlevel l hl, (hnext _ (by omega)).trans (h.next l hl)⟩
  · show update c.nextIndex (d + 1 + 1) 1 (d + 1 + 1) = _
    rw [update_self, hzero]
  · rw [htop]
    rfl
  · rw [hlow 0 (by omega), ht1, Tree.set_ne _ _ _ (by omega)]

/-! ## Extending the tree -/

/-- The state differs from `c` in the shape of the tree only. -/
def StackDistCalc.reshape (c : StackDistCalc) (size : ℕ) (t : Tree) (n : ℕ → ℕ) : StackDistCalc :=
  { c with treeSize := size, tree := t, nextIndex := n }

/-- Layers ready for the index make a tree ready for it. -/
theorem treeInv_of_layers (h : TreeInv c L D N m) {D' : ℕ} (hpos : 0 < D')
    (hsize : c'.treeSize = D' + 1) (hlayers : ∀ l < D', LayerAt c' D' N N L l)
    (hroot : (c'.tree D' 0).isSome) (hleaf : c'.tree 0 = c.tree 0) (hbound : N < 2 ^ D')
    (htight : D' = 1 ∨ 2 ^ (D' - 1) ≤ N) : TreeInv c' L D' N N where
  size := hsize
  pos := hpos
  level l hl := (hlayers l hl).level
  next l hl := (hlayers l hl).next
  root := hroot
  leaf x hx := by
    rw [hleaf]
    exact h.leaf x hx
  live := h.live
  covers := le_succ N
  bound := hbound
  tight := htight

/-- The exponent of a power of two at which the tree is extended is its depth. -/
theorem TreeInv.eq_pow (h : TreeInv c L D N (N - 1)) {e : ℕ} (he : N = 2 ^ e)
    (heven : N % 2 = 0) : N = 2 ^ D := by
  have hle : e ≤ D := by
    by_contra hlt
    have : 2 ^ (D + 1) ≤ 2 ^ e := Nat.pow_le_pow_right (by norm_num) (by omega)
    have := h.bound
    omega
  have hpos : 0 < e := by
    apply pos_of_ne_zero
    rintro rfl
    simp [he] at heven
  have hge : D ≤ e := by
    rcases h.tight with hD | hD
    · omega
    · have hlt : 2 ^ (D - 1) < 2 ^ e := by
        have : 0 < 2 ^ e := by positivity
        omega
      have := (Nat.pow_lt_pow_iff_right (by norm_num)).mp hlt
      omega
  rw [he, le_antisymm hle hge]

theorem updateTree_spec (h : TreeInv c L D N (N - 1)) (hindex : c.index = N)
    (heven : N % 2 = 0) (hN : N < 2 ^ 31) :
    ∃ D' t' n', c.updateTree = .ok (c.reshape (D' + 1) t' n') ∧
      TreeInv (c.reshape (D' + 1) t' n') L D' N N := by
  have hpos := h.pos
  unfold updateTree
  by_cases hpow : isPowerOf2 c.index = true
  · rw [if_pos hpow]
    obtain ⟨e, he⟩ := (isPowerOf2_iff _).mp hpow
    have hND : N = 2 ^ D := h.eq_pow (hindex ▸ he) heven
    have hD : D < 31 := by
      rw [hND] at hN
      exact (Nat.pow_lt_pow_iff_right (by norm_num)).mp hN
    obtain ⟨t1, n1, hroot, hlow, htop, hsome, hleaf⟩ := addRoot_spec h hND
    have hhigh : ∀ l, D ≤ l → l < D + 1 →
        LayerAt { c with treeSize := D + 2, tree := t1, nextIndex := n1 } (D + 1) N N L l := by
      intro l hl hl'
      obtain rfl : l = D := by omega
      exact htop
    obtain ⟨t', n', hrun, hlayers, hleaf', hroot'⟩ :=
      addINodes_spec (c := { c with treeSize := D + 2, tree := t1, nextIndex := n1 }) hindex
        (lt_succ_self D) hD hhigh hlow
        (fun _ => by rw [hND]; positivity)
        (fun (_ : true = true) j hj => by rw [hND]; exact pow_dvd_pow 2 hj) h.live
    refine ⟨D + 1, t', n', ?_, ?_⟩
    · rw [hroot]
      exact hrun
    · refine treeInv_of_layers h (succ_pos D) rfl hlayers ?_ ?_ ?_ ?_
      · show (t' (D + 1) 0).isSome
        rw [hroot']
        exact hsome
      · exact hleaf'.trans hleaf
      · rw [hND]
        exact Nat.pow_lt_pow_right (by norm_num) (Nat.lt_succ_self D)
      · exact .inr (by rw [hND, Nat.add_sub_cancel])
  · rw [if_neg hpow, h.depth]
    have hne : N ≠ 2 ^ D := fun hND =>
      hpow ((isPowerOf2_iff _).mpr ⟨D, by rw [hindex, hND]⟩)
    have hlt : N < 2 ^ D := by
      have := h.bound
      omega
    have hhigh : ∀ l, D - 1 ≤ l → l < D → LayerAt c D N N L l := by
      intro l hl hl'
      have hlD : l + 1 = D := by omega
      refine (h.layer hl').skip fun h0 hd => ?_
      have := le_of_dvd h0 hd
      rw [hlD] at this
      omega
    have hpos' : 0 < D - 1 → 0 < N := by
      rcases h.tight with hD' | hD'
      · omega
      · have : 0 < 2 ^ (D - 1) := by positivity
        omega
    have hdepth := h.depth_le (by omega)
    obtain ⟨t', n', hrun, hlayers, hleaf, hroot⟩ :=
      addINodes_spec hindex (by omega) (by omega) hhigh (fun l hl => h.layer (by omega))
        hpos' (fun (hf : false = true) => by cases hf) h.live
    refine ⟨D, t', n', ?_, ?_⟩
    · rw [hrun, ← h.size]
      rfl
    · refine treeInv_of_layers h h.pos rfl (fun l hl => (hlayers l hl).frame rfl rfl) ?_ hleaf hlt ?_
      · show (t' D 0).isSome
        rw [hroot]
        exact h.root
      · rcases h.tight with hD | hD
        · exact .inl hD
        · exact .inr (by omega)

/-- Before a new leaf the tree is ready for its index. -/
theorem extendTree_spec (h : TreeInv c L D N (N - 1)) (hindex : c.index = N) (hN : N < 2 ^ 31) :
    ∃ D' t' n', c.extendTree = .ok (c.reshape (D' + 1) t' n') ∧
      TreeInv (c.reshape (D' + 1) t' n') L D' N N := by
  unfold extendTree
  by_cases heven : N % 2 = 0
  · rw [if_pos (by rw [hindex]; exact heven)]
    exact updateTree_spec h hindex heven hN
  · rw [if_neg (by rw [hindex]; exact heven)]
    have hpow : ∀ l, 2 ∣ 2 ^ (l + 1) := fun l => Dvd.intro_left _ (pow_succ 2 l).symm
    have hodd : ∀ l, ¬ 2 ^ (l + 1) ∣ N := fun l hd =>
      heven (mod_eq_zero_of_dvd ((hpow l).trans hd))
    have hlayers : ∀ l < D, LayerAt (c.reshape (D + 1) c.tree c.nextIndex) D N N L l :=
      fun l hl => ((h.layer hl).skip fun _ => hodd l).frame rfl rfl
    refine ⟨D, c.tree, c.nextIndex, by rw [← h.size]; rfl, ?_⟩
    refine treeInv_of_layers h h.pos rfl hlayers h.root rfl ?_ ?_
    · have hne : N ≠ 2 ^ D := by
        obtain ⟨d, rfl⟩ : ∃ d, D = d + 1 := ⟨D - 1, by have := h.pos; omega⟩
        rintro rfl
        exact hodd d dvd_rfl
      have := h.bound
      omega
    · rcases h.tight with hD | hD
      · exact .inl hD
      · exact .inr (by omega)

/-! ## Leaves -/

/-- Taking the leaf of a live index out gives the number of live indices after
it. -/
theorem removeLeaf_spec (h : TreeInv c L D N m) (hm : m < 2 ^ 31) (hx : x ∈ L) :
    ∃ t' mark, c.removeLeaf x = .ok (((L.filter (x < ·)).card, mark), { c with tree := t' }) ∧
      TreeInv { c with tree := t' } (L.erase x) D N m := by
  obtain ⟨leaf, hleaf, hok⟩ := h.leaf x hx
  have hzero : count (L.erase x) 0 x = 0 := count_zero_of_not_mem (by simp)
  have hspent : Spent (L.erase x) N 0 x := ⟨by simpa using h.live x hx, hzero⟩
  obtain ⟨t1, hrun, h1, hleaf1⟩ :=
    updateSumsLeavesToRoot_spec h (Change.erase hx) (h.le_of_mem hx) hm hleaf hok
      (by simpa using hzero : count (L.erase x) 0 x = if false = true then 1 else 0)
      (fun _ => hspent) (fun y hy => h.live y (Finset.mem_of_mem_erase hy)) h.covers
  rw [h.dist_eq hx] at hrun
  have hget : ({ c with tree := t1 } : StackDistCalc).getNode 0 x
      = .ok { leaf with sumLeft := 0 } := getNode_eq hleaf1
  refine ⟨t1.set 0 x none, leaf.isMarked, ?_, ?_⟩
  · rw [removeLeaf, hrun]
    simp only [hget, ok_bind]
    rfl
  · refine h1.onLeaves rfl (fun l hl => Tree.set_ne _ _ _ hl) (fun _ _ => rfl) ?_
    intro y hy
    obtain ⟨nd, hnd, hok'⟩ := h1.leaf y hy
    refine ⟨nd, ?_, hok'⟩
    show (t1.set 0 x none) 0 y = some nd
    rw [Tree.set_same, update_of_ne (Finset.ne_of_mem_erase hy)]
    exact hnd

/-- Putting the next leaf in. -/
theorem addLeaf_spec (h : TreeInv c L D N (N - 1)) (hindex : c.index = N) (hN : N < 2 ^ 31) :
    ∃ D' t' n', c.addLeaf = .ok (c.reshape (D' + 1) t' n') ∧
      TreeInv (c.reshape (D' + 1) t' n') (insert N L) D' (N + 1) N := by
  obtain ⟨D', t1, n1, hext, h1⟩ := extendTree_spec h hindex hN
  have hpos := h1.pos
  obtain ⟨parent, hparent, -⟩ := (h1.level 0 hpos).exists_node le_rfl (not_spent_next L N 1)
  have hnext : n1 1 - 1 = N / 2 := by
    have := h1.next 0 hpos
    simp only [reshape, zero_add] at this
    omega
  set leaf : Node :=
    { Node.new with nodeIndex := N, isLeftNode := N % 2 == 0, parent := some (N / 2) } with hleaf
  have hok : LeafOk N leaf := ⟨rfl, rfl⟩
  set n2 := update n1 0 (n1 0 + 1) with hn2
  set c2 := c.reshape (D' + 1) (t1.set 0 N (some leaf)) n2 with hc2
  have hmem : c2.tree 0 N = some leaf := by
    show (t1.set 0 N (some leaf)) 0 N = _
    rw [Tree.set_same, update_self]
  -- the new leaf is in place, not yet counted
  have h2 : TreeInv c2 L D' N N := by
    refine h1.onLeaves rfl (fun l hl => Tree.set_ne _ _ _ hl) (fun l hl => update_of_ne hl _ _) ?_
    intro y hy
    obtain ⟨nd, hnd, hok'⟩ := h1.leaf y hy
    refine ⟨nd, ?_, hok'⟩
    show (t1.set 0 N (some leaf)) 0 y = some nd
    rw [Tree.set_same, update_of_ne (h1.live y hy).ne]
    exact hnd
  have hlive : ∀ y ∈ insert N L, y < N + 1 := by
    intro y hy
    rcases Finset.mem_insert.mp hy with rfl | hy
    · exact lt_succ_self _
    · exact (h1.live y hy).trans (lt_succ_self N)
  obtain ⟨t', hrun, h3, -⟩ :=
    updateSumsLeavesToRoot_spec h2 (Change.insert L N) le_rfl hN hmem hok
      (by simp [Dyadic.count, Finset.filter_eq'] :
        count (insert N L) 0 N = if true = true then 1 else 0)
      (fun hf => by cases hf) hlive le_rfl
  refine ⟨D', t', n2, ?_, h3⟩
  rw [addLeaf, hext]
  have hcur : (c.reshape (D' + 1) t1 n1).index = N := hindex
  have hcnt : (c.reshape (D' + 1) t1 n1).nextIndex 1 - 1 = N / 2 := hnext
  have hget : (c.reshape (D' + 1) t1 n1).getNode 1 (N / 2) = .ok parent :=
    getNode_eq (by simpa using hparent)
  simp only [hcnt, hget, ok_bind, hcur]
  have hidx : c2.index = N := hindex
  show (c2.updateSumsLeavesToRoot c2.index true >>= fun r => pure r.2) = _
  rw [hidx, hrun]
  rfl

/-! ## The sanity check -/

theorem parentsUp_spec (h : TreeInv c L D N m) (hx : x ∈ L) {n leaf : ℕ} (hn : i + n < D) :
    c.parentsUp leaf n (i + 1, x / 2 ^ (i + 1)) = .ok (i + n + 1, x / 2 ^ (i + n + 1)) := by
  induction n generalizing i with
  | zero => rfl
  | succ n ih =>
    obtain ⟨nd, hnd, hok⟩ := h.exists_node hx (i := i) (by omega)
    have hparent : nd.parent = some (x / 2 ^ (i + 1 + 1)) := by
      rw [hok.parent, if_neg (by omega), ← div_pow_succ]
    rw [parentsUp, getNode_eq hnd, ok_bind, hparent]
    have hup := ih (i := i + 1) (by omega)
    rw [show i + 1 + n + 1 = i + (n + 1) + 1 by omega] at hup
    exact hup

/-- The sanity check passes for every leaf. -/
theorem sanityCheckTree_spec (h : TreeInv c L D N m) (hx : x ∈ L) :
    c.sanityCheckTree x = .ok () := by
  have hpos := h.pos
  obtain ⟨leaf, hleaf, hok⟩ := h.leaf x hx
  obtain ⟨nd, hnd, hroot⟩ := h.exists_node hx (i := D - 1) (by omega)
  have hparent : leafParent x leaf = .ok (x / 2) := by
    simp [leafParent, hok.parent]
  have hup : c.parentsUp x (D - 1) (1, x / 2) = .ok (D - 1 + 1, x / 2 ^ (D - 1 + 1)) := by
    simpa using parentsUp_spec h hx (i := 0) (by omega)
  rw [sanityCheckTree, getNode_eq hleaf, ok_bind, hparent, ok_bind, h.depth, hup]
  have htop : nd.parent = none := by rw [hroot.parent, if_pos (by omega)]
  simp [getNode_eq hnd, ok_bind, htop]

end StackDist
