/-
# The calculator equals the naive stack

The reference is a plain list of distinct addresses, most recently inserted
first.  `Rep c stack` ties the calculator to it: the indices of the addresses
decrease down the stack, and the tree is right for the set of these indices.
-/
import Gem5.StackDistGrow

open Function
open Dyadic

namespace StackDist

open StackDistCalc
open List hiding count

variable {c : StackDistCalc} {stack : List Addr} {D N m : ℕ} {x : Call} {xs : List Call}

/-! ## The reference -/

/-- The number of addresses above `addr` in the stack. -/
def refDist (stack : List Addr) (addr : Addr) : ℕ :=
  if addr ∈ stack then (stack.takeWhile (· ≠ addr)).length else Infinity

namespace Call

def addr : Call → Addr
  | .calcStackDistAndUpdate addr _ => addr
  | .calcStackDist addr _ => addr

/-- The call inserts its address. -/
def inserts : Call → Bool
  | .calcStackDistAndUpdate _ addNewNode => addNewNode
  | .calcStackDist _ _ => false

/-- The call compares its result with the debug stack. -/
def compares : Call → Bool
  | .calcStackDistAndUpdate _ addNewNode => addNewNode
  | .calcStackDist _ _ => true

end Call

/-- An insertion moves the address to the top, a removal takes it out. -/
def refStep (stack : List Addr) : Call → List Addr
  | .calcStackDistAndUpdate addr true => addr :: stack.erase addr
  | .calcStackDistAndUpdate addr false => stack.erase addr
  | .calcStackDist _ _ => stack

/-- The distances of a sequence of calls. -/
def refDists (stack : List Addr) : List Call → List ℕ
  | [] => []
  | x :: xs => refDist stack x.addr :: refDists (refStep stack x) xs

/-- The number of insertions among the calls. -/
def insertions (calls : List Call) : ℕ := calls.countP Call.inserts

/-! ## Indices of a stack -/

/-- The insertion indices of the addresses. -/
def live (aiMap : Addr → Option ℕ) (stack : List Addr) : Finset ℕ :=
  (stack.filterMap aiMap).toFinset

/-- The indices of the stack exist and decrease from its top. -/
def Indexed (aiMap : Addr → Option ℕ) (stack : List Addr) : Prop :=
  (∀ a ∈ stack, (aiMap a).isSome) ∧
    stack.Pairwise fun a b => ∀ i ∈ aiMap a, ∀ j ∈ aiMap b, j < i

variable {aiMap aiMap' : Addr → Option ℕ} {a : Addr}

theorem mem_live {j : ℕ} :
    j ∈ live aiMap stack ↔ ∃ a ∈ stack, aiMap a = some j := by
  simp [live]

theorem live_cons {i : ℕ} (h : aiMap a = some i) :
    live aiMap (a :: stack) = insert i (live aiMap stack) := by
  simp [live, h]

theorem live_congr (h : ∀ a ∈ stack, aiMap a = aiMap' a) :
    live aiMap stack = live aiMap' stack := by
  ext j
  rw [mem_live, mem_live]
  exact exists_congr fun a => and_congr_right fun ha => by rw [h a ha]

namespace Indexed

variable {x : ℕ}

theorem tail (h : Indexed aiMap (a :: stack)) : Indexed aiMap stack :=
  ⟨fun b hb => h.1 b (by simp [hb]), (pairwise_cons.mp h.2).2⟩

/-- The indices below the top are smaller. -/
theorem lt_head (h : Indexed aiMap (a :: stack)) (ha : aiMap a = some x) :
    ∀ j ∈ live aiMap stack, j < x := by
  intro j hj
  obtain ⟨b, hb, hbj⟩ := mem_live.mp hj
  exact (pairwise_cons.mp h.2).1 b hb x ha j hbj

variable (h : Indexed aiMap stack)

include h

theorem nodup : stack.Nodup := by
  induction stack with
  | nil => exact nodup_nil
  | cons b stack ih =>
    refine nodup_cons.mpr ⟨fun hmem => ?_, ih h.tail⟩
    obtain ⟨i, hi⟩ := Option.isSome_iff_exists.mp (h.1 b (by simp))
    exact lt_irrefl i (h.lt_head hi i (mem_live.mpr ⟨b, hmem, hi⟩))

/-- No two addresses share an index. -/
theorem inj {b : Addr} (ha : a ∈ stack) (hb : b ∈ stack) (hax : aiMap a = some x)
    (hbx : aiMap b = some x) : a = b := by
  induction stack with
  | nil => cases ha
  | cons d stack ih =>
    rcases mem_cons.mp ha with rfl | ha' <;> rcases mem_cons.mp hb with rfl | hb'
    · rfl
    · exact absurd (h.lt_head hax x (mem_live.mpr ⟨b, hb', hbx⟩)) (lt_irrefl x)
    · exact absurd (h.lt_head hbx x (mem_live.mpr ⟨a, ha', hax⟩)) (lt_irrefl x)
    · exact ih h.tail ha' hb'

theorem congr (heq : ∀ a ∈ stack, aiMap a = aiMap' a) : Indexed aiMap' stack := by
  refine ⟨fun a ha => heq a ha ▸ h.1 a ha, ?_⟩
  apply h.2.imp_of_mem
  intro a b ha hb hlt
  rwa [← heq a ha, ← heq b hb]

/-- The indices after the one of `a` are those above it in the stack. -/
theorem card_filter (ha : a ∈ stack) (hx : aiMap a = some x) :
    ((live aiMap stack).filter (x < ·)).card = (stack.takeWhile (· ≠ a)).length := by
  induction stack with
  | nil => cases ha
  | cons b stack ih =>
    obtain ⟨y, hy⟩ := Option.isSome_iff_exists.mp (h.1 b (by simp))
    rw [live_cons hy]
    by_cases hba : b = a
    · subst hba
      obtain rfl : y = x := by simpa [hy] using hx
      have hnone : (insert y (live aiMap stack)).filter (y < ·) = ∅ := by
        rw [Finset.filter_eq_empty_iff]
        intro j hj
        rcases Finset.mem_insert.mp hj with rfl | hj
        · exact lt_irrefl _
        · exact (h.lt_head hy j hj).le.not_gt
      simp [hnone]
    · have hmem : a ∈ stack := (mem_cons.mp ha).resolve_left (Ne.symm hba)
      have hxy : x < y := h.lt_head hy x (mem_live.mpr ⟨a, hmem, hx⟩)
      have hfresh : y ∉ (live aiMap stack).filter (x < ·) := fun hmem' =>
        lt_irrefl y (h.lt_head hy y (Finset.mem_of_mem_filter y hmem'))
      rw [Finset.filter_insert, if_pos hxy, Finset.card_insert_of_notMem hfresh, ih h.tail hmem]
      simp [hba]

/-- Taking an address out of the stack takes its index out of the live ones. -/
theorem erase (ha : a ∈ stack) (hx : aiMap a = some x) (heq : ∀ b, b ≠ a → aiMap' b = aiMap b) :
    Indexed aiMap' (stack.erase a) ∧ live aiMap' (stack.erase a) = (live aiMap stack).erase x := by
  have hne : ∀ b ∈ stack.erase a, b ≠ a := fun b hb hba =>
    h.nodup.not_mem_erase (hba ▸ hb)
  have hsub : Indexed aiMap (stack.erase a) :=
    ⟨fun b hb => h.1 b (mem_of_mem_erase hb), h.2.sublist erase_sublist⟩
  refine ⟨hsub.congr fun b hb => (heq b (hne b hb)).symm, ?_⟩
  rw [live_congr fun b hb => heq b (hne b hb)]
  ext j
  rw [Finset.mem_erase, mem_live, mem_live]
  constructor
  · rintro ⟨b, hb, hj⟩
    refine ⟨?_, b, mem_of_mem_erase hb, hj⟩
    rintro rfl
    exact hne b hb (h.inj (mem_of_mem_erase hb) ha hj hx)
  · rintro ⟨hjx, b, hb, hj⟩
    refine ⟨b, (mem_erase_of_ne ?_).mpr hb, hj⟩
    rintro rfl
    rw [hx] at hj
    exact hjx (by simpa using hj.symm)

/-- Putting an address on top with an index above all others. -/
theorem push (ha : a ∉ stack) (hlt : ∀ j ∈ live aiMap stack, j < x) :
    Indexed (update aiMap a (some x)) (a :: stack) ∧
      live (update aiMap a (some x)) (a :: stack) = insert x (live aiMap stack) := by
  have hself : update aiMap a (some x) a = some x := update_self ..
  have heq : ∀ b ∈ stack, aiMap b = update aiMap a (some x) b := by
    intro b hb
    rw [update_of_ne]
    rintro rfl
    exact ha hb
  have hstack := h.congr heq
  refine ⟨⟨?_, pairwise_cons.mpr ⟨?_, hstack.2⟩⟩, ?_⟩
  · intro b hb
    rcases mem_cons.mp hb with rfl | hb
    · rw [hself]
      rfl
    · exact hstack.1 b hb
  · intro b hb i hi j hj
    rw [hself] at hi
    cases hi
    rw [← heq b hb] at hj
    exact hlt j (mem_live.mpr ⟨b, hb, hj⟩)
  · rw [live_cons hself, live_congr heq]

end Indexed

/-! ## One call -/

/-- **The calculator represents the stack.** -/
structure Rep (c : StackDistCalc) (stack : List Addr) : Prop where
  mem : ∀ a, (c.aiMap a).isSome → a ∈ stack
  indexed : Indexed c.aiMap stack
  tree : ∃ D, TreeInv c (live c.aiMap stack) D c.index (c.index - 1)

theorem Rep.aiMap_eq_none (h : Rep c stack) {a : Addr} (ha : a ∉ stack) : c.aiMap a = none := by
  rw [← Option.not_isSome_iff_eq_none]
  exact fun hs => ha (h.mem a hs)

/-- The initial calculator represents the empty stack. -/
theorem rep_init (verifyStack : Bool) : Rep (StackDistCalc.init verifyStack) [] where
  mem a ha := by simp [init] at ha
  indexed := ⟨by simp, .nil⟩
  tree := by
    refine ⟨1, ?_⟩
    have hroot : (init verifyStack).tree 1 0 = some Node.new := by
      simp [init]
    have honly : ∀ k nd, (init verifyStack).tree 1 k = some nd → k = 0 ∧ nd = Node.new := by
      intro k nd hk
      by_cases hk0 : k = 0
      · subst hk0
        rw [hroot] at hk
        exact ⟨rfl, by simpa using hk.symm⟩
      · simp [init, hk0] at hk
    constructor
    · rfl
    · exact Nat.one_pos
    · intro l hl
      obtain rfl : l = 0 := by omega
      constructor
      · intro k nd hk
        obtain ⟨rfl, rfl⟩ := honly k nd hk
        refine ⟨Nat.zero_le _, ?_⟩
        constructor <;> simp [Node.new, live, count]
      · intro k hle hk
        obtain rfl : k = 0 := by simpa [init] using hle
        simp [hroot] at hk
    · intro l hl
      obtain rfl : l = 0 := by omega
      simp [init]
    · rw [hroot]
      rfl
    · intro x hx
      simp [live] at hx
    · intro x hx
      simp [live] at hx
    · exact Nat.zero_le _
    · exact Nat.two_pos
    · exact .inl rfl

/-- The naive scan counts the addresses above. -/
theorem scanStack_eq (a : Addr) (stack : List Addr) (n : ℕ) :
    StackDistCalc.scanStack a stack n
      = if a ∈ stack then some (n + (stack.takeWhile (· ≠ a)).length) else none := by
  induction stack generalizing n with
  | nil => rfl
  | cons b stack ih =>
    by_cases hb : b = a
    · simp [scanStack, hb]
    · have hmem : a ∈ b :: stack ↔ a ∈ stack := by simp [Ne.symm hb]
      rw [scanStack, ih, if_congr hmem rfl rfl]
      simp [hb]
      split
      · congr 1
        omega
      · rfl

/-- `verifyStackDist` is the distance in the debug stack. -/
theorem verifyStackDist_eq (c : StackDistCalc) (a : Addr) (b : Bool) :
    c.verifyStackDist a b
      = (refDist c.stack a, if b then { c with stack := a :: c.stack.erase a } else c) := by
  unfold verifyStackDist refDist
  rw [scanStack_eq]
  split <;> simp

/-- The calculator after the lookup of an update. -/
def StackDistCalc.lookedUp (c : StackDistCalc) (t : Tree) (a : Addr) (addNewNode : Bool) :
    StackDistCalc :=
  { c with
    tree := t
    aiMap := update c.aiMap a (if addNewNode then some c.index else none) }

/-- The lookup of an update: the distance is right, and the tree then holds the
other addresses. -/
theorem lookupAndRemove_spec (h : Rep c stack) (hN : c.index < 2 ^ 31) (a : Addr) (b : Bool) :
    ∃ t' mark D, c.lookupAndRemove a b = .ok ((refDist stack a, mark), c.lookedUp t' a b) ∧
      Indexed c.aiMap (stack.erase a) ∧
      TreeInv (c.lookedUp t' a b) (live c.aiMap (stack.erase a)) D c.index (c.index - 1) := by
  obtain ⟨D, htree⟩ := h.tree
  by_cases ha : a ∈ stack
  · obtain ⟨x, hx⟩ := Option.isSome_iff_exists.mp (h.indexed.1 a ha)
    obtain ⟨hidx, hlive⟩ := h.indexed.erase ha hx (fun b _ => rfl)
    have hmem : x ∈ live c.aiMap stack := mem_live.mpr ⟨a, ha, hx⟩
    have htree1 : TreeInv (c.lookedUp c.tree a b) (live c.aiMap stack) D c.index (c.index - 1) :=
      htree.congr rfl rfl rfl
    obtain ⟨t', mark, hrun, htree'⟩ := removeLeaf_spec htree1 (by omega) hmem
    refine ⟨t', mark, D, ?_, hidx, hlive ▸ htree'⟩
    rw [lookupAndRemove, hx]
    apply hrun.trans
    rw [h.indexed.card_filter ha hx, refDist, if_pos ha]
    rfl
  · have hnone := h.aiMap_eq_none ha
    rw [erase_of_not_mem ha]
    refine ⟨c.tree, false, D, ?_, h.indexed, htree.congr rfl rfl rfl⟩
    rw [lookupAndRemove, hnone, refDist, if_neg ha]
    cases b with
    | true => rfl
    | false =>
      have hsame : update c.aiMap a none = c.aiMap := by
        rw [← hnone, update_eq_self]
      simp [lookedUp, hsame]

/-- What a call does to the debug stack. -/
def debugStep (debug : List Addr) : Call → List Addr
  | .calcStackDistAndUpdate addr true => addr :: debug.erase addr
  | .calcStackDistAndUpdate _ false => debug
  | .calcStackDist _ _ => debug

/-- The comparison of the call, if it makes one, finds equal distances. -/
def Agrees (c : StackDistCalc) (stack : List Addr) (x : Call) : Prop :=
  c.verifyStack = true → x.compares = true → refDist c.stack x.addr = refDist stack x.addr

/-- The calculator after a call that returned. -/
structure After (c c' : StackDistCalc) (stack : List Addr) (x : Call) : Prop where
  rep : Rep c' (refStep stack x)
  debug : c.verifyStack = true → c'.stack = debugStep c.stack x
  verify : c'.verifyStack = c.verifyStack
  index : c'.index = c.index + if x.inserts then 1 else 0

/-- The comparison of distances either passes or panics. -/
theorem compareStackDist_eq (c : StackDistCalc) (a : Addr) (b : Bool) (d : ℕ) :
    c.compareStackDist a b d = if refDist c.stack a = d
      then .ok (if b then { c with stack := a :: c.stack.erase a } else c)
      else .error (.stackDist a (refDist c.stack a) d) := by
  simp [compareStackDist, verifyStackDist_eq]

theorem verifyUpdate_eq {a : Addr} {d : ℕ} (hsane : c.sanityCheckTree c.index = .ok ()) :
    c.verifyUpdate a d = if c.verifyStack = true then
        if refDist c.stack a = d then .ok { c with stack := a :: c.stack.erase a }
        else .error (.stackDist a (refDist c.stack a) d)
      else .ok c := by
  rw [verifyUpdate, hsane, compareStackDist_eq]
  rfl

theorem verifyLookup_eq (c : StackDistCalc) (a : Addr) (d : ℕ) :
    c.verifyLookup a d = if c.verifyStack = true then
        if refDist c.stack a = d then .ok c else .error (.stackDist a (refDist c.stack a) d)
      else .ok c := by
  rw [verifyLookup, compareStackDist_eq]
  rfl

section

variable (h : Rep c stack)

include h

/-- An insertion, up to its comparison. -/
theorem insert_spec (hN : c.index < 2 ^ 31) (a : Addr) :
    ∃ (mark : Bool) (c1 : StackDistCalc), c.calcStackDistAndUpdate a true = (do
        let c ← c1.verifyUpdate a (refDist stack a)
        return ((refDist stack a, mark), { c with index := c.index + 1 })) ∧
      c1.sanityCheckTree c1.index = .ok () ∧ c1.stack = c.stack ∧
      c1.verifyStack = c.verifyStack ∧ c1.index = c.index ∧
      ∀ debug, Rep { c1 with stack := debug, index := c.index + 1 } (a :: stack.erase a) := by
  obtain ⟨t1, mark, D, hlook, hidx, htree⟩ := lookupAndRemove_spec h hN a true
  obtain ⟨D', t2, n2, hadd, htree2⟩ := addLeaf_spec htree rfl hN
  have ha : a ∉ stack.erase a := h.indexed.nodup.not_mem_erase
  obtain ⟨hidx', hlive'⟩ := hidx.push ha htree.live
  refine ⟨mark, (c.lookedUp t1 a true).reshape (D' + 1) t2 n2, ?_, ?_, rfl, rfl, rfl, ?_⟩
  · rw [calcStackDistAndUpdate, hlook, ok_bind]
    simp only [if_true]
    rw [hadd, ok_bind]
  · exact sanityCheckTree_spec htree2 (Finset.mem_insert_self _ _)
  · intro debug
    refine ⟨?_, hidx', D', ?_⟩
    · intro b hb
      by_cases hba : b = a
      · simp [hba]
      · have hb' : (c.aiMap b).isSome := by
          have hb : (update c.aiMap a (some c.index) b).isSome := hb
          rwa [update_of_ne hba] at hb
        exact mem_cons_of_mem _ ((mem_erase_of_ne hba).mpr (h.mem b hb'))
    · show TreeInv _ (live (update c.aiMap a (some c.index)) (a :: stack.erase a)) _ _ _
      rw [hlive']
      exact htree2.congr rfl rfl rfl

/-- A removal. -/
theorem remove_spec (hN : c.index < 2 ^ 31) (a : Addr) :
    ∃ mark c', c.calcStackDistAndUpdate a false = .ok ((refDist stack a, mark), c') ∧
      After c c' stack (.calcStackDistAndUpdate a false) := by
  obtain ⟨t', mark, D, hlook, hidx, htree⟩ := lookupAndRemove_spec h hN a false
  have hne : ∀ b ∈ stack.erase a, b ≠ a := fun b hb hba =>
    h.indexed.nodup.not_mem_erase (hba ▸ hb)
  have heq : ∀ b ∈ stack.erase a, c.aiMap b = update c.aiMap a none b := fun b hb =>
    (update_of_ne (hne b hb) ..).symm
  refine ⟨mark, c.lookedUp t' a false, ?_, ⟨?_, hidx.congr heq, D, ?_⟩, fun _ => rfl, rfl, rfl⟩
  · rw [calcStackDistAndUpdate, hlook]
    rfl
  · intro b hb
    have hb : (update c.aiMap a none b).isSome := hb
    by_cases hba : b = a
    · simp [hba] at hb
    · rw [update_of_ne hba] at hb
      exact (mem_erase_of_ne hba).mpr (h.mem b hb)
  · show TreeInv _ (live (update c.aiMap a none) (stack.erase a)) _ _ _
    rw [← live_congr heq]
    exact htree

/-- A lookup, up to its comparison. -/
theorem lookup_spec (a : Addr) (mark : Bool) :
    ∃ (wasMarked : Bool) (c1 : StackDistCalc), c.calcStackDist a mark = (do
        let c ← c1.verifyLookup a (refDist stack a)
        return ((refDist stack a, wasMarked), c)) ∧
      c1.stack = c.stack ∧ c1.verifyStack = c.verifyStack ∧ c1.index = c.index ∧ Rep c1 stack := by
  obtain ⟨D, htree⟩ := h.tree
  by_cases ha : a ∈ stack
  · obtain ⟨x, hx⟩ := Option.isSome_iff_exists.mp (h.indexed.1 a ha)
    have hmem : x ∈ live c.aiMap stack := mem_live.mpr ⟨a, ha, hx⟩
    obtain ⟨leaf, hleaf, -⟩ := htree.leaf x hmem
    have htree' := htree.mark hleaf mark
    refine ⟨leaf.isMarked, c.setNode 0 x (some { leaf with isMarked := mark }), ?_, rfl, rfl, rfl,
      h.mem, h.indexed, D, htree'⟩
    have hlook : c.lookupAndMark a mark = .ok ((refDist stack a, leaf.isMarked),
        c.setNode 0 x (some { leaf with isMarked := mark })) := by
      rw [lookupAndMark, hx]
      simp only [getNode_eq hleaf, ok_bind, htree'.getSumsLeavesToRoot_spec hmem]
      rw [h.indexed.card_filter ha hx, refDist, if_pos ha]
      rfl
    rw [calcStackDist, hlook, ok_bind]
  · refine ⟨false, c, ?_, rfl, rfl, rfl, h⟩
    have hlook : c.lookupAndMark a mark = .ok ((refDist stack a, false), c) := by
      rw [lookupAndMark, h.aiMap_eq_none ha, refDist, if_neg ha]
    rw [calcStackDist, hlook, ok_bind]

/-- A call whose comparison agrees returns the distance of the reference. -/
theorem call_ok (hN : c.index < 2 ^ 31) (hx : Agrees c stack x) :
    ∃ mark c', c.call x = .ok ((refDist stack x.addr, mark), c') ∧ After c c' stack x := by
  cases x with
  | calcStackDistAndUpdate a b =>
    cases b with
    | false => exact remove_spec h hN a
    | true =>
      obtain ⟨mark, c1, hcall, hsane, hstack, hverify, hindex, hrep⟩ := insert_spec h hN a
      -- the comparison passes, if there is one, and moves the address in the debug stack
      obtain ⟨debug, hpass, hdebug⟩ : ∃ debug,
          c1.verifyUpdate a (refDist stack a) = .ok { c1 with stack := debug } ∧
            (c.verifyStack = true → debug = a :: c.stack.erase a) := by
        rw [← hverify, ← hstack, verifyUpdate_eq hsane]
        split_ifs with hv hcmp
        · exact ⟨_, rfl, fun _ => rfl⟩
        · exact absurd (hstack ▸ hx (hverify ▸ hv) rfl) hcmp
        · exact ⟨c1.stack, rfl, fun hv' => absurd hv' hv⟩
      refine ⟨mark, { c1 with stack := debug, index := c1.index + 1 }, ?_, ?_, hdebug, hverify, ?_⟩
      · rw [call, hcall, hpass]
        rfl
      · rw [hindex]
        exact hrep debug
      · simp [Call.inserts, hindex]
  | calcStackDist a mark =>
    obtain ⟨wasMarked, c1, hcall, hstack, hverify, hindex, hrep⟩ := lookup_spec h a mark
    refine ⟨wasMarked, c1, ?_, hrep, fun _ => hstack, hverify, hindex⟩
    rw [call, hcall, verifyLookup_eq]
    rw [hverify, hstack]
    split_ifs with hv hcmp
    · rfl
    · exact absurd (hx hv rfl) hcmp
    · rfl

/-- A call whose comparison disagrees panics there. -/
theorem call_error (hN : c.index < 2 ^ 31) (hx : ¬ Agrees c stack x) :
    c.call x = .error (.stackDist x.addr (refDist c.stack x.addr) (refDist stack x.addr)) := by
  obtain ⟨hv, hcompares, hne⟩ : c.verifyStack = true ∧ x.compares = true ∧
      refDist c.stack x.addr ≠ refDist stack x.addr := by
    simpa [Agrees] using hx
  cases x with
  | calcStackDistAndUpdate a b =>
    cases b with
    | false => cases hcompares
    | true =>
      obtain ⟨mark, c1, hcall, hsane, hstack, hverify, hindex, -⟩ := insert_spec h hN a
      change refDist c.stack a ≠ refDist stack a at hne
      rw [verifyUpdate_eq hsane, hverify, if_pos hv, hstack, if_neg hne] at hcall
      exact hcall
  | calcStackDist a mark =>
    obtain ⟨wasMarked, c1, hcall, hstack, hverify, hindex, -⟩ := lookup_spec h a mark
    change refDist c.stack a ≠ refDist stack a at hne
    rw [verifyLookup_eq, hverify, if_pos hv, hstack, if_neg hne] at hcall
    exact hcall

end

/-! ## Sequences of calls -/

theorem insertions_cons (x : Call) (xs : List Call) :
    insertions (x :: xs) = (if x.inserts then 1 else 0) + insertions xs := by
  cases hx : x.inserts <;> simp [insertions, hx, Nat.add_comm]

theorem run_cons_ok {out : ℕ × Bool} {c' : StackDistCalc}
    (h : c.call x = .ok (out, c')) : c.run (x :: xs) = (out :: (c'.run xs).1, (c'.run xs).2) := by
  rw [run, h]

theorem run_cons_error {p : Panic} (h : c.call x = .error p) : c.run (x :: xs) = ([], some p) := by
  rw [run, h]

/-- A run from any represented state. -/
theorem run_spec {calls : List Call} (h : Rep c stack) (hN : c.index + insertions calls < 2 ^ 31) :
    ((c.run calls).1.map Prod.fst = (refDists stack calls).take (c.run calls).1.length) ∧
    ((c.run calls).2 = none → (c.run calls).1.length = calls.length) ∧
    (∀ p, (c.run calls).2 = some p →
      c.verifyStack = true ∧ ∃ addr d d', p = .stackDist addr d d') := by
  induction calls generalizing c stack with
  | nil => exact ⟨rfl, fun _ => rfl, fun p hp => by cases hp⟩
  | cons x xs ih =>
    rw [insertions_cons] at hN
    by_cases hx : Agrees c stack x
    · obtain ⟨mark, c', hcall, hafter⟩ := call_ok h (by omega) hx
      have hN' : c'.index + insertions xs < 2 ^ 31 := by
        rw [hafter.index]
        omega
      obtain ⟨hdists, hlen, hpanic⟩ := ih hafter.rep hN'
      rw [run_cons_ok hcall]
      refine ⟨?_, ?_, ?_⟩
      · simp [refDists, hdists]
      · intro hnone
        simp [hlen hnone]
      · intro p hp
        rw [← hafter.verify]
        exact hpanic p hp
    · rw [run_cons_error (call_error h (by omega) hx)]
      refine ⟨rfl, fun hnone => by simp at hnone, ?_⟩
      intro p hp
      cases hp
      exact ⟨by_contra fun hv => hx fun hv' => absurd hv' hv, _, _, _, rfl⟩

/-- **The calculator equals the naive stack.**  For every sequence of calls with fewer than
`2 ^ 31` insertions, the distances are those of the reference stack, call by call.  Every call
returns, or with `verifyStack` the comparison with the debug stack stops the sequence. -/
theorem calcStackDist_eq_reference (verifyStack : Bool) (calls : List Call)
    (hcalls : insertions calls < 2 ^ 31) :
    (((StackDistCalc.init verifyStack).run calls).1.map Prod.fst
      = (refDists [] calls).take ((StackDistCalc.init verifyStack).run calls).1.length) ∧
    (((StackDistCalc.init verifyStack).run calls).2 = none →
      ((StackDistCalc.init verifyStack).run calls).1.length = calls.length) ∧
    (∀ p, ((StackDistCalc.init verifyStack).run calls).2 = some p →
      verifyStack = true ∧ ∃ addr d d', p = .stackDist addr d d') := by
  have hindex : (init verifyStack).index = 0 := rfl
  exact run_spec (rep_init verifyStack) (by rwa [hindex, Nat.zero_add])

/-- Three addresses, one of them moved to the top, one removed. -/
def someCalls : List Call :=
  [.calcStackDistAndUpdate 10 true, .calcStackDistAndUpdate 20 true,
   .calcStackDistAndUpdate 30 true, .calcStackDistAndUpdate 10 true,
   .calcStackDist 20 true, .calcStackDistAndUpdate 30 false, .calcStackDist 20 false]

theorem calcStackDist_eq_reference_three : insertions someCalls < 2 ^ 31 ∧
    (((StackDistCalc.init false).run someCalls).1.map Prod.fst
      = (refDists [] someCalls).take ((StackDistCalc.init false).run someCalls).1.length) :=
  ⟨by decide, (calcStackDist_eq_reference false someCalls (by decide)).1⟩

end StackDist
