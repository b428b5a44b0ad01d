/-
# The shape of the trie

What every node of a well-formed trie satisfies (`Ok`).  It looks at a node, its
kids and its parent only; `Ok.congr` is the frame rule for the nodes an operation
leaves alone.
-/
import Gem5.Trie
import Gem5.LeadingBits

open Function Option

namespace Trie

variable {w : ℕ} {α : Type} {k l : Handle} {j : Bool}

/-! ## Nodes -/

namespace Node

/-- The number of bits of the prefix of a node. -/
def width (n : Node w α) : ℕ := maskWidth n.mask

variable (n : Node w α)

theorem width_le : n.width ≤ w := maskWidth_le _

/-- The prefix of `m` properly extends the prefix of `n`. -/
structure Below (n m : Node w α) : Prop where
  width_lt : n.width < m.width
  agree : Agree n.width n.key m.key

/-- The same prefix and the same parent; values and kids may differ. -/
structure Same (n m : Node w α) : Prop where
  key : m.key = n.key
  mask : m.mask = n.mask
  parent : m.parent = n.parent

theorem Same.width {n m : Node w α} (h : n.Same m) : m.width = n.width := by
  rw [Node.width, Node.width, h.mask]

theorem Same.refl : n.Same n := ⟨rfl, rfl, rfl⟩

theorem Same.trans {n m l : Node w α} (h1 : n.Same m) (h2 : m.Same l) : n.Same l :=
  ⟨h2.key.trans h1.key, h2.mask.trans h1.mask, h2.parent.trans h1.parent⟩

theorem same_setKid (i : Bool) (k : Option Handle) : n.Same (n.setKid i k) := by
  cases i <;> exact ⟨rfl, rfl, rfl⟩

theorem same_setValue (v : Option α) : n.Same (n.setValue v) := ⟨rfl, rfl, rfl⟩

theorem kids_setKid_self (i : Bool) (k : Option Handle) : (n.setKid i k).kids i = k := by
  cases i <;> rfl

theorem kids_setKid_ne {i : Bool} (k : Option Handle) (h : j ≠ i) :
    (n.setKid i k).kids j = n.kids j := by
  cases i <;> cases j <;> simp_all [kids, setKid]

theorem exists_kid_setKid {i : Bool} {x : Option Handle} (hj : n.kids j = some k)
    (hi : n.kids i ≠ some k) : ∃ l, (n.setKid i x).kids l = some k := by
  refine ⟨j, (n.kids_setKid_ne x ?_).trans hj⟩
  rintro rfl
  exact hi hj

theorem lone_kid (hfst : n.kids false = some k)
    (hsnd : n.kids true = none) (hl : n.kids j = some l) : l = k := by
  cases j with
  | false => exact mem_unique hl hfst
  | true =>
    rw [hsnd] at hl
    cases hl

@[simp] theorem kids_setValue (v : Option α) (i : Bool) : (n.setValue v).kids i = n.kids i := by
  cases i <;> rfl

@[simp] theorem kids_setParent (q : Option Handle) (i : Bool) :
    (n.setParent q).kids i = n.kids i := by
  cases i <;> rfl

@[simp] theorem value_setKid (i : Bool) (k : Option Handle) : (n.setKid i k).value = n.value := by
  cases i <;> rfl

theorem Below.trans {n m l : Node w α} (h1 : n.Below m) (h2 : m.Below l) : n.Below l :=
  ⟨h1.width_lt.trans h2.width_lt, h1.agree.trans (h2.agree.mono h1.width_lt.le)⟩

/-- The first bit after a prefix is decided by the kid it leads to. -/
theorem Below.bit_eq {n m l : Node w α} (h1 : n.Below m) (h2 : m.Below l) :
    l.key.getMsbD n.width = m.key.getMsbD n.width :=
  (h2.agree n.width h1.width_lt).symm

theorem Below.same_right {n m m' : Node w α} (h : n.Below m) (hs : m.Same m') : n.Below m' :=
  ⟨hs.width ▸ h.width_lt, hs.key ▸ h.agree⟩

theorem Below.same_left {n n' m : Node w α} (h : n.Below m) (hs : n.Same n') : n'.Below m := by
  refine ⟨hs.width ▸ h.width_lt, ?_⟩
  rw [hs.width, hs.key]
  exact h.agree

end Node

/-! ## Well-formed nodes -/

/-- The contents of the nodes. -/
abbrev Heap (w : ℕ) (α : Type) := Handle → Option (Node w α)

/-- `k` is a kid of `q`. -/
def Edge (r : Heap w α) (q k : Handle) : Prop := ∃ n i, r q = some n ∧ n.kids i = some k

/-- The kids of the node `n` at `p`: they point back to it, continue its prefix
and differ in the next bit, and a second kid comes with a first one. -/
structure Legs (r : Heap w α) (p : Handle) (n : Node w α) : Prop where
  kid : ∀ {i k}, n.kids i = some k → ∃ m, r k = some m ∧ m.parent = some p ∧ n.Below m
  sides : ∀ {k l m m'}, n.kids false = some k → n.kids true = some l →
    r k = some m → r l = some m' → m.key.getMsbD n.width ≠ m'.key.getMsbD n.width
  first : n.kids false = none → n.kids true = none

/-- The node `n` at `p` is well formed. -/
structure Ok (r : Heap w α) (p : Handle) (n : Node w α) : Prop extends Legs r p n where
  mask_eq : n.mask = leading w n.width
  key_eq : n.key &&& n.mask = n.key
  up : p ≠ head → ∃ q, n.parent = some q ∧ Edge r q p
  root : p = head → n.mask = 0 ∧ n.value = none ∧ n.parent = none

/-- A well-formed trie; an internal node may still miss its second kid. -/
structure Shape (r : Heap w α) : Prop where
  root : ∃ n, r head = some n
  ok : ∀ {p n}, r p = some n → Ok r p n

variable {r r' : Heap w α} {p q : Handle} {n n' : Node w α} {i : Bool} {m : Node w α}

namespace Legs

/-- The kids may change their values and their own kids. -/
theorem congr (h : Legs r p n)
    (hkids : ∀ {i k m}, n.kids i = some k → r k = some m → ∃ m', r' k = some m' ∧ m.Same m') :
    Legs r' p n where
  kid := by
    intro i k hk
    obtain ⟨m, hm, hpar, hbelow⟩ := h.kid hk
    obtain ⟨m', hm', hsame⟩ := hkids hk hm
    exact ⟨m', hm', hsame.parent.trans hpar, hbelow.same_right hsame⟩
  sides := by
    intro k l m m' hk hl hm hm'
    obtain ⟨m0, hm0, -⟩ := h.kid hk
    obtain ⟨m1, hm1, -⟩ := h.kid hl
    obtain ⟨m0', hm0', hs0⟩ := hkids hk hm0
    obtain ⟨m1', hm1', hs1⟩ := hkids hl hm1
    rw [hm] at hm0'
    rw [hm'] at hm1'
    cases hm0'
    cases hm1'
    rw [hs0.key, hs1.key]
    exact h.sides hk hl hm0 hm1
  first := h.first

/-- The node itself may change its value and its parent. -/
theorem relabel (h : Legs r p n) (hkey : n'.key = n.key) (hmask : n'.mask = n.mask)
    (hkids : ∀ i, n'.kids i = n.kids i) : Legs r p n' := by
  have hwidth : n'.width = n.width := by rw [Node.width, Node.width, hmask]
  refine ⟨?_, ?_, ?_⟩
  · intro i k hk
    rw [hkids] at hk
    obtain ⟨m, hm, hpar, hlt, hagree⟩ := h.kid hk
    refine ⟨m, hm, hpar, by rwa [hwidth], ?_⟩
    rw [hwidth, hkey]
    exact hagree
  · intro k l m m' hk hl
    rw [hkids] at hk hl
    rw [hwidth]
    exact h.sides hk hl
  · rw [hkids, hkids]
    exact h.first

theorem sides_ne (h : Legs r p n) {m m' : Node w α} (hij : j ≠ i)
    (hk : n.kids i = some k) (hl : n.kids j = some l) (hm : r k = some m) (hm' : r l = some m') :
    m'.key.getMsbD n.width ≠ m.key.getMsbD n.width := by
  cases i <;> cases j
  · exact absurd rfl hij
  · exact (h.sides hk hl hm hm').symm
  · exact h.sides hl hk hm' hm
  · exact absurd rfl hij

/-- A new kid on one side: it must continue the prefix and differ from the kid
on the other side. -/
theorem setKid (h : Legs r p n) (hm : r' k = some m) (hpar : m.parent = some p) (hbelow : n.Below m)
    (hkids : ∀ {j l m1}, j ≠ i → n.kids j = some l → r l = some m1 →
      ∃ m2, r' l = some m2 ∧ m1.Same m2 ∧ m1.key.getMsbD n.width ≠ m.key.getMsbD n.width)
    (hfirst : i = true → n.kids false ≠ none) : Legs r' p (n.setKid i (some k)) := by
  have hs := n.same_setKid i (some k)
  have hself := n.kids_setKid_self i (some k)
  refine ⟨?_, ?_, ?_⟩
  · intro j l hl
    by_cases hj : j = i
    · subst hj
      rw [hself] at hl
      cases hl
      exact ⟨m, hm, hpar, hbelow.same_left hs⟩
    · rw [n.kids_setKid_ne _ hj] at hl
      obtain ⟨m1, hm1, hpar1, hbelow1⟩ := h.kid hl
      obtain ⟨m2, hm2, hsame, -⟩ := hkids hj hl hm1
      exact ⟨m2, hm2, hsame.parent.trans hpar1, (hbelow1.same_right hsame).same_left hs⟩
  · intro l0 l1 m0 m1 hl0 hl1 hm0 hm1
    -- one of the two sides is the new kid
    have hother : ∀ {j l m'}, j ≠ i → n.kids j = some l → r' l = some m' →
        m'.key.getMsbD n.width ≠ m.key.getMsbD n.width := by
      intro j l m' hj hl hm'
      obtain ⟨m3, hm3, -⟩ := h.kid hl
      obtain ⟨m4, hm4, hsame, hbit⟩ := hkids hj hl hm3
      obtain rfl := mem_unique hm' hm4
      rw [hsame.key]
      exact hbit
    cases i with
    | false =>
      cases hl0
      obtain rfl := mem_unique hm hm0
      exact (hother (j := true) (by simp) hl1 hm1).symm
    | true =>
      cases hl1
      obtain rfl := mem_unique hm hm1
      exact hother (j := false) (by simp) hl0 hm0
  · intro hnone
    cases i with
    | false =>
      cases hnone
    | true =>
      exact absurd hnone (hfirst rfl)

/-- At most a first kid. -/
theorem of_first (hfst : ∀ {k}, n.kids false = some k →
    ∃ m, r k = some m ∧ m.parent = some p ∧ n.Below m) (hsnd : n.kids true = none) :
    Legs r p n where
  kid := by
    intro i k hk
    cases i with
    | false => exact hfst hk
    | true =>
      rw [hsnd] at hk
      cases hk
  sides := by
    intro _ _ _ _ _ hl
    rw [hsnd] at hl
    cases hl
  first := fun _ => hsnd

end Legs

namespace Ok

/-- **Frame rule**: a node only depends on the prefixes and parent pointers of
its kids and on being a kid of its parent. -/
theorem congr (h : Ok r p n)
    (hkids : ∀ {i k m}, n.kids i = some k → r k = some m → ∃ m', r' k = some m' ∧ m.Same m')
    (hup : ∀ {q}, n.parent = some q → Edge r q p → Edge r' q p) : Ok r' p n where
  toLegs := h.toLegs.congr hkids
  mask_eq := h.mask_eq
  key_eq := h.key_eq
  up := by
    intro hp
    obtain ⟨q, hq, hedge⟩ := h.up hp
    exact ⟨q, hq, hup hq hedge⟩
  root := h.root

/-- A node that keeps its prefix and its parent is checked at its kids. -/
theorem rebuild (h : Ok r p n) (hs : n.Same n') (hlegs : Legs r' p n')
    (hvalue : p = head → n'.value = none)
    (hup : ∀ {q}, n.parent = some q → Edge r q p → Edge r' q p) : Ok r' p n' where
  toLegs := hlegs
  mask_eq := by rw [hs.width, hs.mask, h.mask_eq.symm]
  key_eq := by rw [hs.key, hs.mask, h.key_eq]
  up := by
    intro hp
    obtain ⟨q, hq, hedge⟩ := h.up hp
    exact ⟨q, hs.parent.trans hq, hup hq hedge⟩
  root := by
    intro hp
    rw [hs.mask, hs.parent]
    exact ⟨(h.root hp).1, hvalue hp, (h.root hp).2.2⟩

/-- A node with a new parent. -/
theorem reparent (h : Ok r p n) (hp : p ≠ head) (hedge : Edge r' q p)
    (hkids : ∀ {i k m}, n.kids i = some k → r k = some m → ∃ m', r' k = some m' ∧ m.Same m') :
    Ok r' p (n.setParent (some q)) where
  toLegs := (h.toLegs.congr hkids).relabel rfl rfl (n.kids_setParent _)
  mask_eq := h.mask_eq
  key_eq := h.key_eq
  up := fun _ => ⟨q, rfl, hedge⟩
  root := fun hhead => absurd hhead hp

end Ok

namespace Shape

variable (h : Shape r)

include h

theorem width_head (hn : r head = some n) : n.width = 0 := by
  rw [Node.width, ((h.ok hn).root rfl).1, ← leading_zero, maskWidth_leading (Nat.zero_le w)]

/-- A kid knows its parent. -/
theorem parent_of_edge (he : Edge r q p) (hm : r p = some m) : m.parent = some q := by
  obtain ⟨n, i, hn, hi⟩ := he
  obtain ⟨m', hm', hpar, -⟩ := (h.ok hn).kid hi
  obtain rfl := mem_unique hm hm'
  exact hpar

theorem below_of_kid (hn : r p = some n) (hi : n.kids i = some q) (hm : r q = some m) :
    n.Below m := by
  obtain ⟨m', hm', -, hbelow⟩ := (h.ok hn).kid hi
  obtain rfl := mem_unique hm hm'
  exact hbelow

/-- The head is nobody's kid. -/
theorem ne_head_of_edge (he : Edge r q p) : p ≠ head := by
  rintro rfl
  obtain ⟨n, hn⟩ := h.root
  have hpar := ((h.ok hn).root rfl).2.2
  rw [h.parent_of_edge he hn] at hpar
  cases hpar

/-- A node hangs below one node only. -/
theorem edge_unique (hp : Edge r p k) (hq : Edge r q k) : p = q := by
  obtain ⟨n, i, hn, hi⟩ := hp
  obtain ⟨m, hm, hpar, -⟩ := (h.ok hn).kid hi
  exact mem_unique hpar (h.parent_of_edge hq hm)

/-- The two kids are different nodes. -/
theorem kid_ne (hn : r p = some n) (hij : j ≠ i)
    (hl : n.kids j = some l) (hk : n.kids i = some k) : l ≠ k := by
  rintro rfl
  obtain ⟨m, hm, -⟩ := (h.ok hn).kid hk
  exact (h.ok hn).sides_ne hij hk hl hm hm rfl

theorem lone_side (hn : r p = some n) (hi : n.kids i = some k) :
    i = true → n.kids false ≠ some k := by
  rintro rfl hfalse
  exact h.kid_ne hn (by simp) hfalse hi rfl

theorem lone_first (hn : r p = some n) (hk : n.kids true = some k) : n.kids false ≠ none := by
  intro hnone
  rw [(h.ok hn).first hnone] at hk
  cases hk

end Shape

/-! ## Edits

An edit gives nodes another parent or takes them away.  `Keeps` says so for
the edit as a whole: the other nodes keep their prefix, their parent and their
place below it.  The nodes an edit does not touch are then well formed by
`Keeps.frame`, and each edit is checked at the nodes it writes.
-/

/-- All nodes but the `moved` ones keep their prefix, their parent and their
place. -/
structure Keeps (r r' : Heap w α) (moved : Handle → Prop) : Prop where
  node : ∀ {p n}, r p = some n → ¬ moved p → ∃ n', r' p = some n' ∧ n.Same n'
  edge : ∀ {p q}, ¬ moved p → Edge r q p → Edge r' q p

namespace Keeps

variable {moved : Handle → Prop}

/-- One look at each node: it is still there with the kids that are not moved,
or it goes away and all its kids are moved. -/
theorem of_nodes (h : ∀ {p n}, r p = some n → (∃ n', r' p = some n' ∧ (¬ moved p → n.Same n') ∧
        ∀ {i k}, n.kids i = some k → ¬ moved k → ∃ j, n'.kids j = some k) ∨
      (moved p ∧ ∀ {i k}, n.kids i = some k → moved k)) : Keeps r r' moved where
  node := by
    intro p n hn hp
    obtain ⟨n', hn', hsame, -⟩ | ⟨hmoved, -⟩ := h hn
    · exact ⟨n', hn', hsame hp⟩
    · exact absurd hmoved hp
  edge := by
    rintro p q hp ⟨n, i, hn, hi⟩
    obtain ⟨n', hn', -, hkids⟩ | ⟨-, hmoved⟩ := h hn
    · obtain ⟨j, hj⟩ := hkids hi hp
      exact ⟨n', j, hn', hj⟩
    · exact absurd (hmoved hi) hp

variable (hkeeps : Keeps r r' moved)

include hkeeps

theorem root (h : Shape r) (hhead : ¬ moved head) : ∃ n, r' head = some n := by
  obtain ⟨n, hn⟩ := h.root
  obtain ⟨n', hn', -⟩ := hkeeps.node hn hhead
  exact ⟨n', hn'⟩

/-- A node that stays where it is, as do its kids. -/
theorem frame (hok : Ok r p n) (hp : ¬ moved p) (hkids : ∀ {i k}, n.kids i = some k → ¬ moved k) :
    Ok r' p n :=
  hok.congr (fun hk hm => hkeeps.node hm (hkids hk)) (fun _ he => hkeeps.edge hp he)

/-- A node that stays where it is, with other kids. -/
theorem rebuild (hok : Ok r p n) (hp : ¬ moved p) (hs : n.Same n') (hvalue : n'.value = n.value)
    (hlegs : Legs r' p n') : Ok r' p n' :=
  hok.rebuild hs hlegs (fun hhead => hvalue.trans (hok.root hhead).2.1)
    (fun _ he => hkeeps.edge hp he)

/-- A node that moves below another one and takes its kids along. -/
theorem reparent (hok : Ok r p n) (hp : p ≠ head) (hedge : Edge r' q p)
    (hkids : ∀ {i k}, n.kids i = some k → ¬ moved k) : Ok r' p (n.setParent (some q)) :=
  hok.reparent hp hedge (fun hk hm => hkeeps.node hm (hkids hk))

end Keeps

theorem ne_of_below (h : n.Below n') (hp : r p = some n) (hq : r q = some n') : p ≠ q := by
  rintro rfl
  obtain rfl := mem_unique hp hq
  exact lt_irrefl _ h.width_lt

theorem ne_of_unused (hq : r q = none) (hp : r p = some n) : p ≠ q := by
  rintro rfl
  rw [hq] at hp
  cases hp

namespace Shape

variable (h : Shape r)

include h

theorem unused_ne_head (hp : r p = none) : p ≠ head := by
  obtain ⟨n, hn⟩ := h.root
  exact (ne_of_unused hp hn).symm

/-- Changing the value of a node other than the head. -/
theorem setValue (hn : r p = some n) (hp : p ≠ head) (v : Option α) :
    Shape (update r p (some (n.setValue v))) := by
  have hkeeps : Keeps r (update r p (some (n.setValue v))) (fun _ => False) := by
    apply Keeps.of_nodes
    intro q m hm
    left
    by_cases hq : q = p
    · subst hq
      obtain rfl := mem_unique hn hm
      exact ⟨n.setValue v, update_self _ _ _, fun _ => n.same_setValue v,
        fun hi _ => ⟨_, (n.kids_setValue v _).trans hi⟩⟩
    · exact ⟨m, (update_of_ne hq _ _).trans hm, fun _ => Node.Same.refl m, fun hi _ => ⟨_, hi⟩⟩
  refine ⟨hkeeps.root h not_false, ?_⟩
  intro q m hm
  by_cases hq : q = p
  · subst hq
    rw [update_self] at hm
    cases hm
    have hok := hkeeps.frame (h.ok hn) not_false (fun _ => not_false)
    have hlegs : Legs _ q (n.setValue v) := hok.toLegs.relabel rfl rfl (n.kids_setValue v)
    exact hok.rebuild (n.same_setValue v) hlegs (fun hhead => absurd hhead hp) (fun _ he => he)
  · rw [update_of_ne hq] at hm
    exact hkeeps.frame (h.ok hm) not_false (fun _ => not_false)

/-- Hanging a new leaf below a node on a free side. -/
theorem addLeaf {node new : Handle} {leaf : Node w α}
    (hn : r node = some n) (hi : n.kids i = none) (hnew : r new = none)
    (hnode' : r' node = some (n.setKid i (some new))) (hnew' : r' new = some leaf)
    (hother : ∀ {p}, p ≠ node → p ≠ new → r' p = r p)
    (hmask : leaf.mask = leading w leaf.width) (hkey : leaf.key &&& leaf.mask = leaf.key)
    (hparent : leaf.parent = some node) (hleaf : ∀ j, leaf.kids j = none) (hbelow : n.Below leaf)
    (hside : ∀ {j l m}, j ≠ i → n.kids j = some l → r l = some m →
      m.key.getMsbD n.width ≠ leaf.key.getMsbD n.width)
    (hfirst : i = true → n.kids false ≠ none) : Shape r' := by
  have hkeeps : Keeps r r' (fun _ => False) := by
    apply Keeps.of_nodes
    intro q m hm
    left
    by_cases hq : q = node
    · subst hq
      obtain rfl := mem_unique hn hm
      refine ⟨_, hnode', fun _ => n.same_setKid _ _, ?_⟩
      intro j k hj _
      exact n.exists_kid_setKid hj (by simp [hi])
    · exact ⟨m, (hother hq (ne_of_unused hnew hm)).trans hm, fun _ => Node.Same.refl m,
        fun hj _ => ⟨_, hj⟩⟩
  refine ⟨hkeeps.root h not_false, ?_⟩
  intro p m hm
  by_cases hpnode : p = node
  · subst hpnode
    obtain rfl := mem_unique hnode' hm
    apply hkeeps.rebuild (h.ok hn) not_false (n.same_setKid _ _) (n.value_setKid _ _)
    refine (h.ok hn).setKid hnew' hparent hbelow ?_ hfirst
    intro j l m1 hj hl hm1
    obtain ⟨m2, hm2, hs⟩ := hkeeps.node hm1 not_false
    exact ⟨m2, hm2, hs, hside hj hl hm1⟩
  by_cases hpnew : p = new
  · subst hpnew
    obtain rfl := mem_unique hnew' hm
    have hlegs : Legs r' p leaf := by
      refine Legs.of_first ?_ (hleaf true)
      intro k hk
      rw [hleaf] at hk
      cases hk
    exact ⟨hlegs, hmask, hkey, fun _ => ⟨node, hparent, _, i, hnode', n.kids_setKid_self i _⟩,
      fun hp => absurd hp (h.unused_ne_head hnew)⟩
  · rw [hother hpnode hpnew] at hm
    exact hkeeps.frame (h.ok hm) not_false (fun _ => not_false)

/-- Putting a new node between a node and its kid. -/
theorem splitLeg {node new kid : Handle} {k mid : Node w α} (hn : r node = some n)
    (hi : n.kids i = some kid) (hk : r kid = some k) (hnew : r new = none)
    (hnode' : r' node = some (n.setKid i (some new))) (hnew' : r' new = some mid)
    (hkid' : r' kid = some (k.setParent (some new)))
    (hother : ∀ {p}, p ≠ node → p ≠ new → p ≠ kid → r' p = r p)
    (hmask : mid.mask = leading w mid.width) (hkey : mid.key &&& mid.mask = mid.key)
    (hparent : mid.parent = some node) (hfst : mid.kids false = some kid)
    (hsnd : mid.kids true = none) (habove : n.Below mid) (hbelow : mid.Below k) : Shape r' := by
  have hedge : Edge r node kid := ⟨n, i, hn, hi⟩
  have hnk : node ≠ kid := ne_of_below (habove.trans hbelow) hn hk
  have hkeeps : Keeps r r' (· = kid) := by
    apply Keeps.of_nodes
    intro q m hm
    left
    by_cases hq : q = node
    · subst hq
      obtain rfl := mem_unique hn hm
      refine ⟨_, hnode', fun _ => n.same_setKid _ _, ?_⟩
      intro j l hj hl
      exact n.exists_kid_setKid hj (by simpa [hi] using Ne.symm hl)
    by_cases hqk : q = kid
    · subst hqk
      obtain rfl := mem_unique hk hm
      exact ⟨_, hkid', fun hne => absurd rfl hne, fun hj _ => ⟨_, (k.kids_setParent _ _).trans hj⟩⟩
    · exact ⟨m, (hother hq (ne_of_unused hnew hm) hqk).trans hm, fun _ => Node.Same.refl m,
        fun hj _ => ⟨_, hj⟩⟩
  -- only `node` has `kid` below it
  have hstay : ∀ {p m j l}, r p = some m → p ≠ node → m.kids j = some l → l ≠ kid := by
    rintro p m j l hm hp hl rfl
    exact hp (h.edge_unique ⟨m, j, hm, hl⟩ hedge)
  refine ⟨hkeeps.root h (h.ne_head_of_edge hedge).symm, ?_⟩
  intro p m hm
  by_cases hpnode : p = node
  · subst hpnode
    obtain rfl := mem_unique hnode' hm
    apply hkeeps.rebuild (h.ok hn) hnk (n.same_setKid _ _) (n.value_setKid _ _)
    refine (h.ok hn).setKid hnew' hparent habove ?_ ?_
    · intro j l m1 hj hl hm1
      obtain ⟨m2, hm2, hs⟩ := hkeeps.node hm1 (h.kid_ne hn hj hl hi)
      refine ⟨m2, hm2, hs, ?_⟩
      rw [← habove.bit_eq hbelow]
      exact (h.ok hn).sides_ne hj hi hl hk hm1
    · rintro rfl
      exact h.lone_first hn hi
  by_cases hpnew : p = new
  · subst hpnew
    obtain rfl := mem_unique hnew' hm
    have hlegs : Legs r' p mid := by
      refine Legs.of_first ?_ hsnd
      intro l hl
      obtain rfl := mem_unique hfst hl
      exact ⟨_, hkid', rfl, hbelow.width_lt, hbelow.agree⟩
    exact ⟨hlegs, hmask, hkey, fun _ => ⟨node, hparent, _, i, hnode', n.kids_setKid_self i _⟩,
      fun hp => absurd hp (h.unused_ne_head hnew)⟩
  by_cases hpk : p = kid
  · subst hpk
    obtain rfl := mem_unique hkid' hm
    exact hkeeps.reparent (h.ok hk) (h.ne_head_of_edge hedge) ⟨mid, false, hnew', hfst⟩
      (hstay hk hpnode)
  · rw [hother hpnode hpnew hpk] at hm
    exact hkeeps.frame (h.ok hm) hpk (hstay hm hpnode)

/-- Taking a leaf away; the kid left over, if any, becomes the first one. -/
theorem dropLeaf {leaf : Handle} {l m m' : Node w α} (hl : r leaf = some l)
    (hleaf : ∀ j, l.kids j = none) (hm : r q = some m) (hi : m.kids i = some leaf)
    (hleaf' : r' leaf = none) (hq' : r' q = some m') (hother : ∀ {p}, p ≠ leaf → p ≠ q → r' p = r p)
    (hs : m.Same m') (hvalue : m'.value = m.value) (hfst : m'.kids false = m.kids (!i))
    (hsnd : m'.kids true = none) : Shape r' := by
  have hedge : Edge r q leaf := ⟨m, i, hm, hi⟩
  have hkeeps : Keeps r r' (· = leaf) := by
    apply Keeps.of_nodes
    intro p n hn
    by_cases hpq : p = q
    · subst hpq
      obtain rfl := mem_unique hm hn
      refine .inl ⟨m', hq', fun _ => hs, ?_⟩
      intro j k hj hk
      -- a kid other than the leaf is on the other side
      have hji : j = !i := by
        apply Bool.eq_not_of_ne
        rintro rfl
        exact hk (mem_unique hj hi)
      exact ⟨false, by rw [hfst, ← hji, hj]⟩
    by_cases hpl : p = leaf
    · subst hpl
      obtain rfl := mem_unique hl hn
      refine .inr ⟨rfl, ?_⟩
      intro j k hj
      rw [hleaf] at hj
      cases hj
    · exact .inl ⟨n, (hother hpl hpq).trans hn, fun _ => Node.Same.refl n, fun hj _ => ⟨_, hj⟩⟩
  refine ⟨hkeeps.root h (h.ne_head_of_edge hedge).symm, ?_⟩
  intro p n hn
  have hpl : p ≠ leaf := ne_of_unused hleaf' hn
  by_cases hpq : p = q
  · subst hpq
    obtain rfl := mem_unique hq' hn
    refine hkeeps.rebuild (h.ok hm) hpl hs hvalue (Legs.of_first ?_ hsnd)
    intro k hk
    rw [hfst] at hk
    obtain ⟨n, hn, hpar, hbelow⟩ := (h.ok hm).kid hk
    obtain ⟨n', hn', hsn⟩ := hkeeps.node hn (h.kid_ne hm (by simp) hk hi)
    exact ⟨n', hn', hsn.parent.trans hpar, (hbelow.same_right hsn).same_left hs⟩
  · rw [hother hpl hpq] at hn
    apply hkeeps.frame (h.ok hn) hpl
    rintro j k hk rfl
    exact hpq (h.edge_unique ⟨n, j, hn, hk⟩ hedge)

/-- Putting the only kid of a node in the place of the node. -/
theorem splice {node kid : Handle} {k m : Node w α} (hn : r node = some n)
    (hfst : n.kids false = some kid) (hsnd : n.kids true = none) (hk : r kid = some k)
    (hm : r q = some m) (hi : m.kids i = some node) (hnode' : r' node = none)
    (hq' : r' q = some (m.setKid i (some kid))) (hkid' : r' kid = some (k.setParent (some q)))
    (hother : ∀ {p}, p ≠ node → p ≠ q → p ≠ kid → r' p = r p) : Shape r' := by
  have hedge : Edge r q node := ⟨m, i, hm, hi⟩
  have hedge1 : Edge r node kid := ⟨n, false, hn, hfst⟩
  have habove : m.Below n := h.below_of_kid hm hi hn
  have hbelow : n.Below k := h.below_of_kid hn hfst hk
  have hqn : q ≠ node := ne_of_below habove hm hn
  have hqk : q ≠ kid := ne_of_below (habove.trans hbelow) hm hk
  have hkeeps : Keeps r r' (fun p => p = node ∨ p = kid) := by
    apply Keeps.of_nodes
    intro p l hl
    by_cases hpq : p = q
    · subst hpq
      obtain rfl := mem_unique hm hl
      refine .inl ⟨_, hq', fun _ => m.same_setKid _ _, ?_⟩
      intro j o hj ho
      apply m.exists_kid_setKid hj
      rw [hi]
      rintro ⟨⟩
      exact ho (.inl rfl)
    by_cases hpn : p = node
    · subst hpn
      obtain rfl := mem_unique hn hl
      refine .inr ⟨.inl rfl, ?_⟩
      intro j o hj
      exact .inr (n.lone_kid hfst hsnd hj)
    by_cases hpk : p = kid
    · subst hpk
      obtain rfl := mem_unique hk hl
      exact .inl ⟨_, hkid', fun hne => absurd (.inr rfl) hne,
        fun hj _ => ⟨_, (k.kids_setParent _ _).trans hj⟩⟩
    · exact .inl ⟨l, (hother hpn hpq hpk).trans hl, fun _ => Node.Same.refl l, fun hj _ => ⟨_, hj⟩⟩
  -- neither the node nor its kid hangs below any other node
  have hstay : ∀ {p l j o}, r p = some l → p ≠ node → p ≠ q → l.kids j = some o →
      ¬ (o = node ∨ o = kid) := by
    rintro p l j o hl hpn hpq ho (rfl | rfl)
    · exact hpq (h.edge_unique ⟨l, j, hl, ho⟩ hedge)
    · exact hpn (h.edge_unique ⟨l, j, hl, ho⟩ hedge1)
  constructor
  · apply hkeeps.root h
    rintro (hhead | hhead)
    · exact h.ne_head_of_edge hedge hhead.symm
    · exact h.ne_head_of_edge hedge1 hhead.symm
  intro p l hl
  have hpn : p ≠ node := ne_of_unused hnode' hl
  by_cases hpq : p = q
  · subst hpq
    obtain rfl := mem_unique hq' hl
    refine hkeeps.rebuild (h.ok hm) (not_or.mpr ⟨hqn, hqk⟩) (m.same_setKid _ _)
      (m.value_setKid _ _) ?_
    have hbelow' := habove.trans hbelow
    refine (h.ok hm).setKid hkid' rfl ⟨hbelow'.width_lt, hbelow'.agree⟩ ?_ ?_
    · intro j o m1 hj ho hm1
      have hok : o ≠ kid := by
        rintro rfl
        exact hqn (h.edge_unique ⟨m, j, hm, ho⟩ hedge1)
      obtain ⟨m2, hm2, hs⟩ := hkeeps.node hm1 (not_or.mpr ⟨h.kid_ne hm hj ho hi, hok⟩)
      refine ⟨m2, hm2, hs, ?_⟩
      show _ ≠ k.key.getMsbD m.width
      rw [habove.bit_eq hbelow]
      exact (h.ok hm).sides_ne hj hi ho hn hm1
    · rintro rfl
      exact h.lone_first hm hi
  by_cases hpk : p = kid
  · subst hpk
    obtain rfl := mem_unique hkid' hl
    exact hkeeps.reparent (h.ok hk) (h.ne_head_of_edge hedge1)
      ⟨_, i, hq', m.kids_setKid_self i _⟩ (hstay hk hpn hpq)
  · rw [hother hpn hpq hpk] at hl
    exact hkeeps.frame (h.ok hl) (not_or.mpr ⟨hpn, hpk⟩) (hstay hl hpn hpq)

end Shape

/-! ## Contents -/

/-- A stored prefix with its value. -/
structure Entry (w : ℕ) (α : Type) where
  key : BitVec w
  width : ℕ
  value : α
  deriving DecidableEq, Repr

def Node.entry (n : Node w α) : Option (Entry w α) := n.value.map fun v => ⟨n.key, n.width, v⟩

/-- The prefixes stored in the trie, by the handles of their nodes. -/
def contents (r : Heap w α) (p : Handle) : Option (Entry w α) := (r p).bind Node.entry

@[simp] theorem Node.entry_setKid (n : Node w α) (i : Bool) (k : Option Handle) :
    (n.setKid i k).entry = n.entry := by
  cases i <;> rfl

@[simp] theorem Node.entry_setParent (n : Node w α) (q : Option Handle) :
    (n.setParent q).entry = n.entry := rfl

@[simp] theorem Node.entry_setValue_none (n : Node w α) : (n.setValue none).entry = none := rfl

theorem contents_eq (hn : r p = some n) : contents r p = n.entry := by
  rw [contents, hn, bind_some]

theorem contents_eq_none (hn : r p = some n) (hvalue : n.value = none) : contents r p = none := by
  rw [contents_eq hn, Node.entry, hvalue, map_none]

theorem contents_none (hn : r p = none) : contents r p = none := by
  rw [contents, hn, bind_none]

/-- A well-formed trie in which every internal node has two kids. -/
structure Inv (r : Heap w α) : Prop extends Shape r where
  full : ∀ {p n}, r p = some n → p ≠ head → n.value = none → n.kids true ≠ none

end Trie
