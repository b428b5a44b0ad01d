/-
# Removal from the trie

A node with two kids only loses its value.  A leaf is taken away, and its
parent, if it was an internal node, is then left with one kid and is spliced
out in turn; a node with one kid is spliced out directly.  In a trie whose
internal nodes have two kids this settles the matter: the recursion of
`remove` never goes further than the parent (`remove_spec`).
-/
import Gem5.TrieLookup

open Function Option

namespace Trie

open Node Store

variable {w : ℕ} {α : Type} {t : Trie w α} {node q : Handle} {n m : Node w α} {i : Bool}

/-! ## The edits in the heap -/

theorem unlink_eq (hm : t.read q = some m) (hi : m.kids i = some node)
    (hother : i = true → m.kids false ≠ some node) (kid : Option Handle) :
    ∃ t', t.unlink q node kid = some t' ∧
      t'.read = update (update t.read q (some (m.setKid i kid))) node none := by
  obtain ⟨t1, h1, hr1, -⟩ := modify_spec hm fun p => p.setKid i kid
  refine ⟨t1.free node, ?_, by rw [read_free_eq, hr1]⟩
  cases i with
  | false =>
    have hkid : m.kid0 = some node := hi
    simp [unlink, hm, hkid, h1]
  | true =>
    have hkid : m.kid1 = some node := hi
    have hne : ¬ m.kid0 = some node := hother rfl
    simp [unlink, hm, hkid, hne, h1]

namespace Node

theorem promote_of_first (h : m.kids false ≠ none) : m.promote = m := by
  have hsome : m.kid0.isNone = false := by
    rw [isNone_eq_false_iff, isSome_iff_ne_none]
    exact h
  rw [promote, hsome, if_neg (by simp)]

theorem same_promote (m : Node w α) : m.Same m.promote := by
  unfold promote
  split <;> exact ⟨rfl, rfl, rfl⟩

@[simp] theorem value_promote (m : Node w α) : m.promote.value = m.value := by
  unfold promote
  split <;> rfl

/-- After one of two kids is gone, the other one is the first. -/
theorem promote_setKid_none (m : Node w α) (i : Bool) :
    (m.setKid i none).promote.kids false = m.kids (!i) ∧
      (m.setKid i none).promote.kids true = none := by
  cases i with
  | false =>
    cases hkid : m.kid1 with
    | none | some k => simp [promote, setKid, kids, hkid]
  | true => simp [promote, setKid, kids]

end Node

/-- Taking a node out of its parent, with its kid in its place. -/
theorem detach_eq (hm : t.read q = some m) (hi : m.kids i = some node) (hqn : q ≠ node)
    (hother : i = true → m.kids false ≠ some node) (kid : Option Handle) :
    ∃ t1 t2, t.unlink q node kid = some t1 ∧ t1.promote q = some t2 ∧
      t2.read q = some (m.setKid i kid).promote ∧ t2.read node = none ∧
      ∀ {p}, p ≠ q → p ≠ node → t2.read p = t.read p := by
  obtain ⟨t1, h1, hr1⟩ := unlink_eq hm hi hother kid
  have hm1 : t1.read q = some (m.setKid i kid) := by
    rw [hr1, update_of_ne hqn, update_self]
  obtain ⟨t2, h2, hr2, -⟩ := modify_spec hm1 Node.promote
  refine ⟨t1, t2, h1, h2, by rw [hr2, update_self], ?_, ?_⟩
  · rw [hr2, update_of_ne hqn.symm, hr1, update_self]
  · intro p hpq hpn
    rw [hr2, update_of_ne hpq, hr1, update_of_ne hpn, update_of_ne hpq]

/-- A complete node is not removed with its kid. -/
theorem Inv.keeps (h : Inv t.read) (hm : t.read q = some m) :
    (m.kid1.isNone && m.value.isNone && m.parent.isSome) = false := by
  by_cases hq : q = head
  · rw [((h.ok hm).root hq).2.2, isSome_none, Bool.and_false]
  · cases hvalue : m.value with
    | none =>
      have hkid : m.kid1 ≠ none := h.full hm hq hvalue
      simp [hkid]
    | some v => simp

/-! ## Splicing a node out -/

/-- The trie after a removal. -/
structure Removed (t : Trie w α) (handle : Handle) (t' : Trie w α) : Prop where
  inv : Inv t'.read
  contents_eq : contents t'.read = update (contents t.read) handle none

/-- Removing a node with one kid.  The node itself may be an internal one. -/
theorem removeLoop_splice {kid : Handle} (h : Shape t.read) (hn : t.read node = some n)
    (hhead : node ≠ head) (hfst : n.kids false = some kid) (hsnd : n.kids true = none)
    (hfull : ∀ {p o}, t.read p = some o → p ≠ node → p ≠ head → o.value = none →
      o.kids true ≠ none) (fuel : ℕ) :
    ∃ t', removeLoop (fuel + 1) t node = some (n.value, t') ∧ Removed t node t' := by
  obtain ⟨q, hq, m, i, hm, hi⟩ := (h.ok hn).up hhead
  obtain ⟨k, hk, -, hbelow⟩ := (h.ok hn).kid hfst
  have habove := h.below_of_kid hm hi hn
  have hqn : q ≠ node := ne_of_below habove hm hn
  have hkn : kid ≠ node := (ne_of_below hbelow hn hk).symm
  have hqk : q ≠ kid := ne_of_below (habove.trans hbelow) hm hk
  obtain ⟨t1, h1, hr1, -⟩ := modify_spec hk fun k => k.setParent (some q)
  have hm1 : t1.read q = some m := by rw [hr1, update_of_ne hqk, hm]
  obtain ⟨t2, t3, h2, h3, hq', hnode', hrest⟩ := detach_eq hm1 hi hqn (h.lone_side hm hi) (some kid)
  have hfirst : (m.setKid i (some kid)).kids false ≠ none := by
    cases i with
    | false => simp [kids_setKid_self]
    | true =>
      show m.kids false ≠ none
      exact h.lone_first hm hi
  rw [promote_of_first hfirst] at hq'
  have hkid' : t3.read kid = some (k.setParent (some q)) := by
    rw [hrest hqk.symm hkn, hr1, update_self]
  have hother : ∀ {p}, p ≠ node → p ≠ q → p ≠ kid → t3.read p = t.read p := by
    intro p hpn hpq hpk
    rw [hrest hpq hpn, hr1, update_of_ne hpk]
  have hinv : Inv t3.read := by
    refine ⟨h.splice hn hfst hsnd hk hm hi hnode' hq' hkid' hother, ?_⟩
    intro p o ho hp hvalue
    by_cases hpn : p = node
    · subst hpn
      rw [hnode'] at ho
      cases ho
    · by_cases hpq : p = q
      · subst hpq
        obtain rfl := mem_unique hq' ho
        cases i with
        | false =>
          show m.kids true ≠ none
          exact hfull hm hpn hp hvalue
        | true => simp [kids_setKid_self]
      · by_cases hpk : p = kid
        · subst hpk
          obtain rfl := mem_unique hkid' ho
          rw [kids_setParent]
          exact hfull hk hpn hp hvalue
        · rw [hother hpn hpq hpk] at ho
          exact hfull ho hpn hp hvalue
  refine ⟨t3, ?_, hinv, ?_⟩
  · have hkid1 : n.kid1 = none := hsnd
    have hkid0 : n.kid0 = some kid := hfst
    have hstop := hinv.keeps hq'
    simp only [removeLoop, hn, hkid1, hkid0, hq, reparent, h1, h2, h3, hq', hstop,
      bind_eq_bind, bind_some, isSome_none, Bool.false_eq_true, if_false]
  · refine eq_update_iff.mpr ⟨contents_none hnode', ?_⟩
    intro p hpn
    by_cases hpq : p = q
    · subst hpq
      rw [contents_eq hq', contents_eq hm, entry_setKid]
    · by_cases hpk : p = kid
      · subst hpk
        rw [contents_eq hkid', contents_eq hk, entry_setParent]
      · rw [contents, contents, hother hpn hpq hpk]

/-! ## Removing a leaf -/

/-- The trie once the leaf at `node` is gone.  Its parent, at `q`, has turned
from `m` into `m'`; it has at most one kid and may have to go as well. -/
structure Dropped (t : Trie w α) (node q : Handle) (i : Bool) (m m' : Node w α)
    (t' : Trie w α) : Prop where
  shape : Shape t'.read
  parent : t'.read q = some m'
  value : m'.value = m.value
  first : m'.kids false = m.kids (!i)
  second : m'.kids true = none
  full : ∀ {p o}, t'.read p = some o → p ≠ q → p ≠ head → o.value = none → o.kids true ≠ none
  contents_eq : contents t'.read = update (contents t.read) node none

/-- The first turn of the loop drops the leaf. -/
theorem removeLoop_drop (h : Inv t.read) (hn : t.read node = some n) (hleaf : ∀ j, n.kids j = none)
    (hm : t.read q = some m) (hi : m.kids i = some node) (fuel : ℕ) :
    ∃ m' t', Dropped t node q i m m' t' ∧ removeLoop (fuel + 1) t node =
      if m'.value.isNone && m'.parent.isSome then
        (removeLoop fuel t' q).bind fun r => some (n.value, r.2)
      else some (n.value, t') := by
  have hq : n.parent = some q := h.parent_of_edge ⟨m, i, hm, hi⟩ hn
  have hqn : q ≠ node := ne_of_below (h.below_of_kid hm hi hn) hm hn
  obtain ⟨t1, t2, h1, h2, hq', hnode', hrest⟩ := detach_eq hm hi hqn (h.lone_side hm hi) none
  obtain ⟨hfst, hsnd⟩ := m.promote_setKid_none i
  have hs := (m.same_setKid i none).trans (m.setKid i none).same_promote
  have hvalue' : (m.setKid i none).promote.value = m.value := by
    rw [value_promote, value_setKid]
  generalize (m.setKid i none).promote = m' at hq' hfst hsnd hs hvalue'
  have hshape : Shape t2.read := h.toShape.dropLeaf hn hleaf hm hi hnode' hq'
    (fun hpn hpq => hrest hpq hpn) hs hvalue' hfst hsnd
  have hfull : ∀ {p o}, t2.read p = some o → p ≠ q → p ≠ head → o.value = none →
      o.kids true ≠ none := by
    intro p o ho hpq hp hnone
    rw [hrest hpq (ne_of_unused hnode' ho)] at ho
    exact h.full ho hp hnone
  have hcontents : contents t2.read = update (contents t.read) node none := by
    refine eq_update_iff.mpr ⟨contents_none hnode', ?_⟩
    intro p hpn
    by_cases hpq : p = q
    · subst hpq
      rw [contents_eq hq', contents_eq hm, entry, entry, hvalue', hs.key, hs.width]
    · rw [contents, contents, hrest hpq hpn]
  refine ⟨m', t2, ⟨hshape, hq', hvalue', hfst, hsnd, hfull, hcontents⟩, ?_⟩
  have hkid1 : n.kid1 = none := hleaf true
  have hkid0 : n.kid0 = none := hleaf false
  have hkid1' : m'.kid1 = none := hsnd
  rw [removeLoop]
  simp [hn, hkid1, hkid0, hq, reparent, h1, h2, hq', hkid1']

/-- Removing a leaf, and its parent if it is left with one kid and no value. -/
theorem removeLoop_leaf (h : Inv t.read) (hn : t.read node = some n) (hhead : node ≠ head)
    (hleaf : ∀ j, n.kids j = none) (fuel : ℕ) :
    ∃ t', removeLoop (fuel + 2) t node = some (n.value, t') ∧ Removed t node t' := by
  obtain ⟨q, -, m, i, hm, hi⟩ := (h.ok hn).up hhead
  have hqn : q ≠ node := ne_of_below (h.below_of_kid hm hi hn) hm hn
  obtain ⟨m', t2, hd, hstep⟩ := removeLoop_drop h hn hleaf hm hi (fuel + 1)
  rw [hstep]
  by_cases hmore : (m'.value.isNone && m'.parent.isSome) = true
  · rw [if_pos hmore]
    obtain ⟨hnone, hparent⟩ := Bool.and_eq_true_iff.mp hmore
    have hmvalue : m.value = none := hd.value ▸ isNone_iff_eq_none.mp hnone
    have hqhead : q ≠ head := by
      rintro rfl
      rw [((hd.shape.ok hd.parent).root rfl).2.2] at hparent
      cases hparent
    -- an internal node had two kids
    obtain ⟨kid, hkid⟩ : ∃ kid, m.kids (!i) = some kid := by
      apply ne_none_iff_exists'.mp
      cases i with
      | false => exact h.full hm hqhead hmvalue
      | true => exact h.lone_first hm hi
    obtain ⟨t3, h3, hremoved⟩ := removeLoop_splice hd.shape hd.parent hqhead
      (hd.first.trans hkid) hd.second hd.full fuel
    refine ⟨t3, by rw [h3, bind_some], hremoved.inv, ?_⟩
    rw [hremoved.contents_eq, hd.contents_eq, update_eq_self_iff,
      update_of_ne hqn, contents_eq_none hm hmvalue]
  · rw [if_neg hmore]
    refine ⟨t2, rfl, ⟨hd.shape, ?_⟩, hd.contents_eq⟩
    intro p o ho hp hnone
    by_cases hpq : p = q
    · subst hpq
      obtain rfl := mem_unique hd.parent ho
      obtain ⟨g, hg, -⟩ := (hd.shape.ok hd.parent).up hp
      exact absurd (by simp [hnone, hg]) hmore
    · exact hd.full ho hpq hp hnone

/-! ## Removal -/

/-- **Removal** of a stored prefix succeeds, returns its value and removes just
this prefix. -/
theorem remove_spec (h : Inv t.read) (hn : t.read node = some n) {v : α}
    (hvalue : n.value = some v) : ∃ t', t.remove node = some (some v, t') ∧ Removed t node t' := by
  have hhead : node ≠ head := by
    rintro rfl
    rw [((h.ok hn).root rfl).2.1] at hvalue
    cases hvalue
  rw [← hvalue, remove]
  cases hsnd : n.kids true with
  | some k =>
    obtain ⟨t', heq, hr, -⟩ := modify_spec hn fun n => n.setValue none
    have hnode' : t'.read node = some (n.setValue none) := by rw [hr, update_self]
    refine ⟨t', ?_, ⟨?_, ?_⟩, ?_⟩
    · have hkid1 : n.kid1 = some k := hsnd
      simp [removeLoop, hn, hkid1, hvalue, heq]
    · rw [hr]
      exact h.toShape.setValue hn hhead none
    · intro p o ho hp hnone
      by_cases hpn : p = node
      · subst hpn
        obtain rfl := mem_unique hnode' ho
        rw [kids_setValue, hsnd]
        simp
      · rw [hr, update_of_ne hpn] at ho
        exact h.full ho hp hnone
    · refine eq_update_iff.mpr ⟨by rw [contents_eq hnode', entry_setValue_none], ?_⟩
      intro p hpn
      rw [contents, contents, hr, update_of_ne hpn]
  | none =>
    cases hfst : n.kids false with
    | some kid =>
      exact removeLoop_splice h.toShape hn hhead hfst hsnd
        (fun ho _ hp hnone => h.full ho hp hnone) w
    | none =>
      -- a node other than the head has at least one bit
      obtain ⟨q, -, m, i, hm, hi⟩ := (h.ok hn).up hhead
      have hlt := (h.below_of_kid hm hi hn).width_lt
      have hle := n.width_le
      obtain ⟨fuel, hfuel⟩ : ∃ fuel, w + 1 = fuel + 2 := ⟨w - 1, by omega⟩
      rw [hfuel]
      refine removeLoop_leaf h hn hhead ?_ fuel
      intro j
      cases j
      · exact hfst
      · exact hsnd

/-! ## Clearing -/

/-- `e` lies in the subtree a pointer owns. -/
def Under (r : Heap w α) (kid : Option Handle) (e : Handle) : Prop :=
  ∃ k, kid = some k ∧ Reach r k e

section Destroy

variable {r : Heap w α} {p e : Handle}

theorem not_under_none : ¬ Under r none e := by
  rintro ⟨k, hk, -⟩
  cases hk

theorem reach_iff (hn : r p = some n) :
    Reach r p e ↔ e = p ∨ Under r (n.kids true) e ∨ Under r (n.kids false) e := by
  constructor
  · intro hreach
    rcases Relation.ReflTransGen.cases_head hreach with rfl | ⟨k, ⟨n', i, hn', hi⟩, hrest⟩
    · exact .inl rfl
    · rw [hn] at hn'
      cases hn'
      cases i with
      | false => exact .inr (.inr ⟨k, hi, hrest⟩)
      | true => exact .inr (.inl ⟨k, hi, hrest⟩)
  · rintro (rfl | ⟨k, hk, hrest⟩ | ⟨k, hk, hrest⟩)
    · exact Relation.ReflTransGen.refl
    · exact hrest.head ⟨n, true, hn, hk⟩
    · exact hrest.head ⟨n, false, hn, hk⟩

/-- Every node below an existing node exists. -/
theorem Shape.read_of_reach (h : Shape r) (hreach : Reach r p e) (hn : r p = some n) :
    ∃ m, r e = some m := by
  rcases Relation.ReflTransGen.cases_tail hreach with rfl | ⟨q, -, m, i, hm, hi⟩
  · exact ⟨n, hn⟩
  · obtain ⟨o, ho, -⟩ := (h.ok hm).kid hi
    exact ⟨o, ho⟩

/-- A node does not lie below its kids. -/
theorem Shape.not_under_self (h : Shape r) (hn : r p = some n) (i : Bool) :
    ¬ Under r (n.kids i) p := by
  rintro ⟨k, hk, hreach⟩
  obtain ⟨m, hm, -, hbelow⟩ := (h.ok hn).kid hk
  have hle := (h.agree_of_reach hreach hm hn).1
  exact absurd hbelow.width_lt (Nat.not_lt.mpr hle)

/-- The subtrees of the two kids are disjoint. -/
theorem Shape.under_disjoint (h : Shape r) (hn : r p = some n) (h0 : Under r (n.kids false) e) :
    ¬ Under r (n.kids true) e := by
  rintro ⟨k1, hk1, hreach1⟩
  obtain ⟨k0, hk0, hreach0⟩ := h0
  obtain ⟨m0, hm0, -, hbelow0⟩ := (h.ok hn).kid hk0
  obtain ⟨m1, hm1, -, hbelow1⟩ := (h.ok hn).kid hk1
  obtain ⟨o, ho⟩ := h.read_of_reach hreach0 hm0
  have hbit0 := (h.agree_of_reach hreach0 hm0 ho).2 _ hbelow0.width_lt
  have hbit1 := (h.agree_of_reach hreach1 hm1 ho).2 _ hbelow1.width_lt
  exact (h.ok hn).sides hk0 hk1 hm0 hm1 (hbit0.trans hbit1.symm)

/-- The destructor frees the whole subtree and nothing else. -/
theorem destroy_spec (h : Shape r) (fuel : ℕ) : ∀ {s : Trie w α} {kid : Option Handle},
      (∀ {k}, kid = some k → ∃ m, r k = some m ∧ w < fuel + m.width) →
      (∀ {e}, Under r kid e → s.read e = r e) →
      ∃ s', destroy fuel s kid = some s' ∧ (∀ {e}, Under r kid e → s'.read e = none) ∧
        ∀ {e}, ¬ Under r kid e → s'.read e = s.read e := by
  induction fuel with
  | zero =>
    intro s kid hkid _
    cases kid with
    | none => exact ⟨s, rfl, fun he => absurd he not_under_none, fun _ => rfl⟩
    | some k =>
      obtain ⟨m, -, hfuel⟩ := hkid rfl
      exact absurd m.width_le (by omega)
  | succ fuel ih =>
    intro s kid hkid hagree
    cases kid with
    | none => exact ⟨s, rfl, fun he => absurd he not_under_none, fun _ => rfl⟩
    | some k =>
      obtain ⟨m, hm, hfuel⟩ := hkid rfl
      have hunder : ∀ {e}, Under r (some k) e ↔ Reach r k e := by
        intro e
        constructor
        · rintro ⟨k', hk', hreach⟩
          cases hk'
          exact hreach
        · exact fun hreach => ⟨k, rfl, hreach⟩
      have hdeep : ∀ {i k'}, m.kids i = some k' → ∃ m', r k' = some m' ∧ w < fuel + m'.width := by
        intro i k' hk'
        obtain ⟨m', hm', -, hbelow⟩ := (h.ok hm).kid hk'
        have hlt := hbelow.width_lt
        exact ⟨m', hm', by omega⟩
      obtain ⟨s1, h1, hgone1, hkeep1⟩ := ih hdeep
        (fun he => hagree (hunder.mpr ((reach_iff hm).mpr (.inr (.inl he)))))
      obtain ⟨s2, h2, hgone2, hkeep2⟩ := ih (hdeep (i := false)) (by
        intro e he
        rw [hkeep1 (h.under_disjoint hm he)]
        exact hagree (hunder.mpr ((reach_iff hm).mpr (.inr (.inr he)))))
      have hread : s.read k = some m := by
        rw [hagree (hunder.mpr Relation.ReflTransGen.refl), hm]
      refine ⟨s2.free k, ?_, ?_, ?_⟩
      · rw [show m.kids true = m.kid1 from rfl] at h1
        rw [show m.kids false = m.kid0 from rfl] at h2
        simp [destroy, hread, h1, h2]
      · intro e he
        by_cases hek : e = k
        · subst hek
          exact read_free_self _ _
        · rw [read_free_ne hek]
          by_cases h0 : Under r (m.kids false) e
          · exact hgone2 h0
          · rcases (reach_iff hm).mp (hunder.mp he) with rfl | h1 | h0'
            · exact absurd rfl hek
            · rw [hkeep2 h0]
              exact hgone1 h1
            · exact absurd h0' h0
      · intro e he
        have hne := fun hreach => he (hunder.mpr ((reach_iff hm).mpr hreach))
        rw [read_free_ne (fun hek => hne (.inl hek)), hkeep2 (fun h0 => hne (.inr (.inr h0))),
          hkeep1 (fun h1 => hne (.inr (.inl h1)))]

/-- Dropping one subtree of the head; `r` is the trie before `clear`. -/
theorem resetKid_spec (h : Shape r) {s : Trie w α} {o : Node w α} (hn : r head = some n)
    (hs : s.read head = some o) (hkid : o.kids i = n.kids i)
    (hagree : ∀ {e}, Under r (n.kids i) e → s.read e = r e) :
    ∃ s', s.resetKid i = some s' ∧ s'.read head = some (o.setKid i none) ∧
      (∀ {e}, Under r (n.kids i) e → s'.read e = none) ∧
      ∀ {e}, e ≠ head → ¬ Under r (n.kids i) e → s'.read e = s.read e := by
  obtain ⟨s1, h1, hr1, -⟩ := modify_spec hs fun n => n.setKid i none
  have hhead := h.not_under_self hn i
  have hne : ∀ {e}, Under r (n.kids i) e → e ≠ head := by
    rintro e he rfl
    exact hhead he
  have hdeep : ∀ {k}, n.kids i = some k → ∃ m, r k = some m ∧ w < w + 1 + m.width := by
    intro k hk
    obtain ⟨m, hm, -⟩ := (h.ok hn).kid hk
    exact ⟨m, hm, by omega⟩
  have hagree1 : ∀ {e}, Under r (n.kids i) e → s1.read e = r e := by
    intro e he
    rw [hr1, update_of_ne (hne he), hagree he]
  obtain ⟨s2, h2, hgone, hkeep⟩ := destroy_spec h (w + 1) hdeep hagree1
  refine ⟨s2, ?_, ?_, hgone, ?_⟩
  · rw [← hkid] at h2
    simp [resetKid, hs, h1, h2]
  · rw [hkeep hhead, hr1, update_self]
  · intro e he hunder
    rw [hkeep hunder, hr1, update_of_ne he]

/-- **Clearing** leaves nothing but the head. -/
theorem clear_spec (h : Inv t.read) :
    ∃ t', t.clear = some t' ∧ Inv t'.read ∧ ∀ p, contents t'.read p = none := by
  obtain ⟨n, hn⟩ := h.root
  have hok := h.ok hn
  obtain ⟨t1, h1, hhead1, hgone1, hkeep1⟩ :=
    resetKid_spec h.toShape hn hn rfl (fun _ => rfl)
  obtain ⟨t2, h2, hhead2, hgone2, hkeep2⟩ := resetKid_spec h.toShape hn hhead1 rfl
    (by
      intro e he
      refine hkeep1 ?_ (h.under_disjoint hn he)
      rintro rfl
      exact h.not_under_self hn false he)
  have hnone : ∀ {e}, e ≠ head → t2.read e = none := by
    intro e he
    by_cases h0 : Under t.read (n.kids false) e
    · exact hgone2 h0
    · rw [hkeep2 he h0]
      by_cases h1 : Under t.read (n.kids true) e
      · exact hgone1 h1
      · rw [hkeep1 he h1]
        by_contra hsome
        obtain ⟨m, hm⟩ := ne_none_iff_exists'.mp hsome
        rcases (reach_iff hn).mp (h.reach_head hm) with rfl | hu | hu
        · exact he rfl
        · exact h1 hu
        · exact h0 hu
  refine ⟨t2, ?_, ⟨⟨⟨_, hhead2⟩, ?_⟩, ?_⟩, ?_⟩
  · rw [clear, h1]
    exact h2
  · intro p m hm
    by_cases hp : p = head
    · subst hp
      obtain rfl := mem_unique hhead2 hm
      refine hok.rebuild ((n.same_setKid _ _).trans (same_setKid _ _ _)) ?_
        (fun _ => (hok.root rfl).2.1) ?_
      · exact Legs.of_first (fun hk => by cases hk) rfl
      · intro q hq
        rw [(hok.root rfl).2.2] at hq
        cases hq
    · rw [hnone hp] at hm
      cases hm
  · intro p m hm hp
    rw [hnone hp] at hm
    cases hm
  · intro p
    by_cases hp : p = head
    · subst hp
      exact contents_eq_none hhead2 (hok.root rfl).2.1
    · exact contents_none (hnone hp)

end Destroy

end Trie
