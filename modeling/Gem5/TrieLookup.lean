/-
# Lookup in the trie

In a well-formed trie a node continues the prefixes of all the nodes above it,
so a stored prefix that matches a key lies below every node the lookup of the
key goes through.  The first value on the way is therefore the value of the
shortest matching prefix (`lookupHandle_spec`).
-/
import Gem5.TrieShape

namespace Trie

variable {w : ℕ} {α : Type} {r : Heap w α} {p q e : Handle} {n m : Node w α} {key : BitVec w}

/-! ## Reachable nodes -/

/-- `e` lies at or below `p`. -/
abbrev Reach (r : Heap w α) : Handle → Handle → Prop := Relation.ReflTransGen (Edge r)

namespace Shape

/-- Every node hangs below the head. -/
theorem reach_head (h : Shape r) (hm : r e = some m) : Reach r head e := by
  -- parents have shorter prefixes
  induction hw : m.width using Nat.strong_induction_on generalizing e m with
  | _ b ih =>
    by_cases he : e = head
    · subst he
      exact Relation.ReflTransGen.refl
    · obtain ⟨q, -, hedge⟩ := (h.ok hm).up he
      obtain ⟨n, i, hn, hi⟩ := id hedge
      have hlt := (h.below_of_kid hn hi hm).width_lt
      exact (ih n.width (hw ▸ hlt) hn rfl).tail hedge

/-- A node continues the prefixes of the nodes above it. -/
theorem agree_of_reach (h : Shape r) (hreach : Reach r p e) (hn : r p = some n)
    (hm : r e = some m) : n.width ≤ m.width ∧ Agree n.width n.key m.key := by
  induction hreach generalizing m with
  | refl =>
    obtain rfl := Option.mem_unique hn hm
    exact ⟨le_rfl, Agree.refl _ _⟩
  | tail _ hedge ih =>
    obtain ⟨o, i, ho, hi⟩ := hedge
    obtain ⟨hle, hagree⟩ := ih ho
    have hbelow := h.below_of_kid ho hi hm
    exact ⟨hle.trans hbelow.width_lt.le, hagree.trans (hbelow.agree.mono hle)⟩

end Shape

/-! ## Matching -/

theorem Ok.matchesKey_iff (h : Ok r p n) (key : BitVec w) :
    n.matchesKey key = true ↔ Agree n.width key n.key := by
  rw [Node.matchesKey, beq_iff_eq, ← and_leading_eq_iff, ← h.mask_eq, h.key_eq]

/-- The node at `e` has a value and its prefix matches the key. -/
structure Matching (r : Heap w α) (key : BitVec w) (e : Handle) (m : Node w α) : Prop where
  read : r e = some m
  value : m.value.isSome
  agree : Agree m.width key m.key

/-- What a lookup that starts at `node` must find. -/
def Finds (r : Heap w α) (key : BitVec w) (node : Handle) : Option Handle → Prop
  | some h => ∃ n, Matching r key h n ∧
      ∀ e m, Reach r node e → Matching r key e m → n.width ≤ m.width
  | none => ∀ e m, Reach r node e → ¬ Matching r key e m

/-- A matching node below `p` lies below a matching kid of `p`. -/
theorem Shape.matching_kid (h : Shape r) (hn : r p = some n) (hvalue : n.value = none)
    (hreach : Reach r p e) (he : Matching r key e m) :
    ∃ i k o, n.kids i = some k ∧ r k = some o ∧ Agree o.width key o.key ∧ Reach r k e := by
  rcases Relation.ReflTransGen.cases_head hreach with rfl | ⟨k, ⟨n', i, hn', hi⟩, hrest⟩
  · have hm := he.read
    obtain rfl := Option.mem_unique hn hm
    have hsome := he.value
    rw [hvalue] at hsome
    cases hsome
  · rw [hn] at hn'
    cases hn'
    obtain ⟨o, ho, -⟩ := (h.ok hn).kid hi
    obtain ⟨hle, hagree⟩ := h.agree_of_reach hrest ho he.read
    exact ⟨i, k, o, hi, ho, (he.agree.mono hle).trans hagree.symm, hrest⟩

/-- Only one kid matches a key. -/
theorem Shape.matching_side (h : Shape r) (hn : r p = some n) {i j : Bool} {k l : Handle}
    {o o' : Node w α} (hi : n.kids i = some k) (hj : n.kids j = some l) (ho : r k = some o)
    (ho' : r l = some o') (hk : Agree o.width key o.key) (hl : Agree o'.width key o'.key) :
    k = l := by
  by_cases hij : j = i
  · subst hij
    obtain rfl := Option.mem_unique hi hj
    rfl
  · have hbit := (h.ok hn).sides_ne hij hi hj ho ho'
    have hk' := hk _ (h.below_of_kid hn hi ho).width_lt
    have hl' := hl _ (h.below_of_kid hn hj ho').width_lt
    exact absurd (hl'.symm.trans hk') hbit

/-- Going down to the matching kid loses nothing. -/
theorem Finds.of_kid (h : Shape r) (hn : r p = some n) (hvalue : n.value = none) {i : Bool}
    {k : Handle} {o : Node w α} (hi : n.kids i = some k) (ho : r k = some o)
    (hk : Agree o.width key o.key) {found : Option Handle} (hfound : Finds r key k found) :
    Finds r key p found := by
  have hdown : ∀ {e m}, Reach r p e → Matching r key e m → Reach r k e := by
    intro e m hreach he
    obtain ⟨j, l, o', hj, ho', hl, hrest⟩ := h.matching_kid hn hvalue hreach he
    rwa [h.matching_side hn hi hj ho ho' hk hl]
  cases found with
  | none => exact fun e m hreach he => hfound e m (hdown hreach he) he
  | some f =>
    obtain ⟨n', hn', hmin⟩ := hfound
    exact ⟨n', hn', fun e m hreach he => hmin e m (hdown hreach he) he⟩

/-! ## The loop -/

variable {t : Trie w α}

/-- The kid on one side comes before the prefix, or it does not. -/
theorem goesAfter_cases (h : Shape t.read) (hn : t.read p = some n) (i : Bool)
    (key : BitVec w) (width : ℕ) :
    (∃ k o, n.kids i = some k ∧ t.read k = some o ∧ Agree o.width key o.key ∧ o.width ≤ width ∧
      t.goesAfter (n.kids i) key (leading w width) = some (some k)) ∨
    ((∀ {k o}, n.kids i = some k → t.read k = some o → Agree o.width key o.key → width < o.width) ∧
      t.goesAfter (n.kids i) key (leading w width) = some none) := by
  cases hi : n.kids i with
  | none =>
    right
    refine ⟨?_, rfl⟩
    intro k o hk
    cases hk
  | some k =>
    obtain ⟨o, ho, -⟩ := (h.ok hn).kid hi
    have hmatch := (h.ok ho).matchesKey_iff key
    have hmask : o.mask &&& leading w width = o.mask ↔ o.width ≤ width := by
      rw [(h.ok ho).mask_eq]
      exact leading_and_eq_left_iff o.width_le
    by_cases hgo : Agree o.width key o.key ∧ o.width ≤ width
    · left
      refine ⟨k, o, rfl, ho, hgo.1, hgo.2, ?_⟩
      simp [goesAfter, ho, hmatch.mpr hgo.1, hmask.mpr hgo.2]
    · right
      constructor
      · intro k' o' hk' ho' hagree
        cases hk'
        obtain rfl := Option.mem_unique ho ho'
        by_contra hle
        exact hgo ⟨hagree, Nat.le_of_not_lt hle⟩
      · have hcond : ¬ (o.matchesKey key = true ∧ o.mask &&& leading w width = o.mask) := by
          rw [hmatch, hmask]
          exact hgo
        simp [goesAfter, ho, hcond]

/-- Every matching kid comes before the key in its full width. -/
theorem matchingKid_eq (t : Trie w α) (kid : Option Handle) (key : BitVec w) :
    t.matchingKid kid key = t.goesAfter kid key (leading w w) := by
  cases kid with
  | none => rfl
  | some k => simp [matchingKid, goesAfter, leading]

theorem lookupLoop_spec (h : Shape t.read) (key : BitVec w) (fuel : ℕ) :
    ∀ {node n}, t.read node = some n → Agree n.width key n.key → w < fuel + n.width →
      ∃ found, t.lookupLoop key fuel node = some found ∧ Finds t.read key node found := by
  induction fuel with
  | zero =>
    intro node n _ _ hfuel
    exact absurd n.width_le (by omega)
  | succ fuel ih =>
    intro node n hn hagree hfuel
    have hkid : ∀ {i k o}, n.kids i = some k → t.read k = some o → Agree o.width key o.key →
        n.value = none →
        ∃ found, t.lookupLoop key fuel k = some found ∧ Finds t.read key node found := by
      intro i k o hi ho hk hvalue
      have hlt := (h.below_of_kid hn hi ho).width_lt
      obtain ⟨found, hloop, hfound⟩ := ih ho hk (by omega)
      exact ⟨found, hloop, hfound.of_kid h hn hvalue hi ho hk⟩
    rw [lookupLoop, hn]
    simp only [Option.bind_eq_bind, Option.bind_some]
    by_cases hvalue : n.value.isSome
    · refine ⟨some node, by rw [if_pos hvalue], n, ⟨hn, hvalue, hagree⟩, ?_⟩
      intro e m hreach he
      exact (h.agree_of_reach hreach hn he.read).1
    · rw [if_neg hvalue]
      have hnone : n.value = none := by simpa using hvalue
      simp only [matchingKid_eq]
      rcases goesAfter_cases h hn false key w with ⟨k, o, hi, ho, hk, -, heq⟩ | ⟨hno0, heq⟩
      · rw [show n.kid0 = n.kids false from rfl, heq]
        exact hkid hi ho hk hnone
      · rw [show n.kid0 = n.kids false from rfl, heq]
        rcases goesAfter_cases h hn true key w with ⟨k, o, hi, ho, hk, -, heq⟩ | ⟨hno1, heq⟩
        · rw [show n.kid1 = n.kids true from rfl, heq]
          exact hkid hi ho hk hnone
        · rw [show n.kid1 = n.kids true from rfl, heq]
          refine ⟨none, rfl, ?_⟩
          intro e m hreach he
          obtain ⟨i, k, o, hi, ho, hk, -⟩ := h.matching_kid hn hnone hreach he
          refine absurd o.width_le (Nat.not_le.mpr ?_)
          cases i with
          | false => exact hno0 hi ho hk
          | true => exact hno1 hi ho hk

/-- **A lookup finds the shortest matching prefix.** -/
theorem lookupHandle_spec (h : Shape t.read) (key : BitVec w) :
    ∃ found, t.lookupHandle key = some found ∧
      match found with
      | some f => ∃ n, Matching t.read key f n ∧ ∀ e m, Matching t.read key e m → n.width ≤ m.width
      | none => ∀ e m, ¬ Matching t.read key e m := by
  obtain ⟨n, hn⟩ := h.root
  have hwidth : n.width = 0 := h.width_head hn
  obtain ⟨found, hloop, hfound⟩ := lookupLoop_spec h key (w + 1) hn
    (hwidth ▸ Agree.zero key n.key) (by omega)
  refine ⟨found, hloop, ?_⟩
  cases found with
  | none => exact fun e m he => hfound e m (h.reach_head he.read) he
  | some f =>
    obtain ⟨n', hn', hmin⟩ := hfound
    exact ⟨n', hn', fun e m he => hmin e m (h.reach_head he.read) he⟩

end Trie
