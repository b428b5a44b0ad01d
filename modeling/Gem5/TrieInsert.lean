/-
# Insertion into the trie

`insert` walks to the last node that comes before the new prefix, and either
puts the value there, hangs a leaf below it, or splits the leg to the kid the
new prefix shares its next bit with, at the first bit where they differ or at
the end of the new prefix.  The kids of a node take both values of the next
bit, so one of the two legs always fits (`insert_spec`).
-/
import Gem5.TrieLookup

open Function Option

namespace Trie

open Node

variable {w : ℕ} {α : Type}

/-! ## Masks -/

theorem prefixMask_eq {width : ℕ} (h : width ≤ w) : prefixMask w width = leading w width := by
  unfold prefixMask
  split
  · rfl
  · have hwidth : w - width = 0 := by omega
    rw [leading, hwidth, BitVec.shiftLeft_zero]

theorem extendMask_leading (n : ℕ) : extendMask (leading w n) = leading w (n + 1) := by
  apply BitVec.eq_of_getMsbD_eq
  intro i hi
  simp only [extendMask, BitVec.getMsbD_or, BitVec.getMsbD_ushiftRight, getMsbD_leading]
  rw [Bool.eq_iff_iff]
  simp
  omega

/-- The leg is followed as far as the keys agree, and not beyond the new mask. -/
theorem legLoop_spec (key kidKey : BitVec w) {width : ℕ} (hw : width ≤ w) (fuel : ℕ) :
    ∀ {c}, c ≤ width → Agree c key kidKey → width < fuel + c →
      ∃ l, legLoop key kidKey (leading w width) fuel (leading w c) = some (leading w l) ∧
        c ≤ l ∧ l ≤ width ∧ Agree l key kidKey ∧
        (l < width → key.getMsbD l ≠ kidKey.getMsbD l) := by
  induction fuel with
  | zero =>
    omega
  | succ fuel ih =>
    intro c hc hagree hfuel
    rw [legLoop]
    simp only [Bool.or_eq_true, bne_iff_ne, beq_iff_eq, leading_inj (hc.trans hw) hw]
    by_cases hend : c = width
    · refine ⟨c, by rw [if_pos (.inr hend)], le_rfl, hc, hagree, ?_⟩
      omega
    · have hiff : key &&& leading w (c + 1) = kidKey &&& leading w (c + 1) ↔
          key.getMsbD c = kidKey.getMsbD c := by
        rw [and_leading_eq_iff, Agree.succ_iff]
        exact and_iff_right hagree
      rw [extendMask_leading]
      by_cases hbit : key.getMsbD c = kidKey.getMsbD c
      · rw [if_neg (by simp [hiff.mpr hbit, hend])]
        obtain ⟨l, hloop, hcl, hrest⟩ :=
          ih (by omega) (Agree.succ_iff.mpr ⟨hagree, hbit⟩) (by omega)
        exact ⟨l, hloop, by omega, hrest⟩
      · refine ⟨c, ?_, le_rfl, hc, hagree, fun _ => hbit⟩
        rw [if_pos (.inl (fun heq => hbit (hiff.mp heq)))]

/-! ## Walking to the place of the new prefix -/

variable {t : Trie w α} {p node : Handle} {n : Node w α} {key : BitVec w} {width : ℕ}

/-- The node the new prefix comes right after. -/
structure Last (r : Heap w α) (key : BitVec w) (width : ℕ) (p : Handle) (n : Node w α) :
    Prop where
  read : r p = some n
  agree : Agree n.width key n.key
  le : n.width ≤ width
  last : ∀ {i k o}, n.kids i = some k → r k = some o → Agree o.width key o.key → width < o.width

theorem walkLoop_spec (h : Shape t.read) (key : BitVec w) (width fuel : ℕ) :
    ∀ {node n}, t.read node = some n → Agree n.width key n.key → n.width ≤ width →
      w < fuel + n.width →
      ∃ p m, t.walkLoop key (leading w width) fuel node = some p ∧ Last t.read key width p m := by
  induction fuel with
  | zero =>
    intro node n _ _ _ hfuel
    exact absurd n.width_le (by omega)
  | succ fuel ih =>
    intro node n hn hagree hle hfuel
    have hkid : ∀ {i k o}, n.kids i = some k → t.read k = some o → Agree o.width key o.key →
        o.width ≤ width →
        ∃ p m, t.walkLoop key (leading w width) fuel k = some p ∧ Last t.read key width p m := by
      intro i k o hi ho hk hok
      have hlt := (h.below_of_kid hn hi ho).width_lt
      exact ih ho hk hok (by omega)
    rw [walkLoop, hn]
    simp only [bind_eq_bind, bind_some]
    rcases goesAfter_cases h hn false key width with ⟨k, o, hi, ho, hk, hok, heq⟩ | ⟨hno0, heq⟩
    · rw [show n.kid0 = n.kids false from rfl, heq]
      exact hkid hi ho hk hok
    · rw [show n.kid0 = n.kids false from rfl, heq]
      rcases goesAfter_cases h hn true key width with ⟨k, o, hi, ho, hk, hok, heq⟩ | ⟨hno1, heq⟩
      · rw [show n.kid1 = n.kids true from rfl, heq]
        exact hkid hi ho hk hok
      · rw [show n.kid1 = n.kids true from rfl, heq]
        refine ⟨node, n, rfl, hn, hagree, hle, ?_⟩
        intro i k o hi ho hk
        cases i with
        | false => exact hno0 hi ho hk
        | true => exact hno1 hi ho hk

/-! ## The edits in the heap -/

variable {i : Bool} {k : Node w α}

theorem ne_size (hn : t.read p = some n) : p ≠ t.size := ne_of_unused t.read_size hn

theorem addLeaf_eq (hn : t.read node = some n) (i : Bool) (key newMask : BitVec w) (val : α) :
    ∃ t', t.addLeaf node i key newMask val = some (t.size, t') ∧
      t'.read = update
        (update t.read t.size (some ((Node.make key newMask (some val)).setParent (some node))))
        node (some (n.setKid i (some t.size))) := by
  obtain ⟨t₁, h1, hr1, -⟩ := t.alloc_spec ((make key newMask (some val)).setParent (some node))
  have hn1 : t₁.read node = some n := by rw [hr1, update_of_ne (ne_size hn), hn]
  obtain ⟨t2, h2, hr2, -⟩ := Store.modify_spec hn1 fun n => n.setKid i (some t.size)
  refine ⟨t2, ?_, by rw [hr2, hr1]⟩
  simp [addLeaf, h1, h2]

theorem splitLeg_eq {kid : Handle} (hn : t.read node = some n) (hk : t.read kid = some k)
    (hne : node ≠ kid) (i : Bool) (key curMask : BitVec w) :
    ∃ t', t.splitLeg node i kid key curMask = some (t.size, t') ∧
      t'.read = update (update (update t.read kid (some (k.setParent (some t.size))))
        t.size (some (((Node.make key curMask none).setParent (some node)).setKid false (some kid))))
        node (some (n.setKid i (some t.size))) ∧ t'.size = t.size + 1 := by
  obtain ⟨t₁, h1, hr1, hs1⟩ := t.alloc_spec ((make key curMask none).setParent (some node))
  have hk1 : t₁.read kid = some k := by rw [hr1, update_of_ne (ne_size hk), hk]
  obtain ⟨t2, h2, hr2, hs2⟩ := Store.modify_spec hk1 fun k => k.setParent (some t.size)
  have hm2 : t2.read t.size = some ((make key curMask none).setParent (some node)) := by
    rw [hr2, update_of_ne (ne_size hk).symm, hr1, update_self]
  obtain ⟨t3, h3, hr3, hs3⟩ := Store.modify_spec hm2 fun m => m.setKid false (some kid)
  have hn3 : t3.read node = some n := by
    rw [hr3, update_of_ne (ne_size hn), hr2, update_of_ne hne, hr1, update_of_ne (ne_size hn), hn]
  obtain ⟨t4, h4, hr4, hs4⟩ := Store.modify_spec hn3 fun n => n.setKid i (some t.size)
  refine ⟨t4, ?_, ?_, by omega⟩
  · simp [splitLeg, h1, h2, h3, h4]
  · rw [hr4, hr3, hr2, hr1, update_comm (ne_size hk).symm, update_idem]

/-! ## One leg -/

theorem width_make {l : ℕ} (hl : l ≤ w) (key : BitVec w) (v : Option α) :
    (Node.make key (leading w l) v).width = l := maskWidth_leading hl

/-- The node of a longer prefix of the key lies below a node that agrees with
the key. -/
theorem below_make {l : ℕ} (hl : l ≤ w) (hlt : n.width < l) (hagree : Agree n.width key n.key)
    (v : Option α) (q : Option Handle) : n.Below ((Node.make key (leading w l) v).setParent q) := by
  refine ⟨?_, hagree.symm.trans ((agree_and_leading key l).symm.mono hlt.le)⟩
  show n.width < (make key (leading w l) v).width
  rw [width_make hl]
  exact hlt

/-- The trie after an insertion: the handle carries the new entry. -/
structure Placed (t : Trie w α) (e : Entry w α) (handle : Handle) (t' : Trie w α) : Prop where
  inv : Inv t'.read
  contents_eq : contents t'.read = update (contents t.read) handle (some e)
  fresh : contents t.read handle = none

theorem Placed.of_contents {t₁ t' : Trie w α} {e : Entry w α} {handle : Handle}
    (h : Placed t₁ e handle t') (heq : contents t₁.read = contents t.read) : Placed t e handle t' :=
  ⟨h.inv, heq ▸ h.contents_eq, heq ▸ h.fresh⟩

/-- Adding a leaf; the node may be an internal node that still misses the kid. -/
theorem addLeaf_spec (h : Shape t.read) (hn : t.read node = some n) (hi : n.kids i = none)
    (hfull : ∀ {p m}, t.read p = some m → p ≠ head → m.value = none →
      m.kids true ≠ none ∨ (p = node ∧ i = true))
    (hw : width ≤ w) (hlt : n.width < width) (hagree : Agree n.width key n.key)
    (hside : ∀ {j l m}, j ≠ i → n.kids j = some l → t.read l = some m →
      m.key.getMsbD n.width ≠ key.getMsbD n.width)
    (hfirst : i = true → n.kids false ≠ none) (val : α) :
    ∃ t', t.addLeaf node i key (leading w width) val = some (t.size, t') ∧
      Placed t ⟨key &&& leading w width, width, val⟩ t.size t' := by
  obtain ⟨t', heq, hr⟩ := addLeaf_eq hn i key (leading w width) val
  have hnode' : t'.read node = some (n.setKid i (some t.size)) := by rw [hr, update_self]
  have hnew' : t'.read t.size =
      some ((make key (leading w width) (some val)).setParent (some node)) := by
    rw [hr, update_of_ne (ne_size hn).symm, update_self]
  have hother : ∀ {p}, p ≠ node → p ≠ t.size → t'.read p = t.read p := by
    intro p hp hps
    rw [hr, update_of_ne hp, update_of_ne hps]
  have hwidth := width_make hw key (some val)
  refine ⟨t', heq, ⟨?_, ?_⟩, ?_, contents_none t.read_size⟩
  · refine h.addLeaf hn hi t.read_size hnode' hnew' hother ?_ ?_ rfl ?_
      (below_make hw hlt hagree _ _) ?_ hfirst
    · show leading w width = leading w (make key (leading w width) (some val)).width
      rw [hwidth]
    · exact and_leading_and_leading key width
    · intro j
      cases j <;> rfl
    · intro j l m hj hl hm
      show _ ≠ (key &&& leading w width).getMsbD n.width
      rw [agree_and_leading key width n.width hlt]
      exact hside hj hl hm
  · intro p m hm hp hvalue
    by_cases hpn : p = node
    · subst hpn
      obtain rfl := mem_unique hnode' hm
      cases i with
      | false =>
        rcases hfull hn hp (by simpa using hvalue) with hkid | ⟨-, hfalse⟩
        · exact hkid
        · cases hfalse
      | true => simp [kids_setKid_self]
    · by_cases hps : p = t.size
      · subst hps
        obtain rfl := mem_unique hnew' hm
        cases hvalue
      · rw [hother hpn hps] at hm
        exact (hfull hm hp hvalue).resolve_right (fun hc => hpn hc.1)
  · refine eq_update_iff.mpr ⟨?_, ?_⟩
    · rw [contents_eq hnew']
      show some (Entry.mk _ _ _) = _
      rw [show ((make key (leading w width) (some val)).setParent (some node)).width = width
        from hwidth]
      rfl
    · intro q hq
      by_cases hqn : q = node
      · subst hqn
        rw [contents_eq hnode', contents_eq hn, entry_setKid]
      · rw [contents, contents, hother hqn hq]

/-- The trie after a split: a new internal node with one kid, nothing stored. -/
structure Split (t : Trie w α) (node kid : Handle) (key : BitVec w) (l : ℕ) (t' : Trie w α) :
    Prop where
  shape : Shape t'.read
  contents_eq : contents t'.read = contents t.read
  size : t'.size = t.size + 1
  mid : t'.read t.size =
    some (((Node.make key (leading w l) none).setParent (some node)).setKid false (some kid))
  kid : ∃ k k', t.read kid = some k ∧ t'.read kid = some k' ∧ k'.key = k.key
  full : ∀ {p m}, t'.read p = some m → p ≠ t.size → p ≠ head → m.value = none →
    m.kids true ≠ none

theorem splitLeg_spec {kid : Handle} {l : ℕ} (h : Inv t.read) (hn : t.read node = some n)
    (hi : n.kids i = some kid) (hk : t.read kid = some k) (hagree : Agree n.width key n.key)
    (hlt : n.width < l) (hlk : l < k.width) (hleg : Agree l key k.key) :
    ∃ t', t.splitLeg node i kid key (leading w l) = some (t.size, t') ∧
      Split t node kid key l t' := by
  have hbelow := h.below_of_kid hn hi hk
  have hne : node ≠ kid := ne_of_below hbelow hn hk
  have hlw : l ≤ w := hlk.le.trans k.width_le
  obtain ⟨t', heq, hr, hsize⟩ := splitLeg_eq hn hk hne i key (leading w l)
  have hnode' : t'.read node = some (n.setKid i (some t.size)) := by rw [hr, update_self]
  have hnew' : t'.read t.size = some (((make key (leading w l) none).setParent
      (some node)).setKid false (some kid)) := by
    rw [hr, update_of_ne (ne_size hn).symm, update_self]
  have hkid' : t'.read kid = some (k.setParent (some t.size)) := by
    rw [hr, update_of_ne hne.symm, update_of_ne (ne_size hk), update_self]
  have hother : ∀ {p}, p ≠ node → p ≠ t.size → p ≠ kid → t'.read p = t.read p := by
    intro p hp hps hpk
    rw [hr, update_of_ne hp, update_of_ne hps, update_of_ne hpk]
  have hwidth : (((make key (leading w l) none).setParent (some node)).setKid false
      (some kid) : Node w α).width = l := maskWidth_leading hlw
  refine ⟨t', heq, ⟨?_, ?_, hsize, hnew', ⟨k, _, hk, hkid', rfl⟩, ?_⟩⟩
  · refine h.toShape.splitLeg hn hi hk t.read_size hnode' hnew' hkid' hother ?_ ?_ rfl rfl rfl
      ((below_make hlw hlt hagree none (some node)).same_right (same_setKid _ _ _)) ⟨?_, ?_⟩
    · rw [hwidth]
      rfl
    · exact and_leading_and_leading key l
    · rw [hwidth]
      exact hlk
    · rw [hwidth]
      exact (agree_and_leading key l).trans hleg
  · funext p
    by_cases hpn : p = node
    · subst hpn
      rw [contents_eq hnode', contents_eq hn, entry_setKid]
    · by_cases hps : p = t.size
      · subst hps
        rw [contents_eq hnew', contents_none t.read_size]
        rfl
      · by_cases hpk : p = kid
        · subst hpk
          rw [contents_eq hkid', contents_eq hk, entry_setParent]
        · rw [contents, contents, hother hpn hps hpk]
  · intro p m hm hps hp hvalue
    by_cases hpn : p = node
    · subst hpn
      obtain rfl := mem_unique hnode' hm
      cases i with
      | false =>
        show n.kids true ≠ none
        exact h.full hn hp hvalue
      | true => simp [kids_setKid_self]
    · by_cases hpk : p = kid
      · subst hpk
        obtain rfl := mem_unique hkid' hm
        rw [kids_setParent]
        exact h.full hk hp hvalue
      · rw [hother hpn hps hpk] at hm
        exact h.full hm hp hvalue

/-- Setting the value of a node that has none. -/
theorem setValue_spec (h : Shape t.read) (hn : t.read node = some n) (hne : node ≠ head)
    (hvalue : n.value = none)
    (hfull : ∀ {p m}, t.read p = some m → p ≠ node → p ≠ head → m.value = none →
      m.kids true ≠ none) (val : α) :
    ∃ t', t.modify node (fun n => n.setValue (some val)) = some t' ∧
      Placed t ⟨n.key, n.width, val⟩ node t' := by
  obtain ⟨t', heq, hr, -⟩ := Store.modify_spec hn fun n => n.setValue (some val)
  have hnode' : t'.read node = some (n.setValue (some val)) := by rw [hr, update_self]
  refine ⟨t', heq, ⟨?_, ?_⟩, ?_, ?_⟩
  · rw [hr]
    exact h.setValue hn hne (some val)
  · intro p m hm hp hnone
    by_cases hpn : p = node
    · subst hpn
      obtain rfl := mem_unique hnode' hm
      cases hnone
    · rw [hr, update_of_ne hpn] at hm
      exact hfull hm hpn hp hnone
  · refine eq_update_iff.mpr ⟨?_, ?_⟩
    · rw [contents_eq hnode']
      rfl
    · intro q hq
      rw [contents, contents, hr, update_of_ne hq]
  · exact contents_eq_none hn hvalue

namespace Split

variable {kid : Handle} {l : ℕ} {t₁ : Trie w α}

theorem width_mid (hl : l ≤ w) : (((Node.make key (leading w l) none).setParent
    (some node)).setKid false (some kid) : Node w α).width = l := maskWidth_leading hl

/-- The value goes to the new node. -/
theorem setValue (hs : Split t node kid key width t₁) (h : Shape t.read) (hw : width ≤ w)
    (val : α) : ∃ t2, t₁.modify t.size (fun m => m.setValue (some val)) = some t2 ∧
      Placed t ⟨key &&& leading w width, width, val⟩ t.size t2 := by
  obtain ⟨t2, hset, hplaced⟩ := setValue_spec hs.shape hs.mid (h.unused_ne_head t.read_size) rfl
    (fun hm hps hp hvalue => hs.full hm hps hp hvalue) val
  rw [width_mid hw] at hplaced
  exact ⟨t2, hset, hplaced.of_contents hs.contents_eq⟩

/-- The value goes to a leaf below the new node, beside the old kid. -/
theorem addLeaf (hs : Split t node kid key l t₁) (hl : l < width) (hw : width ≤ w)
    (hk : t.read kid = some k) (hdiff : key.getMsbD l ≠ k.key.getMsbD l) (val : α) :
    ∃ t2, t₁.addLeaf t.size true key (leading w width) val = some (t₁.size, t2) ∧
      Placed t ⟨key &&& leading w width, width, val⟩ t₁.size t2 := by
  have hmid : (((make key (leading w l) none).setParent
    (some node)).setKid false (some kid) : Node w α).width = l := width_mid (hl.le.trans hw)
  obtain ⟨k0, k', hk0, hk', hkey⟩ := hs.kid
  obtain rfl := mem_unique hk hk0
  obtain ⟨t2, hadd, hplaced⟩ := addLeaf_spec hs.shape hs.mid rfl
    (by
      intro p m hm hp hvalue
      by_cases hps : p = t.size
      · exact .inr ⟨hps, rfl⟩
      · exact .inl (hs.full hm hps hp hvalue))
    hw (by rwa [hmid]) (by rw [hmid]; exact (agree_and_leading key l).symm)
    (by
      intro j o m hj ho hm
      cases j with
      | false =>
        cases ho
        obtain rfl := mem_unique hk' hm
        rw [hmid, hkey]
        exact hdiff.symm
      | true => exact absurd rfl hj)
    (fun _ hnone => by cases hnone) val
  exact ⟨t2, hadd, hplaced.of_contents hs.contents_eq⟩

end Split

/-- One leg: the value is placed, or the kid differs from the key right after
the node. -/
theorem insertLeg_spec (h : Inv t.read) (hlast : Last t.read key width node n)
    (hlt : n.width < width) (hw : width ≤ w) (i : Bool)
    (hside : n.kids i = none → ∀ {j l m}, j ≠ i → n.kids j = some l → t.read l = some m →
      m.key.getMsbD n.width ≠ key.getMsbD n.width)
    (hfirst : i = true → n.kids false ≠ none) (val : α) :
    (∃ handle t', t.insertLeg node i key (leading w width) val n.mask = some (.inr (handle, t')) ∧
      Placed t ⟨key &&& leading w width, width, val⟩ handle t') ∨
    (t.insertLeg node i key (leading w width) val n.mask = some (.inl n.mask) ∧
      ∃ k o, n.kids i = some k ∧ t.read k = some o ∧
        o.key.getMsbD n.width ≠ key.getMsbD n.width) := by
  have hn := hlast.read
  have hmask := (h.ok hn).mask_eq
  cases hi : n.kids i with
  | none =>
    left
    obtain ⟨t', heq, hplaced⟩ := addLeaf_spec h.toShape hn hi
      (fun hm hp hvalue => .inl (h.full hm hp hvalue)) hw hlt hlast.agree (hside hi) hfirst val
    refine ⟨t.size, t', ?_, hplaced⟩
    simp [insertLeg, hn, hi, heq]
  | some kid =>
    obtain ⟨k, hk, -, hbelow⟩ := (h.ok hn).kid hi
    obtain ⟨l, hloop, hnl, hlw, hleg, hdiff⟩ := legLoop_spec key k.key hw (w + 1) hlt.le
      (hlast.agree.trans hbelow.agree) (by omega)
    rw [← hmask] at hloop
    by_cases hskip : l = n.width
    · -- not the right leg
      right
      subst hskip
      rw [← hmask] at hloop
      refine ⟨?_, kid, k, rfl, hk, (hdiff hlt).symm⟩
      simp [insertLeg, hn, hi, hk, hloop]
    · left
      -- otherwise the walk would have gone on to the kid
      have hlk : l < k.width := by
        by_contra hge
        have hgo := hlast.last hi hk (hleg.mono (Nat.le_of_not_lt hge))
        omega
      obtain ⟨t₁, hsplit, hs⟩ := splitLeg_spec h hn hi hk hlast.agree (by omega) hlk hleg
      have hne : (leading w l == n.mask) = false := by
        rw [hmask, beq_eq_false_iff_ne]
        exact fun heq => hskip ((leading_inj (hlw.trans hw) n.width_le).mp heq)
      have hleft : t.insertLeg node i key (leading w width) val n.mask =
          (if leading w l == leading w width then
            (t₁.modify t.size fun m => m.setValue (some val)).bind fun t' =>
              some (.inr (t.size, t'))
          else (t₁.addLeaf t.size true key (leading w width) val).bind fun placed =>
            some (.inr placed)) := by
        simp only [insertLeg, hn, hi, hk, hloop, hne, hsplit, bind_eq_bind,
          bind_some, Bool.false_eq_true, if_false]
      rw [hleft]
      by_cases hend : l = width
      · subst hend
        obtain ⟨t2, hset, hplaced⟩ := hs.setValue h.toShape hw val
        exact ⟨t.size, t2, by rw [if_pos (beq_self_eq_true _), hset, bind_some], hplaced⟩
      · have hmore : l < width := by omega
        obtain ⟨t2, hadd, hplaced⟩ := hs.addLeaf hmore hw hk (hdiff hmore) val
        refine ⟨t₁.size, t2, ?_, hplaced⟩
        rw [if_neg (by rw [beq_iff_eq, leading_inj (hlw.trans hw) hw]; exact hend), hadd, bind_some]

/-! ## Insertion -/

/-- **Insertion** of a prefix that is not stored succeeds and adds just this
prefix. -/
theorem insert_spec (h : Inv t.read) (hpos : 1 ≤ width) (hw : width ≤ w) (key : BitVec w)
    (hfree : ∀ {p e}, contents t.read p = some e →
      ¬ (e.width = width ∧ e.key = key &&& leading w width)) (val : α) :
    ∃ handle t', t.insert key width val = some (handle, t') ∧
      Placed t ⟨key &&& leading w width, width, val⟩ handle t' := by
  obtain ⟨root, hroot⟩ := h.root
  have hzero : root.width = 0 := h.width_head hroot
  obtain ⟨node, n, hwalk, hlast⟩ := walkLoop_spec h.toShape (key &&& leading w width) width (w + 1)
    hroot (by rw [hzero]; exact Agree.zero _ _) (by omega) (by omega)
  have hn := hlast.read
  have hnmask := (h.ok hn).mask_eq
  have hidem := and_leading_and_leading key width
  by_cases hhere : n.width = width
  · have hkey : n.key = key &&& leading w width := by
      rw [← (h.ok hn).key_eq, hnmask, hhere, ← hidem, and_leading_eq_iff]
      exact hhere ▸ hlast.agree.symm
    have hvalue : n.value = none := by
      cases hv : n.value with
      | none => rfl
      | some v =>
        refine absurd ⟨hhere, hkey⟩ (hfree (p := node) (e := ⟨n.key, n.width, v⟩) ?_)
        rw [contents_eq hn, entry, hv, map_some]
    have hhead : node ≠ head := by
      rintro rfl
      have := h.width_head hn
      omega
    obtain ⟨t', hset, hplaced⟩ := setValue_spec h.toShape hn hhead hvalue
      (fun hm _ hp hnone => h.full hm hp hnone) val
    rw [hkey, hhere] at hplaced
    refine ⟨node, t', ?_, hplaced⟩
    simp [insert, prefixMask_eq hw, hwalk, hn, hnmask, hhere, hvalue, hset]
  · have hlt : n.width < width := lt_of_le_of_ne hlast.le hhere
    have hne : n.mask ≠ leading w width := by
      rw [hnmask]
      exact fun heq => hhere ((leading_inj n.width_le hw).mp heq)
    have hfirst : n.kids false = none → n.kids true = none := (h.ok hn).first
    rcases insertLeg_spec h hlast hlt hw false (by
        intro hnone j l m hj hl
        cases j with
        | false => exact absurd rfl hj
        | true =>
          rw [hfirst hnone] at hl
          cases hl) (by simp) val with ⟨handle, t', heq, hplaced⟩ | ⟨heq, k, o, hk, ho, hbit⟩
    · rw [hidem] at hplaced
      refine ⟨handle, t', ?_, hplaced⟩
      simp [insert, prefixMask_eq hw, hwalk, hn, hne, heq]
    · -- the key differs from the first kid, so it follows the second one
      rcases insertLeg_spec h hlast hlt hw true (by
          intro _ j l m hj hl hm
          cases j with
          | false =>
            obtain rfl := mem_unique hk hl
            obtain rfl := mem_unique ho hm
            exact hbit
          | true => exact absurd rfl hj) (by simp [hk]) val
        with ⟨handle, t', heq', hplaced⟩ | ⟨-, k', o', hk', ho', hbit'⟩
      · rw [hidem] at hplaced
        refine ⟨handle, t', ?_, hplaced⟩
        simp [insert, prefixMask_eq hw, hwalk, hn, hne, heq, heq']
      · refine absurd ?_ ((h.ok hn).sides hk hk' ho ho')
        rw [Bool.eq_not.mpr hbit, Bool.eq_not.mpr hbit']

end Trie
