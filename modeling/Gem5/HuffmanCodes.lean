/-
# What the Huffman encoder decodes

The leaves of a Huffman tree in the order in which `generateCodes` visits them, the two
maps as the last writes along that order, and when a value comes back from its code.

Codes are prefix-free.  The map from codes to values has the number of a code as its key,
so a code and the same code with zeros in front share an entry, and the leaf that is
visited later takes it.
-/
import Gem5.Huffman

open Function List
open BitString

namespace Huffman

open Huffman.Encoder

open Node

/-! ## Maps filled by a list of writes -/

section Writes

variable {α κ β : Type*} [DecidableEq κ] (key : α → κ) (val : α → β)

/-- A map after the writes of a list, in order. -/
def writes (l : List α) : κ → Option β :=
  l.foldl (fun m a => update m (key a) (some (val a))) fun _ => none

theorem writes_concat (l : List α) (a : α) :
    writes key val (l ++ [a]) = update (writes key val l) (key a) (some (val a)) :=
  foldl_concat ..

variable {key val} {l : List α}

/-- An entry is the last write to its key. -/
theorem writes_eq_some {R : α → α → Prop} (hR : ∀ a b, R a b → ¬ R b a)
    (hl : l.Pairwise R) {k : κ} {x : β} : writes key val l k = some x ↔
      ∃ a ∈ l, key a = k ∧ val a = x ∧ ∀ b ∈ l, R a b → key b ≠ k := by
  induction l using reverseRecOn with
  | nil => simp [writes]
  | append_singleton l a ih =>
    obtain ⟨hl, -, hla⟩ := pairwise_append.mp hl
    have hlast : ∀ b ∈ l, R b a := fun b hb => hla b hb a (mem_singleton_self a)
    rw [writes_concat]
    rcases eq_or_ne k (key a) with rfl | hk
    · rw [update_self, Option.some.injEq]
      constructor
      · rintro rfl
        refine ⟨a, by simp, rfl, rfl, ?_⟩
        intro b hb hab
        rcases mem_append.mp hb with hb | hb
        · exact absurd (hlast b hb) (hR a b hab)
        · obtain rfl := mem_singleton.mp hb
          exact absurd hab (hR b b hab)
      · rintro ⟨b, hb, hkey, hval, hno⟩
        rcases mem_append.mp hb with hb | hb
        · exact absurd rfl (hno a (by simp) (hlast b hb))
        · rw [← hval, mem_singleton.mp hb]
    · rw [update_of_ne hk, ih hl]
      constructor
      · rintro ⟨b, hb, hkey, hval, hno⟩
        refine ⟨b, mem_append_left _ hb, hkey, hval, ?_⟩
        intro c hc hbc
        rcases mem_append.mp hc with hc | hc
        · exact hno c hc hbc
        · rw [mem_singleton.mp hc]
          exact hk.symm
      · rintro ⟨b, hb, hkey, hval, hno⟩
        rcases mem_append.mp hb with hb | hb
        · exact ⟨b, hb, hkey, hval, fun c hc => hno c (mem_append_left _ hc)⟩
        · rw [mem_singleton.mp hb] at hkey
          exact absurd hkey.symm hk

theorem exists_writes {a : α} (ha : a ∈ l) : ∃ x, writes key val l (key a) = some x := by
  induction l using reverseRecOn with
  | nil => cases ha
  | append_singleton l b ih =>
    rw [writes_concat]
    rcases eq_or_ne (key a) (key b) with hk | hk
    · exact ⟨val b, by rw [hk, update_self]⟩
    · rcases mem_append.mp ha with ha | ha
      · obtain ⟨x, hx⟩ := ih ha
        exact ⟨x, by rw [update_of_ne hk, hx]⟩
      · exact absurd (congrArg key (mem_singleton.mp ha)) hk

end Writes

/-! ## Leaves and their paths -/

/-- The value of the leaf at the end of a path; a path turns right at `true`. -/
def Node.leafAt : Node → List Bool → Option (BitVec 64)
  | .leaf value _, [] => some value
  | .leaf _ _, _ :: _ => none
  | .parent _ _ _, [] => none
  | .parent _ left right, bit :: p => if bit then right.leafAt p else left.leafAt p

/-- The leaves in the order of `generateCodes`, right subtrees first. -/
def Node.leaves : Node → List (List Bool × BitVec 64)
  | .leaf value _ => [([], value)]
  | .parent _ left right =>
    right.leaves.map (fun l => (true :: l.1, l.2)) ++
      left.leaves.map fun l => (false :: l.1, l.2)

variable {p q : List Bool} {v w : BitVec 64}

theorem Node.mem_leaves {t : Node} : (p, v) ∈ t.leaves ↔ t.leafAt p = some v := by
  induction t generalizing p with
  | leaf value frequency => cases p <;> simp [leaves, leafAt, eq_comm]
  | parent frequency left right ihl ihr =>
    cases p with
    | nil => simp [leaves, leafAt]
    | cons bit p => cases bit <;> simp [leaves, leafAt, ihl, ihr]

theorem Node.pairwise_leaves (t : Node) : t.leaves.Pairwise fun l l' => Before l.1 l'.1 := by
  induction t with
  | leaf value frequency => exact pairwise_singleton _ _
  | parent frequency left right ihl ihr =>
    refine pairwise_append.mpr ⟨?_, ?_, ?_⟩
    · exact pairwise_map.mpr (ihr.imp fun h => before_cons_iff.mpr (.inr ⟨rfl, h⟩))
    · exact pairwise_map.mpr (ihl.imp fun h => before_cons_iff.mpr (.inr ⟨rfl, h⟩))
    · intro l hl l' hl'
      obtain ⟨a, -, rfl⟩ := mem_map.mp hl
      obtain ⟨b, -, rfl⟩ := mem_map.mp hl'
      exact before_cons_iff.mpr (.inl ⟨rfl, rfl⟩)

/-- Of two leaves one is visited before the other. -/
theorem Node.before_or {t : Node} (hp : t.leafAt p = some v)
    (hq : t.leafAt q = some w) : p = q ∨ Before p q ∨ Before q p := by
  induction t generalizing p q with
  | leaf value frequency =>
    cases p <;> cases q <;> simp [leafAt] at hp hq ⊢
  | parent frequency left right ihl ihr =>
    cases p with
    | nil => cases hp
    | cons bit p =>
      cases q with
      | nil => cases hq
      | cons bit' q =>
        cases bit <;> cases bit' <;>
          simp only [leafAt, Bool.false_eq_true, if_true, if_false] at hp hq <;>
          simp [before_cons_iff, *]

/-! ## The maps as writes -/

/-- The code of a path. -/
def codeOf (p : List Bool) : Code := ⟨BitVec.ofNat 64 (value p), p.length⟩

theorem value_concat (p : List Bool) (bit : Bool) : value (p ++ [bit]) = 2 * value p + bit.toNat :=
  foldl_concat ..

theorem codeOf_concat (p : List Bool) (bit : Bool) : codeOf (p ++ [bit])
      = ⟨((codeOf p).code <<< 1) + BitVec.ofNat 64 bit.toNat, (codeOf p).length + 1⟩ := by
  have hdouble : BitVec.ofNat 64 (2 * value p) = BitVec.ofNat 64 (value p) <<< 1 := by
    apply BitVec.eq_of_toNat_eq
    simp [Nat.shiftLeft_eq, Nat.mul_comm]
  rw [codeOf, codeOf, value_concat, BitVec.ofNat_add, hdouble, length_append, length_singleton]

theorem codeOf_code_eq (hp : p.length ≤ 64) (hq : q.length ≤ 64) :
    (codeOf p).code = (codeOf q).code ↔ value p = value q := by
  have hlt : ∀ r : List Bool, r.length ≤ 64 → value r < 2 ^ 64 := fun r hr =>
    lt_of_lt_of_le (value_lt r) (Nat.pow_le_pow_right (by omega) hr)
  constructor
  · intro h
    have hnat : value p % 2 ^ 64 = value q % 2 ^ 64 := congrArg BitVec.toNat h
    rwa [Nat.mod_eq_of_lt (hlt p hp), Nat.mod_eq_of_lt (hlt q hq)] at hnat
  · intro h
    rw [codeOf, codeOf, h]

/-- The bits of a code are the turns of its path. -/
theorem bits_codeOf (hp : p.length ≤ 64) : (codeOf p).bits = p := by
  induction p using reverseRecOn with
  | nil => rfl
  | append_singleton p bit ih =>
    rw [length_append, length_singleton] at hp
    -- the last bit of the code is the last turn, the others are those of the path before
    have hlow : (codeOf (p ++ [bit])).code.getLsbD 0 = bit := by
      rw [codeOf, BitVec.getLsbD_ofNat, value_concat]
      cases bit <;> simp
    have hhigh : ∀ i ∈ (range p.length).reverse,
        (codeOf (p ++ [bit])).code.getLsbD (i + 1) = (codeOf p).code.getLsbD i := by
      intro i hi
      have hi : i < p.length := mem_range.mp (mem_reverse.mp hi)
      have hhalf : (2 * value p + bit.toNat) / 2 = value p := by
        have hbit : bit.toNat < 2 := Bool.toNat_lt bit
        omega
      rw [codeOf, codeOf, BitVec.getLsbD_ofNat, BitVec.getLsbD_ofNat, value_concat,
        Nat.testBit_succ, hhalf, decide_eq_true (by omega : i + 1 < 64),
        decide_eq_true (by omega : i < 64)]
    have hlen : (codeOf (p ++ [bit])).length = p.length + 1 := length_append
    rw [Code.bits, hlen, range_succ_eq_map, reverse_cons, map_append,
      map_singleton, hlow, ← map_reverse, map_map]
    congr 1
    calc (range p.length).reverse.map
          ((fun i => (codeOf (p ++ [bit])).code.getLsbD i) ∘ Nat.succ)
        = (codeOf p).bits := map_congr_left hhigh
      _ = p := ih (by omega)

/-- The maps after the writes for some leaves. -/
def recorded (l : List (List Bool × BitVec 64)) : CodeMaps where
  valueToCode := writes Prod.snd (fun a => codeOf a.1) l
  codeToValue := writes (fun a => (codeOf a.1).code) Prod.snd l

/-- The leaves below a node at `c` whose codes are kept. -/
def Node.kept (maxCodeLength : ℕ) (t : Node) (c : List Bool) : List (List Bool × BitVec 64) :=
  (t.leaves.map fun l => (c ++ l.1, l.2)).filter fun l => l.1.length ≤ maxCodeLength

theorem Node.kept_eq_nil {maxCodeLength : ℕ} {c : List Bool} (t : Node)
    (h : maxCodeLength < c.length) : t.kept maxCodeLength c = [] := by
  rw [kept, filter_eq_nil_iff]
  intro l hl
  obtain ⟨l, -, rfl⟩ := mem_map.mp hl
  simp only [length_append, decide_eq_true_eq]
  omega

theorem generateCodes_eq (maxCodeLength : ℕ) (t : Node) (c : List Bool)
    (l : List (List Bool × BitVec 64)) : generateCodes maxCodeLength t (codeOf c) (recorded l) =
      recorded (l ++ t.kept maxCodeLength c) := by
  induction t generalizing c l with
  | leaf value frequency =>
    rw [generateCodes]
    split_ifs with hlong
    · rw [kept_eq_nil _ hlong, append_nil]
    · have hkept : (leaf value frequency).kept maxCodeLength c = [(c, value)] := by
        have hle : c.length ≤ maxCodeLength := not_lt.mp hlong
        simp [kept, leaves, hle]
      rw [hkept]
      simp only [recorded, writes_concat]
  | parent frequency left right ihl ihr =>
    rw [generateCodes]
    split_ifs with hlong
    · rw [kept_eq_nil _ hlong, append_nil]
    · have hkept : (parent frequency left right).kept maxCodeLength c =
          right.kept maxCodeLength (c ++ [true]) ++ left.kept maxCodeLength (c ++ [false]) := by
        simp [kept, leaves, comp_def]
      rw [hkept, ← append_assoc, ← ihl, ← ihr, codeOf_concat, codeOf_concat]
      simp

/-! ## Which values come back -/

section Tree

variable {maxCodeLength : ℕ} {t : Node}

/-- A leaf whose code is kept. -/
def Node.Kept (t : Node) (maxCodeLength : ℕ) (p : List Bool) (v : BitVec 64) : Prop :=
  t.leafAt p = some v ∧ p.length ≤ maxCodeLength

theorem Node.mem_kept : (p, v) ∈ t.kept maxCodeLength [] ↔ t.Kept maxCodeLength p v := by
  simp [kept, Kept, mem_leaves]

theorem Node.pairwise_kept : (t.kept maxCodeLength []).Pairwise fun l l' => Before l.1 l'.1 := by
  apply Pairwise.filter _
  simpa using t.pairwise_leaves

theorem generateCodes_kept :
    generateCodes maxCodeLength t ⟨0, 0⟩ .empty = recorded (t.kept maxCodeLength []) :=
  generateCodes_eq maxCodeLength t [] []

theorem valueToCode_eq {c : Code} :
    (generateCodes maxCodeLength t ⟨0, 0⟩ .empty).valueToCode v = some c ↔
      ∃ p, t.Kept maxCodeLength p v ∧ c = codeOf p ∧
        ∀ q, Before p q → ¬ t.Kept maxCodeLength q v := by
  rw [generateCodes_kept]
  apply (writes_eq_some (fun _ _ h => h.asymm) pairwise_kept).trans
  constructor
  · rintro ⟨⟨p, v⟩, hmem, rfl, rfl, hlast⟩
    refine ⟨p, mem_kept.mp hmem, rfl, ?_⟩
    intro q hpq hq
    exact hlast (q, v) (mem_kept.mpr hq) hpq rfl
  · rintro ⟨p, hp, rfl, hlast⟩
    refine ⟨(p, v), mem_kept.mpr hp, rfl, rfl, ?_⟩
    rintro ⟨q, w⟩ hmem hpq rfl
    exact hlast q hpq (mem_kept.mp hmem)

theorem codeToValue_eq {k w : BitVec 64} :
    (generateCodes maxCodeLength t ⟨0, 0⟩ .empty).codeToValue k = some w ↔
      ∃ p, t.Kept maxCodeLength p w ∧ (codeOf p).code = k ∧
        ∀ q u, Before p q → t.Kept maxCodeLength q u → (codeOf q).code ≠ k := by
  rw [generateCodes_kept]
  apply (writes_eq_some (fun _ _ h => h.asymm) pairwise_kept).trans
  constructor
  · rintro ⟨⟨p, v⟩, hmem, hkey, rfl, hlast⟩
    exact ⟨p, mem_kept.mp hmem, hkey, fun q u hpq hq => hlast (q, u) (mem_kept.mpr hq) hpq⟩
  · rintro ⟨p, hp, hkey, hlast⟩
    exact ⟨(p, w), mem_kept.mpr hp, hkey, rfl, fun b hb hpb => hlast b.1 b.2 hpb (mem_kept.mp hb)⟩

/-- Every value that gets its code from a path `p`, the last kept one of its leaves, is the
only one there: no kept leaf is at the end of `p` with left turns in front. -/
def Node.Separate (t : Node) (maxCodeLength : ℕ) : Prop :=
  ∀ p v n w, 0 < n → t.Kept maxCodeLength p v →
    t.Kept maxCodeLength (List.replicate n false ++ p) w →
      ∃ p', Before p p' ∧ t.Kept maxCodeLength p' v

theorem Node.Kept.before_or (hp : t.Kept maxCodeLength p v)
    (hq : t.Kept maxCodeLength q w) : p = q ∨ Before p q ∨ Before q p :=
  Node.before_or hp.1 hq.1

theorem Node.Kept.before_replicate {n : ℕ} (hn : 0 < n) (hp : t.Kept maxCodeLength p v)
    (hq : t.Kept maxCodeLength (List.replicate n false ++ p) w) :
    Before p (List.replicate n false ++ p) := by
  rcases hp.before_or hq with heq | hbefore | hbefore
  · have hlen := congrArg length heq
    rw [length_append, length_replicate] at hlen
    omega
  · exact hbefore
  · exact BitString.before_replicate hn hbefore.not_prefix.2

end Tree

/-! ## Unique decodability -/

/-- No code is a prefix of another one's, and a value that has a code comes back from it. -/
def Encoder.UniquelyDecodable (e : Encoder) : Prop :=
  (∀ v w c d, e.maps.valueToCode v = some c → e.maps.valueToCode w = some d →
    c.bits <+: d.bits → v = w) ∧
  ∀ v, (e.encode v).length ≤ e.maxCodeLength → e.decode (e.encode v).code = some v

section Generated

variable {maxCodeLength : ℕ} {t : Node}

/-- Codes are prefix-free, whatever the tree. -/
theorem prefix_free (hmax : maxCodeLength ≤ 64) {c d : Code}
    (hv : (generateCodes maxCodeLength t ⟨0, 0⟩ .empty).valueToCode v = some c)
    (hw : (generateCodes maxCodeLength t ⟨0, 0⟩ .empty).valueToCode w = some d)
    (hpre : c.bits <+: d.bits) : v = w := by
  obtain ⟨p, hp, rfl, -⟩ := valueToCode_eq.mp hv
  obtain ⟨q, hq, rfl, -⟩ := valueToCode_eq.mp hw
  rw [bits_codeOf (hp.2.trans hmax), bits_codeOf (hq.2.trans hmax)] at hpre
  rcases hp.before_or hq with rfl | hbefore | hbefore
  · exact Option.some.inj (hp.1.symm.trans hq.1)
  · exact absurd hpre hbefore.not_prefix.1
  · exact absurd hpre hbefore.not_prefix.2

/-- What a code that gives a value its number decodes to. -/
theorem codeToValue_of_separate (hmax : maxCodeLength ≤ 64) (hsep : t.Separate maxCodeLength)
    (hp : t.Kept maxCodeLength p v) (hlast : ∀ q, Before p q → ¬ t.Kept maxCodeLength q v) :
    (generateCodes maxCodeLength t ⟨0, 0⟩ .empty).codeToValue (codeOf p).code = some v := by
  obtain ⟨w, hw⟩ : ∃ w, (generateCodes maxCodeLength t ⟨0, 0⟩ .empty).codeToValue
      (codeOf p).code = some w := by
    rw [generateCodes_kept]
    exact exists_writes (mem_kept.mpr hp)
  obtain ⟨q, hq, hcode, hqlast⟩ := codeToValue_eq.mp hw
  rcases hp.before_or hq with rfl | hpq | hqp
  · rw [hw, ← hq.1, hp.1]
  · -- the entry belongs to a leaf that is visited later, so it has zeros in front
    have hval : value p = value q :=
      ((codeOf_code_eq (hq.2.trans hmax) (hp.2.trans hmax)).mp hcode).symm
    rcases value_eq hval with ⟨n, rfl⟩ | ⟨n, rfl⟩ <;> rcases n.eq_zero_or_pos with rfl | hn
    · exact absurd hpq hpq.asymm
    · obtain ⟨p', hp', hkept⟩ := hsep p v n w hn hp hq
      exact absurd hkept (hlast p' hp')
    · exact absurd hpq hpq.asymm
    · exact absurd hpq (hq.before_replicate hn hp).asymm
  · exact absurd rfl (hqlast p v hqp hp)

/-- A value whose code is shared with a leaf visited later does not come back. -/
theorem separate_of_decodes
    (hdec : ∀ v p, t.Kept maxCodeLength p v → (∀ q, Before p q → ¬ t.Kept maxCodeLength q v) →
      (generateCodes maxCodeLength t ⟨0, 0⟩ .empty).codeToValue (codeOf p).code = some v) :
    t.Separate maxCodeLength := by
  intro p v n w hn hp hq
  by_contra hno
  push Not at hno
  obtain ⟨r, hr, hcode, hlast⟩ := codeToValue_eq.mp (hdec v p hp hno)
  rcases hp.before_or hr with rfl | hpr | hrp
  · -- the leaf behind the left turns is visited later, and has the same number
    have hsame : (codeOf (replicate n false ++ p)).code = (codeOf p).code := by
      rw [codeOf, codeOf, value_replicate]
    exact hlast _ w (hp.before_replicate hn hq) hq hsame
  · exact hno r hpr hr
  · exact hlast p v hrp hp rfl

end Generated

theorem uniquelyDecodable_iff {e : Encoder} {t : Node}
    (hmaps : e.maps = generateCodes e.maxCodeLength t ⟨0, 0⟩ .empty) :
    e.UniquelyDecodable ↔ t.Separate e.maxCodeLength := by
  constructor
  · intro h
    apply separate_of_decodes
    intro v p hp hlast
    have hcode : e.maps.valueToCode v = some (codeOf p) := by
      rw [hmaps]
      exact valueToCode_eq.mpr ⟨p, hp, rfl, hlast⟩
    have henc : e.encode v = codeOf p := by rw [encode, hcode, Option.getD_some]
    rw [← hmaps, ← henc]
    exact h.2 v (by rw [henc]; exact hp.2)
  · intro h
    constructor
    · intro v w c d hv hw
      rw [hmaps] at hv hw
      exact prefix_free e.maxCodeLength_le hv hw
    · intro v hlen
      cases hv : e.maps.valueToCode v with
      | none =>
        -- the code of an unknown value is too long to be one
        have hdummy : (e.encode v).length = 65 := by rw [encode, hv, Option.getD_none]
        have hle := e.maxCodeLength_le
        omega
      | some c =>
        have henc : e.encode v = c := by rw [encode, hv, Option.getD_some]
        rw [hmaps] at hv
        obtain ⟨p, hp, rfl, hlast⟩ := valueToCode_eq.mp hv
        rw [henc, decode, hmaps]
        exact codeToValue_of_separate e.maxCodeLength_le h hp hlast

theorem uniquelyDecodable_generateCodeMaps {q : PriorityQueue} {e e' : Encoder} {root : Node}
    (hroot : buildTree q e.trees = some root) (he : e.generateCodeMaps q = some e') :
    e'.UniquelyDecodable ↔ root.Separate e.maxCodeLength := by
  rw [generateCodeMaps, hroot] at he
  cases he
  exact uniquelyDecodable_iff rfl

/-- **The values of an encoder come back from their codes** exactly if there was a sample
to build a tree from and the leaves of the tree are separate. -/
theorem generateCodeMaps_decodable_iff (q : PriorityQueue) (maxCodeLength : ℕ)
    (hmax : maxCodeLength ≤ 64) (samples : List (BitVec 64 × BitVec 64)) :
    (∃ e, ((Encoder.new maxCodeLength hmax).sampleAll samples).generateCodeMaps q = some e ∧
        e.UniquelyDecodable) ↔ (∃ s ∈ samples, s.2 ≠ 0) ∧
        ∀ root, buildTree q ((Encoder.new maxCodeLength hmax).sampleAll samples).trees = some root →
          root.Separate maxCodeLength := by
  set e := (Encoder.new maxCodeLength hmax).sampleAll samples with he
  have hlen : e.maxCodeLength = maxCodeLength := maxCodeLength_sampleAll _ samples
  have hsampled : e.trees ≠ [] ↔ ∃ s ∈ samples, s.2 ≠ 0 := by
    rw [trees_sampleAll]
    simp [Encoder.new]
  rw [← hsampled, ← hlen]
  constructor
  · rintro ⟨e', he', hdec⟩
    constructor
    · intro hnil
      simp [Encoder.generateCodeMaps, hnil, buildTree, mergeAll, q.pop_nil] at he'
    · intro root hroot
      exact (uniquelyDecodable_generateCodeMaps hroot he').mp hdec
  · rintro ⟨hne, hsep⟩
    obtain ⟨root, hroot⟩ := buildTree_eq q hne
    obtain ⟨e', hmaps⟩ : ∃ e', e.generateCodeMaps q = some e' :=
      ⟨_, Option.map_eq_some_iff.mpr ⟨root, hroot, rfl⟩⟩
    exact ⟨e', hmaps, (uniquelyDecodable_generateCodeMaps hroot hmaps).mpr (hsep root hroot)⟩

theorem generateCodeMaps_decodable_twoValues :
    ∃ e, ((new 64 le_rfl).sampleAll [(5, 1), (6, 1)]).generateCodeMaps firstLeast = some e ∧
      e.UniquelyDecodable := by
  refine (generateCodeMaps_decodable_iff firstLeast 64 le_rfl [(5, 1), (6, 1)]).mpr
    ⟨⟨(5, 1), by simp, by decide⟩, ?_⟩
  intro root hroot
  obtain rfl : parent 2 (.leaf 5 1) (.leaf 6 1) = root := Option.some.inj hroot
  -- both paths have one turn
  have hlen : ∀ p v, (parent 2 (.leaf 5 1) (.leaf 6 1)).leafAt p = some v → p.length = 1 := by
    rintro (_ | ⟨bit, _ | ⟨bit', p⟩⟩) v h
    · cases h
    · rfl
    · cases bit <;> cases h
  intro p v n w hn hp hq
  have hp := hlen p v hp.1
  have hq := hlen _ w hq.1
  rw [length_append, length_replicate] at hq
  omega

/-- The code `1` of the most frequent value shares its entry with the code `01`. -/
theorem decode_takes_longer_code :
    ∃ e, ((new 64 le_rfl).sampleAll [(0, 1), (1, 2), (2, 10)]).generateCodeMaps firstLeast
        = some e ∧ (e.encode 2).length = 1 ∧ (e.encode 2).code = 1 ∧
      e.decode (e.encode 2).code = some 1 ∧ ¬ e.UniquelyDecodable := by
  refine ⟨_, rfl, rfl, rfl, rfl, ?_⟩
  intro h
  have hback : some (1 : BitVec 64) = some 2 := h.2 2 (by decide)
  exact absurd hback (by decide)

end Huffman
