/-
# Runs of the trie

The abstract view of a trie is the list of the prefixes currently stored, each
with its value and the handle its insertion returned.  `step` runs an operation
of the trie and, beside it, what the operation is for: `insert` stores a
prefix, `remove(handle)` takes the prefix of a handle away, `remove(key)` the
shortest one that matches, and `clear` all of them.
-/
import Gem5.TrieInsert
import Gem5.TrieRemove
import Gem5.Run

open Option

namespace Trie

variable {w : ℕ} {α : Type}

/-! ## Stored prefixes -/

/-- A prefix currently stored. -/
structure Stored (w : ℕ) (α : Type) where
  handle : Handle
  entry : Entry w α
  deriving DecidableEq, Repr

/-- The first bits of the key are those of the prefix. -/
def Entry.Matches (e : Entry w α) (key : BitVec w) : Prop := Agree e.width key e.key

instance (e : Entry w α) (key : BitVec w) : Decidable (e.Matches key) :=
  inferInstanceAs (Decidable (Agree _ _ _))

/-- The entry matches and no stored prefix that matches is shorter. -/
def Shortest (stored : List (Stored w α)) (key : BitVec w) (e : Entry w α) : Prop :=
  e.Matches key ∧ ∀ x ∈ stored, x.entry.Matches key → e.width ≤ x.entry.width

instance (stored : List (Stored w α)) (key : BitVec w) (e : Entry w α) :
    Decidable (Shortest stored key e) :=
  inferInstanceAs (Decidable (_ ∧ _))

inductive Op (w : ℕ) (α : Type)
  | insert (key : BitVec w) (width : ℕ) (val : α)
  | remove (handle : Handle)
  | removeKey (key : BitVec w)
  | clear
  deriving DecidableEq, Repr

/-- A trie and the prefixes stored in it. -/
structure State (w : ℕ) (α : Type) where
  trie : Trie w α
  stored : List (Stored w α)

def init (w : ℕ) (α : Type) : State w α := ⟨Trie.new w α, []⟩

/-- What a caller may do: insert a prefix of at least one bit that is not
stored, and remove the handle of a stored prefix. -/
def Allowed (stored : List (Stored w α)) : Op w α → Prop
  | .insert key width _ => 1 ≤ width ∧ width ≤ w ∧
      ∀ x ∈ stored, ¬ (x.entry.width = width ∧ x.entry.key = key &&& leading w width)
  | .remove handle => ∃ x ∈ stored, x.handle = handle
  | .removeKey _ => True
  | .clear => True

/-- An operation on the trie and on the stored prefixes; `none` where the
operation fails. -/
def step (s : State w α) : Op w α → Option (State w α)
  | .insert key width val =>
    (s.trie.insert key width val).map fun r =>
      ⟨r.2, ⟨r.1, key &&& leading w width, width, val⟩ :: s.stored⟩
  | .remove handle =>
    (s.trie.remove handle).map fun r =>
      ⟨r.2, s.stored.filter fun x => x.handle ≠ handle⟩
  | .removeKey key =>
    (s.trie.removeKey key).map fun r =>
      ⟨r.2, s.stored.filter fun x => ¬ Shortest s.stored key x.entry⟩
  | .clear => s.trie.clear.map fun t => ⟨t, []⟩

instance (stored : List (Stored w α)) : (op : Op w α) → Decidable (Allowed stored op)
  | .insert _ _ _ => inferInstanceAs (Decidable (_ ∧ _ ∧ _))
  | .remove handle => inferInstanceAs (Decidable (∃ x ∈ stored, x.handle = handle))
  | .removeKey _ => isTrue trivial
  | .clear => isTrue trivial

/-- Every operation of the run is allowed where it is called. -/
def AllowedRun (s : State w α) (ops : List (Op w α)) : Prop :=
  AllowedSteps step (fun s op => Allowed s.stored op) s ops

instance (s : State w α) (ops : List (Op w α)) : Decidable (AllowedRun s ops) :=
  inferInstanceAs (Decidable (AllowedSteps _ _ _ _))

/-! ## The invariant of runs -/

/-- The nodes with a value are the stored prefixes. -/
structure Tracks (s : State w α) : Prop where
  inv : Inv s.trie.read
  stored : ∀ {p e}, contents s.trie.read p = some e ↔ (⟨p, e⟩ : Stored w α) ∈ s.stored
  unique : ∀ {x y}, x ∈ s.stored → y ∈ s.stored → x.entry.width = y.entry.width →
    x.entry.key = y.entry.key → x = y

theorem inv_new : Inv (Trie.new w α).read := by
  have hread : ∀ p, (Trie.new w α).read p = if p = head then some (Node.make 0 0 none) else none := by
    intro p
    cases p with
    | zero | succ p => rfl
  have hwidth : (Node.make 0 0 none : Node w α).width = 0 := by
    rw [Node.width, Node.make, ← leading_zero, maskWidth_leading (Nat.zero_le w)]
  refine ⟨⟨⟨_, by rw [hread, if_pos rfl]⟩, ?_⟩, ?_⟩
  · intro p n hn
    rw [hread] at hn
    split at hn
    · rename_i hp
      cases hn
      refine ⟨Legs.of_first (fun hk => by cases hk) rfl, ?_, ?_, fun hne => absurd hp hne,
        fun _ => ⟨rfl, rfl, rfl⟩⟩
      · rw [hwidth, leading_zero]
        rfl
      · show (0 &&& 0 : BitVec w) &&& 0 = 0 &&& 0
        simp
    · cases hn
  · intro p n hn hp
    rw [hread, if_neg hp] at hn
    cases hn

theorem tracks_init : Tracks (init w α) := by
  refine ⟨inv_new, ?_, ?_⟩
  · intro p e
    constructor
    · intro h
      have hnone : contents (Trie.new w α).read p = none := by
        cases p with
        | zero | succ p => rfl
      rw [init, hnone] at h
      cases h
    · intro h
      cases h
  · intro x y hx
    cases hx

variable {r : Heap w α} {p : Handle} {e : Entry w α} {key : BitVec w} {s : State w α}

theorem exists_node_of_contents (h : contents r p = some e) :
    ∃ n, r p = some n ∧ n.value = some e.value ∧ n.key = e.key ∧ n.width = e.width := by
  rw [contents, bind_eq_some_iff] at h
  obtain ⟨n, hn, he⟩ := h
  rw [Node.entry, map_eq_some_iff] at he
  obtain ⟨v, hv, rfl⟩ := he
  exact ⟨n, hn, hv, rfl, rfl⟩

theorem Matching.exists_entry {n : Node w α} (h : Matching r key p n) :
    ∃ e, contents r p = some e ∧ e.Matches key ∧ e.width = n.width ∧ n.value = some e.value := by
  obtain ⟨v, hv⟩ := isSome_iff_exists.mp h.value
  refine ⟨⟨n.key, n.width, v⟩, ?_, h.agree, rfl, hv⟩
  rw [contents_eq h.read, Node.entry, hv, map_some]

theorem exists_matching (h : contents r p = some e) (hm : e.Matches key) :
    ∃ n, Matching r key p n ∧ n.width = e.width := by
  obtain ⟨n, hn, hv, hkey, hwidth⟩ := exists_node_of_contents h
  refine ⟨n, ⟨hn, by rw [hv, isSome_some], ?_⟩, hwidth⟩
  rw [hkey, hwidth]
  exact hm

namespace Tracks

variable (h : Tracks s)

include h

variable {x : Stored w α}

/-- Stored keys are masked. -/
theorem key_eq (hx : x ∈ s.stored) : x.entry.key = x.entry.key &&& leading w x.entry.width := by
  obtain ⟨n, hn, -, hkey, hwidth⟩ := exists_node_of_contents (h.stored.mpr hx)
  have hok := h.inv.ok hn
  rw [← hkey, ← hwidth, ← hok.mask_eq, hok.key_eq]

/-- **What a lookup finds**: the shortest stored prefix that matches. -/
theorem lookupHandle (key : BitVec w) :
    ∃ found, s.trie.lookupHandle key = some found ∧
      match found with
      | some f => ∃ e, ⟨f, e⟩ ∈ s.stored ∧ Shortest s.stored key e
      | none => ∀ x ∈ s.stored, ¬ x.entry.Matches key := by
  obtain ⟨found, heq, hfound⟩ := lookupHandle_spec h.inv.toShape key
  refine ⟨found, heq, ?_⟩
  cases found with
  | none =>
    intro x hx hmatch
    obtain ⟨n, hn, -⟩ := exists_matching (h.stored.mpr hx) hmatch
    exact hfound _ _ hn
  | some f =>
    obtain ⟨n, hn, hmin⟩ := hfound
    obtain ⟨e, he, hmatch, hwidth, -⟩ := hn.exists_entry
    refine ⟨e, h.stored.mp he, hmatch, ?_⟩
    intro x hx hx'
    obtain ⟨m, hm, hwidth'⟩ := exists_matching (h.stored.mpr hx) hx'
    rw [hwidth, ← hwidth']
    exact hmin _ _ hm

/-- Only one stored prefix is the shortest match. -/
theorem shortest_unique {x y : Stored w α} (hx : x ∈ s.stored) (hy : y ∈ s.stored)
    (hsx : Shortest s.stored key x.entry) (hsy : Shortest s.stored key y.entry) : x = y := by
  have hwidth : x.entry.width = y.entry.width := le_antisymm (hsx.2 y hy hsy.1) (hsy.2 x hx hsx.1)
  apply h.unique hx hy hwidth
  rw [h.key_eq hx, h.key_eq hy, ← hwidth, and_leading_eq_iff]
  exact hsx.1.symm.trans (hwidth ▸ hsy.1)

/-! ## Steps -/

theorem insert {width : ℕ} {val : α} (hallowed : Allowed s.stored (.insert key width val)) :
    ∃ s', step s (.insert key width val) = some s' ∧ Tracks s' := by
  obtain ⟨hpos, hw, hfree⟩ := hallowed
  obtain ⟨handle, t', heq, hplaced⟩ := insert_spec h.inv hpos hw key
    (fun hc => hfree _ (h.stored.mp hc)) val
  refine ⟨_, by rw [step, heq, map_some], hplaced.inv, ?_, ?_⟩
  · intro p e
    rw [hplaced.contents_eq, List.mem_cons, ← h.stored]
    by_cases hp : p = handle
    · subst hp
      rw [hplaced.fresh]
      simp [eq_comm]
    · simp [hp]
  · intro x y hx hy hwidth hkey
    rcases List.mem_cons.mp hx with rfl | hx <;> rcases List.mem_cons.mp hy with rfl | hy
    · rfl
    · exact absurd ⟨hwidth.symm, hkey.symm⟩ (hfree y hy)
    · exact absurd ⟨hwidth, hkey⟩ (hfree x hx)
    · exact h.unique hx hy hwidth hkey

variable {handle : Handle}

/-- Taking one handle away from the trie and from the stored prefixes. -/
theorem removed {t' : Trie w α} (hr : Removed s.trie handle t')
    {keep : Stored w α → Bool} (hkeep : ∀ x ∈ s.stored, keep x = true ↔ x.handle ≠ handle) :
    Tracks ⟨t', s.stored.filter keep⟩ := by
  refine ⟨hr.inv, ?_, ?_⟩
  · intro p e
    rw [hr.contents_eq, List.mem_filter]
    by_cases hp : p = handle
    · subst hp
      rw [Function.update_self]
      constructor
      · intro hnone
        cases hnone
      · rintro ⟨hmem, hk⟩
        exact absurd rfl ((hkeep _ hmem).mp hk)
    · rw [Function.update_of_ne hp, h.stored]
      exact ⟨fun hmem => ⟨hmem, (hkeep _ hmem).mpr hp⟩, fun hc => hc.1⟩
  · intro x y hx hy
    exact h.unique (List.mem_of_mem_filter hx) (List.mem_of_mem_filter hy)

theorem exists_removed (hx : x ∈ s.stored) :
    ∃ t', s.trie.remove x.handle = some (some x.entry.value, t') ∧ Removed s.trie x.handle t' := by
  obtain ⟨n, hn, hv, -⟩ := exists_node_of_contents (h.stored.mpr hx)
  exact remove_spec h.inv hn hv

theorem remove (hallowed : Allowed s.stored (.remove handle)) :
    ∃ s', step s (.remove handle) = some s' ∧ Tracks s' := by
  obtain ⟨x, hx, rfl⟩ := hallowed
  obtain ⟨t', heq, hr⟩ := h.exists_removed hx
  refine ⟨_, by rw [step, heq, map_some], h.removed hr ?_⟩
  simp

theorem removeKey (key : BitVec w) : ∃ s', step s (.removeKey key) = some s' ∧ Tracks s' := by
  obtain ⟨found, heq, hfound⟩ := h.lookupHandle key
  cases found with
  | none =>
    -- nothing matches, and nothing is taken away
    have hall : s.stored.filter (fun x => ¬ Shortest s.stored key x.entry) = s.stored := by
      apply List.filter_eq_self.mpr
      intro x hx
      have hno : ¬ Shortest s.stored key x.entry := fun hs => hfound x hx hs.1
      simp [hno]
    refine ⟨⟨s.trie, s.stored⟩, ?_, h⟩
    rw [step, hall]
    simp [Trie.removeKey, heq]
  | some f =>
    obtain ⟨e, hmem, hs⟩ := hfound
    obtain ⟨t', hremove, hr⟩ := h.exists_removed hmem
    have hkey : s.trie.removeKey key = some (some e.value, t') := by
      simp [Trie.removeKey, heq, hremove]
    refine ⟨_, by rw [step, hkey, map_some], h.removed hr ?_⟩
    intro x hx
    rw [decide_eq_true_eq, not_iff_not]
    constructor
    · intro hsx
      rw [h.shortest_unique hx hmem hsx hs]
    · intro hxf
      have hex := (h.stored.mpr hx).symm
      rw [hxf, h.stored.mpr hmem] at hex
      cases hex
      exact hs

theorem clear : ∃ s', step s .clear = some s' ∧ Tracks s' := by
  obtain ⟨t', heq, hinv, hnone⟩ := clear_spec h.inv
  refine ⟨⟨t', []⟩, by rw [step, heq, map_some], hinv, ?_, ?_⟩
  · intro p e
    rw [hnone]
    simp
  · intro x y hx
    cases hx

/-- **Every allowed operation succeeds** and keeps the invariant. -/
theorem step {op : Op w α} (hallowed : Allowed s.stored op) :
    ∃ s', Trie.step s op = some s' ∧ Tracks s' := by
  cases op with
  | insert key width val => exact h.insert hallowed
  | remove handle => exact h.remove hallowed
  | removeKey key => exact h.removeKey key
  | clear => exact h.clear

theorem run {ops : List (Op w α)} (hallowed : AllowedRun s ops) :
    ∃ s', runSteps Trie.step s ops = some s' ∧ Tracks s' :=
  AllowedSteps.run (fun _ _ hs hop => hs.step hop) h hallowed

end Tracks

/-! ## Shortest-prefix match -/

/-- **Lookup is shortest-prefix match.**  No run of allowed operations fails, and
after it the lookup of a key returns the value of the shortest stored prefix that
matches the key, and null just when no stored prefix matches. -/
theorem lookup_shortest_prefix (ops : List (Op w α)) (hallowed : AllowedRun (init w α) ops) :
    ∃ s, runSteps step (init w α) ops = some s ∧ ∀ key, ∃ result, s.trie.lookup key = some result ∧
        (result = none ↔ ∀ x ∈ s.stored, ¬ x.entry.Matches key) ∧ (∀ v, result = some v →
          ∃ x ∈ s.stored, x.entry.value = v ∧ Shortest s.stored key x.entry) := by
  obtain ⟨s, hrun, h⟩ := tracks_init.run hallowed
  refine ⟨s, hrun, ?_⟩
  intro key
  obtain ⟨found, heq, hfound⟩ := h.lookupHandle key
  cases found with
  | none =>
    refine ⟨none, by simp [lookup, heq], iff_of_true rfl hfound, ?_⟩
    intro v hv
    cases hv
  | some f =>
    obtain ⟨e, hmem, hs⟩ := hfound
    obtain ⟨n, hn, hv, -⟩ := exists_node_of_contents (h.stored.mpr hmem)
    refine ⟨some e.value, by simp [lookup, heq, hn, hv], ?_, ?_⟩
    · exact iff_of_false (by simp) (fun hno => hno _ hmem hs.1)
    · intro v hev
      cases hev
      exact ⟨_, hmem, rfl, hs⟩

/-- A run over 8-bit keys with nested prefixes, in which removals splice nodes
out. -/
theorem lookup_shortest_prefix_nested :
    AllowedRun (init 8 ℕ) [.insert 0xF0 4 1, .insert 0xF8 5 2, .insert 0xE0 4 3, .remove 1,
      .removeKey 0xE5, .insert 0xF0 4 4] ∧
    ∃ s, runSteps step (init 8 ℕ) [.insert 0xF0 4 1, .insert 0xF8 5 2, .insert 0xE0 4 3, .remove 1,
        .removeKey 0xE5, .insert 0xF0 4 4] = some s ∧
      ∀ key, ∃ result, s.trie.lookup key = some result ∧
        (result = none ↔ ∀ x ∈ s.stored, ¬ x.entry.Matches key) ∧ (∀ v, result = some v →
          ∃ x ∈ s.stored, x.entry.value = v ∧ Shortest s.stored key x.entry) :=
  ⟨by decide +kernel, lookup_shortest_prefix _ (by decide +kernel)⟩

end Trie
