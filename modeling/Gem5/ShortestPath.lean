/-
# Shortest paths by relaxation

`Walk W i j w` says that `w` is the total weight of a walk from `i` to `j` in the complete
graph weighted by `W`.  A matrix is *sound* if each entry is the weight of a walk and no
entry is above the weight of the direct step; relaxing an entry through a third vertex keeps
this (`Sound.relax`).  A sound matrix that cannot be relaxed any more has the shortest
distances (`Sound.le_walk`).

A graph in which some links are missing becomes complete by a weight `cap` that stands for
infinity (`IsDist`).
-/
import Mathlib

open Function

namespace ShortestPath

variable {V : Type*}

/-- The total weights of the walks from one vertex to another. -/
inductive Walk (W : V → V → ℕ) : V → V → ℕ → Prop
  | nil (i : V) : Walk W i i 0
  | cons (i : V) {k j : V} {w : ℕ} (h : Walk W k j w) : Walk W i j (W i k + w)

variable {W : V → V → ℕ} {i j k : V} {d : V → V → ℕ} {w : ℕ}

theorem Walk.single (W : V → V → ℕ) (i j : V) : Walk W i j (W i j) := .cons i (.nil j)

theorem Walk.append {w w' : ℕ} (h : Walk W i k w) (h' : Walk W k j w') : Walk W i j (w + w') := by
  induction h with
  | nil => rwa [Nat.zero_add]
  | cons i _ ih =>
    rw [Nat.add_assoc]
    exact .cons i (ih h')

/-! ## Relaxation -/

/-- Every entry is the weight of a walk, and not above that of the direct step. -/
structure Sound (W d : V → V → ℕ) : Prop where
  walk : ∀ i j, Walk W i j (d i j)
  le : ∀ i j, d i j ≤ W i j

theorem sound_self (W : V → V → ℕ) : Sound W W := ⟨Walk.single W, fun _ _ => le_rfl⟩

/-- **Closure rule**: without a relaxation left, no walk is shorter than its entry. -/
theorem Sound.le_walk (h : Sound W d) (hdiag : ∀ i, W i i = 0)
    (htriangle : ∀ i k j, d i j ≤ d i k + d k j) (hwalk : Walk W i j w) : d i j ≤ w := by
  induction hwalk with
  | nil i => exact (h.le i i).trans_eq (hdiag i)
  | cons i _ ih => exact (htriangle _ _ _).trans (Nat.add_le_add (h.le _ _) ih)

section Relax

variable [DecidableEq V]

def setEntry {α : Type*} (d : V → V → α) (i j : V) (x : α) : V → V → α :=
  update d i (update (d i) j x)

theorem setEntry_self {α : Type*} (d : V → V → α) (i j : V) (x : α) : setEntry d i j x i j = x := by
  rw [setEntry, update_self, update_self]

theorem setEntry_of_ne {α : Type*} (d : V → V → α) {i j i' j' : V} (x : α)
    (h : ¬ (i' = i ∧ j' = j)) : setEntry d i j x i' j' = d i' j' := by
  unfold setEntry
  by_cases hi : i' = i
  · subst hi
    rw [update_self, update_of_ne fun hj => h ⟨rfl, hj⟩]
  · rw [update_of_ne hi]

theorem Sound.relax (h : Sound W d) (hlt : d i k + d k j < d i j) :
    Sound W (setEntry d i j (d i k + d k j)) := by
  constructor
  · intro i' j'
    by_cases heq : i' = i ∧ j' = j
    · rw [heq.1, heq.2, setEntry_self]
      exact (h.walk i k).append (h.walk k j)
    · rw [setEntry_of_ne d _ heq]
      exact h.walk i' j'
  · intro i' j'
    by_cases heq : i' = i ∧ j' = j
    · rw [heq.1, heq.2, setEntry_self]
      exact hlt.le.trans (h.le i j)
    · rw [setEntry_of_ne d _ heq]
      exact h.le i' j'

/-- A relaxation makes the sum of all entries smaller. -/
theorem sum_setEntry_lt [Fintype V] {x : ℕ} (hlt : x < d i j) :
    ∑ i', ∑ j', setEntry d i j x i' j' < ∑ i', ∑ j', d i' j' := by
  have hle : ∀ i' j', setEntry d i j x i' j' ≤ d i' j' := by
    intro i' j'
    by_cases heq : i' = i ∧ j' = j
    · rw [heq.1, heq.2, setEntry_self]
      exact hlt.le
    · rw [setEntry_of_ne d x heq]
  refine Finset.sum_lt_sum (fun i' _ => Finset.sum_le_sum fun j' _ => hle i' j')
    ⟨i, Finset.mem_univ i, ?_⟩
  refine Finset.sum_lt_sum (fun j' _ => hle i j') ⟨j, Finset.mem_univ j, ?_⟩
  rw [setEntry_self]
  exact hlt

end Relax

/-! ## Missing links -/

/-- The total weights of the paths along links. -/
inductive Path (link : V → V → Option ℕ) : V → V → ℕ → Prop
  | nil (i : V) : Path link i i 0
  | cons {i k j : V} {w w' : ℕ} (hlink : link i k = some w) (h : Path link k j w') :
      Path link i j (w + w')

/-- A missing link weighs `cap`, and to stay costs nothing. -/
def complete [DecidableEq V] (link : V → V → Option ℕ) (cap : ℕ) (i j : V) : ℕ :=
  (link i j).getD (if i = j then 0 else cap)

/-- The smallest weight of a path, capped. -/
structure IsDist (link : V → V → Option ℕ) (cap : ℕ) (i j : V) (d : ℕ) : Prop where
  le_cap : d ≤ cap
  le_path : ∀ w, Path link i j w → d ≤ w
  path : d < cap → Path link i j d

section Complete

variable [DecidableEq V] {link : V → V → Option ℕ} {cap : ℕ}

theorem complete_of_link (h : link i j = some w) : complete link cap i j = w := by
  rw [complete, h, Option.getD_some]

theorem complete_self (hself : ∀ i w, link i i = some w → w = 0) (i : V) :
    complete link cap i i = 0 := by
  unfold complete
  cases hlink : link i i with
  | none => rw [Option.getD_none, if_pos rfl]
  | some w => exact hself i w hlink

theorem Path.walk (h : Path link i j w) : Walk (complete link cap) i j w := by
  induction h with
  | nil i => exact .nil i
  | cons hlink _ ih =>
    rw [← complete_of_link hlink]
    exact .cons _ ih

/-- A walk below the cap takes no missing link. -/
theorem path_of_walk (h : Walk (complete link cap) i j w) (hlt : w < cap) : Path link i j w := by
  induction h with
  | nil i => exact .nil i
  | @cons i k j w h ih =>
    have hrest := ih (by omega)
    cases hlink : link i k with
    | some w' =>
      rw [complete_of_link hlink]
      exact .cons hlink hrest
    | none =>
      rw [complete, hlink, Option.getD_none] at hlt ⊢
      by_cases heq : i = k
      · rw [if_pos heq, Nat.zero_add, heq]
        exact hrest
      · rw [if_neg heq] at hlt
        omega

/-- The shortest walks of the completed graph are the capped shortest paths. -/
theorem isDist_of_walk {d : ℕ} (hcap : ∀ i j w, link i j = some w → w ≤ cap)
    (hwalk : Walk (complete link cap) i j d)
    (hleast : ∀ w, Walk (complete link cap) i j w → d ≤ w) : IsDist link cap i j d where
  le_cap := by
    apply (hleast _ (Walk.single _ i j)).trans
    cases hlink : link i j with
    | some w =>
      rw [complete_of_link hlink]
      exact hcap i j w hlink
    | none =>
      rw [complete, hlink, Option.getD_none]
      split
      · exact Nat.zero_le _
      · exact le_rfl
  le_path := fun w hpath => hleast w hpath.walk
  path := fun hlt => path_of_walk hwalk hlt

end Complete

/-! ## Following shortest paths -/

section Hops

variable {link : V → V → Option ℕ} {cap : ℕ}

/-- Links of positive weight do not lead back. -/
theorem eq_of_dist_eq_zero (hd : ∀ i j, IsDist link cap i j (d i j))
    (hpos : ∀ i j w, link i j = some w → 0 < w) (hcap : 0 < cap) (h : d i j = 0) : i = j := by
  have hpath := (hd i j).path (h.trans_lt hcap)
  rw [h] at hpath
  generalize hzero : 0 = w at hpath
  cases hpath with
  | nil => rfl
  | cons hlink _ =>
    have := hpos _ _ _ hlink
    omega

/-- The first link of a shortest path. -/
theorem exists_link_of_dist (hd : ∀ i j, IsDist link cap i j (d i j)) (hlt : d i j < cap)
    (hne : i ≠ j) : ∃ k w, link i k = some w ∧ w + d k j = d i j := by
  have hpath := (hd i j).path hlt
  generalize hw : d i j = w at hpath
  cases hpath with
  | nil => exact absurd rfl hne
  | @cons _ k _ w w' hlink hrest =>
    refine ⟨k, w, hlink, ?_⟩
    have hle : d k j ≤ w' := (hd k j).le_path w' hrest
    have hge : d i j ≤ w + d k j := by
      refine (hd i j).le_path _ (.cons hlink ((hd k j).path ?_))
      omega
    omega

end Hops

end ShortestPath
