/-
# Queues that are served in the order of arrival

A bank of queues and, for every item, the time at which it joined the queue it is in.
Items may leave from anywhere, and new ones join at the end of a queue with the next times
of the clock.
-/
import Mathlib

open Function

namespace FifoQueues

variable {κ α : Type*} [DecidableEq κ] [DecidableEq α]

/-- The time of the items that join, one after the other, from `clock` on. -/
def stamp (since : α → ℕ) (clock : ℕ) (items : List α) (x : α) : ℕ :=
  if x ∈ items then clock + items.idxOf x else since x

/-- No item waits twice, and the queues are in the order of arrival. -/
structure Fifo (since : α → ℕ) (clock : ℕ) (q : κ → List α) : Prop where
  sorted : ∀ k, (q k).Pairwise fun x y => since x < since y
  once : ∀ {k k' x}, x ∈ q k → x ∈ q k' → k = k'
  past : ∀ {k x}, x ∈ q k → since x < clock

namespace Fifo

variable {since : α → ℕ} {clock : ℕ} {q q' : κ → List α}

omit [DecidableEq κ] [DecidableEq α]

theorem empty (since : α → ℕ) (clock : ℕ) : Fifo since clock fun _ : κ => [] :=
  ⟨fun _ => List.Pairwise.nil, fun hx => (List.not_mem_nil hx).elim,
    fun hx => (List.not_mem_nil hx).elim⟩

theorem nodup (h : Fifo since clock q) (k : κ) : (q k).Nodup :=
  (h.sorted k).imp fun hlt heq => absurd (heq ▸ hlt) (lt_irrefl _)

/-- Items leave. -/
theorem sublist (h : Fifo since clock q) (hsub : ∀ k, (q' k).Sublist (q k)) :
    Fifo since clock q' where
  sorted k := (h.sorted k).sublist (hsub k)
  once hx hx' := h.once ((hsub _).subset hx) ((hsub _).subset hx')
  past hx := h.past ((hsub _).subset hx)

variable [DecidableEq κ] [DecidableEq α]

/-- New items join at the end of a queue. -/
theorem enqueue (h : Fifo since clock q) {items : List α} (hnodup : items.Nodup)
    (hnew : ∀ x ∈ items, ∀ k, x ∉ q k) (key : κ) :
    Fifo (stamp since clock items) (clock + items.length) (update q key (q key ++ items)) := by
  have hold : ∀ {k x}, x ∈ q k → stamp since clock items x = since x := by
    intro k x hx
    exact if_neg fun hitem => hnew x hitem k hx
  have hstamp : ∀ {x}, x ∈ items → stamp since clock items x = clock + items.idxOf x :=
    fun hx => if_pos hx
  have hmem : ∀ {k x}, x ∈ update q key (q key ++ items) k →
      x ∈ q k ∨ x ∈ items ∧ k = key := by
    intro k x hx
    by_cases hk : k = key
    · subst hk
      rw [update_self, List.mem_append] at hx
      exact hx.imp_right fun hx => ⟨hx, rfl⟩
    · rw [update_of_ne hk] at hx
      exact .inl hx
  have hqueue : ∀ k, (q k).Pairwise fun x y =>
      stamp since clock items x < stamp since clock items y := by
    intro k
    refine (h.sorted k).imp_of_mem fun hx hy hlt => ?_
    rwa [hold hx, hold hy]
  constructor
  · intro k
    by_cases hk : k = key
    · subst hk
      rw [update_self]
      refine List.pairwise_append.mpr ⟨hqueue k, ?_, ?_⟩
      · -- the place in the list is the order of arrival
        refine List.pairwise_iff_getElem.mpr fun i j hi hj hij => ?_
        rw [hstamp (List.getElem_mem hi), hstamp (List.getElem_mem hj),
          hnodup.idxOf_getElem i hi, hnodup.idxOf_getElem j hj]
        omega
      · intro x hx y hy
        have hpast := h.past hx
        rw [hold hx, hstamp hy]
        omega
    · rw [update_of_ne hk]
      exact hqueue k
  · intro k k' x hx hx'
    rcases hmem hx with hq | ⟨hitem, hk⟩
    · rcases hmem hx' with hq' | ⟨hitem, -⟩
      · exact h.once hq hq'
      · exact absurd hq (hnew x hitem k)
    · rcases hmem hx' with hq' | ⟨-, hk'⟩
      · exact absurd hq' (hnew x hitem k')
      · rw [hk, hk']
  · intro k x hx
    rcases hmem hx with hx | ⟨hx, -⟩
    · have hpast := h.past hx
      rw [hold hx]
      omega
    · have hidx := List.idxOf_lt_length_of_mem hx
      rw [hstamp hx]
      omega

end Fifo

end FifoQueues
