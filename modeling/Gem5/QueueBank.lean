/-
# Banks of queues

Reusable infrastructure for schedulers that keep one queue for each class of their
requests.  A bank is a function from classes to queues, and `gather is q` is what waits in
the queues of the classes `is`.  The order between the queues of a bank means nothing, so
what an operation on one queue does to the whole is said up to permutation.
-/
import Mathlib.Data.List.Nodup
import Mathlib.Data.List.Pairwise
import Mathlib.Data.List.Perm.Basic

open scoped List

variable {ι α β : Type*}

/-- What waits in the queues of some classes. -/
def gather (is : List ι) (q : ι → List α) : List α := is.flatMap q

variable {is : List ι} {q q' : ι → List α} {x : α}

theorem mem_gather : x ∈ gather is q ↔ ∃ i ∈ is, x ∈ q i := List.mem_flatMap

theorem gather_congr (h : ∀ i ∈ is, q' i = q i) : gather is q' = gather is q :=
  List.flatMap_congr h

variable {i : ι}

/-- One queue has one request more. -/
theorem gather_cons_perm (hnd : is.Nodup) (hi : i ∈ is) (hx : q' i ~ x :: q i)
    (hother : ∀ j, j ≠ i → q' j = q j) : gather is q' ~ x :: gather is q := by
  induction is with
  | nil => cases hi
  | cons j is ih =>
    obtain ⟨hj, hnd⟩ := List.nodup_cons.mp hnd
    show q' j ++ gather is q' ~ x :: (q j ++ gather is q)
    rcases List.mem_cons.mp hi with rfl | hi
    · have hrest : gather is q' = gather is q :=
        gather_congr fun k hk => hother k (ne_of_mem_of_not_mem hk hj)
      rw [hrest]
      exact hx.append_right _
    · rw [hother j fun h => hj (h ▸ hi)]
      exact ((ih hnd hi).append_left _).trans List.perm_middle

/-- If `f` tells all requests of a bank apart, it tells their classes. -/
theorem eq_of_nodup_gather_map {j : ι} {f : α → β} {y : α} (hnd : ((gather is q).map f).Nodup)
    (hi : i ∈ is) (hj : j ∈ is) (hx : x ∈ q i) (hy : y ∈ q j) (hf : f x = f y) : i = j := by
  rw [gather, List.map_flatMap, List.nodup_flatMap] at hnd
  by_contra hij
  have : Std.Symm (Function.onFun List.Disjoint fun i => (q i).map f) := ⟨fun _ _ h _ hx hy => h hy hx⟩
  have hdisjoint := hnd.2.forall hi hj hij
  exact hdisjoint (List.mem_map_of_mem hx) (hf ▸ List.mem_map_of_mem hy)
