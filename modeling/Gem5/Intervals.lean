/-
# Lists of disjoint intervals

Items with half-open intervals `[lo x, hi x)` over a linear order.  `Separated`
says that the intervals of a list are not empty and follow one another; then
they are pairwise disjoint.

Of the items that start at or before `a` only the last one, and of the others only
the first one, can meet an interval `[a, b)`.
-/
import Mathlib

open List

namespace Intervals

variable {α ι : Type*} [LinearOrder α] {lo hi : ι → α} {l before after : List ι} {x y : ι} {a b : α}

/-- The points of an item. -/
def points (lo hi : ι → α) (x : ι) : Set α := Set.Ico (lo x) (hi x)

/-- Nonempty intervals that follow one another. -/
structure Separated (lo hi : ι → α) (l : List ι) : Prop where
  proper : ∀ {x}, x ∈ l → lo x < hi x
  ordered : l.Pairwise fun x y => hi x ≤ lo y

/-- Two nonempty intervals meet when each starts before the other ends. -/
theorem inter_nonempty_iff (hab : a < b) (hx : lo x < hi x) :
    (Set.Ico a b ∩ points lo hi x).Nonempty ↔ a < hi x ∧ lo x < b := by
  rw [points, Set.Ico_inter_Ico, Set.nonempty_Ico, max_lt_iff, lt_min_iff, lt_min_iff]
  constructor
  · rintro ⟨⟨-, h1⟩, h2, -⟩
    exact ⟨h1, h2⟩
  · rintro ⟨h1, h2⟩
    exact ⟨⟨hab, h1⟩, h2, hx⟩

theorem subset_iff (hab : a < b) : Set.Ico a b ⊆ points lo hi x ↔ lo x ≤ a ∧ b ≤ hi x :=
  Set.Ico_subset_Ico_iff hab

namespace Separated

theorem sublist {l' : List ι} (h : Separated lo hi l) (hsub : l'.Sublist l) : Separated lo hi l' :=
  ⟨fun hx => h.proper (hsub.subset hx), h.ordered.sublist hsub⟩

/-- Different items have no point in common. -/
theorem disjoint (h : Separated lo hi l) (hx : x ∈ l) (hy : y ∈ l) (hne : x ≠ y) :
    Disjoint (points lo hi x) (points lo hi y) := by
  have hpair : l.Pairwise fun x y => Disjoint (points lo hi x) (points lo hi y) := by
    apply h.ordered.imp
    intro x y hxy
    rw [points, points, Set.Ico_disjoint_Ico]
    exact (min_le_left _ _).trans (hxy.trans (le_max_right _ _))
  exact hpair.forall hx hy hne

/-- A test that holds up to some point fails on the whole rest. -/
theorem not_of_mem_dropWhile (h : Separated lo hi l) {p : ι → Bool}
    (hmono : ∀ x ∈ l, ∀ y ∈ l, lo x ≤ lo y → p y = true → p x = true) :
    ∀ y ∈ l.dropWhile p, p y = false := by
  induction l with
  | nil =>
    intro y hy
    cases hy
  | cons z zs ih =>
    by_cases hz : p z = true
    · rw [dropWhile_cons_of_pos hz]
      exact ih (h.sublist (sublist_cons_self _ _)) (fun x hx y hy =>
        hmono x (mem_cons_of_mem _ hx) y (mem_cons_of_mem _ hy))
    · rw [dropWhile_cons_of_neg hz]
      intro y hy
      rw [← Bool.not_eq_true]
      intro hpy
      refine hz (hmono z mem_cons_self y hy ?_ hpy)
      rcases mem_cons.mp hy with rfl | hmem
      · exact le_rfl
      · exact (h.proper mem_cons_self).le.trans ((pairwise_cons.mp h.ordered).1 y hmem)

/-- An item that reaches beyond `a` is the last one to start at or before `a`. -/
theorem getLast?_eq (h : Separated lo hi l) (hle : ∀ y ∈ l, lo y ≤ a) (hx : x ∈ l)
    (hreach : a < hi x) : l.getLast? = some x := by
  induction l with
  | nil => cases hx
  | cons z zs ih =>
    have hpair := pairwise_cons.mp h.ordered
    cases zs with
    | nil =>
      rw [mem_singleton] at hx
      rw [hx]
      rfl
    | cons z' zs =>
      -- an item before another one ends before it starts
      have hmem : x ∈ z' :: zs := by
        rcases mem_cons.mp hx with rfl | hmem
        · have hend := hpair.1 z' mem_cons_self
          have hstart := hle z' (by simp)
          exact absurd (hreach.trans_le (hend.trans hstart)) (lt_irrefl _)
        · exact hmem
      exact ih (h.sublist (sublist_cons_self _ _)) (fun y hy => hle y (mem_cons_of_mem _ hy)) hmem

/-- A covering item is the last one of the first part. -/
theorem last_of_subset (h : Separated lo hi (before ++ after)) (hle : ∀ y ∈ before, lo y ≤ a)
    (hgt : ∀ y ∈ after, a < lo y) (hab : a < b) (hx : x ∈ before ++ after)
    (hsub : Set.Ico a b ⊆ points lo hi x) : before.getLast? = some x := by
  obtain ⟨hlo, hhi⟩ := (subset_iff hab).mp hsub
  rcases mem_append.mp hx with hx | hx
  · exact (h.sublist (sublist_append_left _ _)).getLast?_eq hle hx (hab.trans_le hhi)
  · exact absurd (hgt x hx) (not_lt.mpr hlo)

/-- An overlapping item of the first part is its last one. -/
theorem last_of_overlap (h : Separated lo hi (before ++ after)) (hle : ∀ y ∈ before, lo y ≤ a)
    (hab : a < b) (hx : x ∈ before) (hover : (Set.Ico a b ∩ points lo hi x).Nonempty) :
    before.getLast? = some x := by
  have hbefore := h.sublist (sublist_append_left before after)
  exact hbefore.getLast?_eq hle hx ((inter_nonempty_iff hab (hbefore.proper hx)).mp hover).1

/-- If an item of the second part overlaps, so does its first one. -/
theorem head_of_overlap (h : Separated lo hi (before ++ y :: after))
    (hgt : ∀ z ∈ y :: after, a < lo z) (hab : a < b) (hx : x ∈ y :: after)
    (hover : (Set.Ico a b ∩ points lo hi x).Nonempty) :
    (Set.Ico a b ∩ points lo hi y).Nonempty := by
  have hafter := h.sublist (sublist_append_right before (y :: after))
  have hpy := hafter.proper mem_cons_self
  have hxb := ((inter_nonempty_iff hab (hafter.proper hx)).mp hover).2
  refine (inter_nonempty_iff hab hpy).mpr ⟨(hgt y mem_cons_self).trans hpy, ?_⟩
  rcases mem_cons.mp hx with rfl | hx
  · exact hxb
  · exact (hpy.trans_le ((pairwise_cons.mp hafter.ordered).1 x hx)).trans hxb

/-- Adding an item that overlaps none, in its place. -/
theorem insert (h : Separated lo hi (before ++ after)) (hx : lo x < hi x)
    (hlt : ∀ y ∈ before, lo y < lo x) (hge : ∀ y ∈ after, lo x ≤ lo y)
    (hfree : ∀ y ∈ before ++ after, ¬ (points lo hi x ∩ points lo hi y).Nonempty) :
    Separated lo hi (before ++ x :: after) := by
  have happend := pairwise_append.mp h.ordered
  have hmiss : ∀ y ∈ before ++ after, ¬ (lo x < hi y ∧ lo y < hi x) := fun y hy hc =>
    hfree y hy ((inter_nonempty_iff hx (h.proper hy)).mpr hc)
  have hleft : ∀ y ∈ before, hi y ≤ lo x := by
    intro y hy
    by_contra hlt'
    exact hmiss y (mem_append_left _ hy) ⟨not_le.mp hlt', (hlt y hy).trans hx⟩
  have hright : ∀ y ∈ after, hi x ≤ lo y := by
    intro y hy
    by_contra hlt'
    have hmem := mem_append_right before hy
    exact hmiss y hmem ⟨(hge y hy).trans_lt (h.proper hmem), not_le.mp hlt'⟩
  constructor
  · intro y hy
    rcases mem_append.mp hy with hy | hy
    · exact h.proper (mem_append_left _ hy)
    · rcases mem_cons.mp hy with rfl | hy
      · exact hx
      · exact h.proper (mem_append_right _ hy)
  · refine pairwise_append.mpr ⟨happend.1, pairwise_cons.mpr ⟨hright, happend.2.1⟩, ?_⟩
    intro y hy z hz
    rcases mem_cons.mp hz with rfl | hz
    · exact hleft y hy
    · exact happend.2.2 y hy z hz

end Separated

end Intervals
