/-
# Lines of waiting parties

Something that one party holds at a time is handed over along a line: the head of
the list has it or is about to get it, each of the others waits for the one in
front of it, and new ones join at the end.  `behind l a` is the one that waits for `a`.
-/
import Mathlib

variable {α : Type*} [DecidableEq α] {l : List α}

/-- The one behind `a` in the line. -/
def behind : List α → α → Option α
  | [], _ => none
  | x :: l, a => if a = x then l.head? else behind l a

@[simp] theorem behind_nil (a : α) : behind [] a = none := rfl

theorem behind_cons (x : α) (l : List α) (a : α) :
    behind (x :: l) a = if a = x then l.head? else behind l a := rfl

@[simp] theorem behind_head (x : α) (l : List α) : behind (x :: l) x = l.head? := if_pos rfl

theorem behind_of_notMem {a : α} (h : a ∉ l) : behind l a = none := by
  induction l with
  | nil => rfl
  | cons x l ih =>
    rw [List.mem_cons, not_or] at h
    rw [behind_cons, if_neg h.1, ih h.2]

/-- The others have the same one behind them when the head leaves. -/
theorem behind_tail {x a : α} (h : a ≠ x) : behind l a = behind (x :: l) a := by
  rw [behind_cons, if_neg h]

omit [DecidableEq α] in
theorem getLast?_ne_head {a y : α} (h : a ∉ y :: l) : (a :: y :: l).getLast? ≠ some a := by
  intro hlast
  exact h (List.mem_of_getLast? hlast)

/-- Only the last one has nobody behind it. -/
theorem behind_eq_none_iff (hl : l.Nodup) {a : α} (ha : a ∈ l) :
    behind l a = none ↔ l.getLast? = some a := by
  induction l with
  | nil => cases ha
  | cons x l ih =>
    obtain ⟨hx, hl⟩ := List.nodup_cons.mp hl
    rw [behind_cons]
    by_cases hax : a = x
    · subst hax
      cases l with
      | nil => simp
      | cons y l =>
        exact iff_of_false (by simp) (getLast?_ne_head hx)
    · rw [if_neg hax, ih hl (List.mem_of_ne_of_mem hax ha)]
      cases l with
      | nil => exact absurd (List.mem_of_ne_of_mem hax ha) (by simp)
      | cons y l => rw [List.getLast?_cons_cons]

/-- One joins at the end: it is behind the one that was last. -/
theorem behind_concat (hl : l.Nodup) {k : α} (hk : k ∉ l) (a : α) :
    behind (l ++ [k]) a = if l.getLast? = some a then some k else behind l a := by
  induction l with
  | nil => simp [behind_cons]
  | cons x l ih =>
    obtain ⟨hx, hl⟩ := List.nodup_cons.mp hl
    rw [List.mem_cons, not_or] at hk
    rw [List.cons_append, behind_cons, behind_cons, ih hl hk.2]
    by_cases hax : a = x
    · subst hax
      rw [if_pos rfl, if_pos rfl]
      cases l with
      | nil => simp
      | cons y l =>
        rw [if_neg (getLast?_ne_head hx)]
        rfl
    · rw [if_neg hax, if_neg hax]
      cases l with
      | nil => simp [Ne.symm hax]
      | cons y l => rw [List.getLast?_cons_cons]

/-- With somebody behind it, one is not alone: the line goes on after the head. -/
theorem behind_head_eq_some {x k : α} (h : behind (x :: l) x = some k) : ∃ l', l = k :: l' := by
  rw [behind_head] at h
  cases l with
  | nil => cases h
  | cons y l' =>
    obtain rfl : y = k := by simpa using h
    exact ⟨l', rfl⟩
