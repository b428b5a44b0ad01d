/-
# Bit strings as numbers and as paths

A bit string is read as a number, the first bit the highest one: strings of different
lengths have the same number if the longer one is the shorter one with zeros in front.
As a path in a binary tree it is a sequence of turns; `Before` is the order in which a
walk that turns right (`true`) first comes to the leaves.
-/
import Mathlib

open List

namespace BitString

/-! ## Numbers -/

def value (p : List Bool) : ℕ := p.foldl (fun n bit => 2 * n + bit.toNat) 0

theorem foldl_value (p : List Bool) (n : ℕ) :
    p.foldl (fun n bit => 2 * n + bit.toNat) n = n * 2 ^ p.length + value p := by
  induction p generalizing n with
  | nil => simp [value]
  | cons bit p ih =>
    rw [value, foldl_cons, foldl_cons, ih, ih, length_cons]
    ring

theorem value_cons (bit : Bool) (p : List Bool) :
    value (bit :: p) = bit.toNat * 2 ^ p.length + value p := by
  rw [value, foldl_cons, foldl_value]
  simp

theorem value_lt (p : List Bool) : value p < 2 ^ p.length := by
  induction p with
  | nil => simp [value]
  | cons bit p ih =>
    rw [value_cons, length_cons]
    cases bit <;> simp <;> omega

/-- Zeros in front do not count. -/
theorem value_replicate (n : ℕ) (p : List Bool) : value (List.replicate n false ++ p) = value p := by
  induction n with
  | zero => rfl
  | succ n ih =>
    rw [replicate_succ, cons_append, value_cons, ih]
    simp

variable {p q : List Bool}

theorem eq_of_value (hlen : p.length = q.length) (h : value p = value q) : p = q := by
  induction p generalizing q with
  | nil => exact (length_eq_zero_iff.mp hlen.symm).symm
  | cons bit p ih =>
    cases q with
    | nil => cases hlen
    | cons bit' q =>
      have hlen' : p.length = q.length := Nat.succ.inj hlen
      rw [value_cons, value_cons, hlen'] at h
      have hp := value_lt p
      have hq := value_lt q
      rw [hlen'] at hp
      cases bit <;> cases bit' <;> simp at h
      · rw [ih hlen' h]
      · omega
      · omega
      · rw [ih hlen' h]

/-- **Strings with the same number** differ by zeros in front. -/
theorem value_eq (h : value p = value q) :
    (∃ n, q = List.replicate n false ++ p) ∨ ∃ n, p = List.replicate n false ++ q := by
  rcases Nat.le_total p.length q.length with hle | hle
  · refine .inl ⟨q.length - p.length, ?_⟩
    apply eq_of_value
    · rw [length_append, length_replicate]
      omega
    · rw [value_replicate, h]
  · refine .inr ⟨p.length - q.length, ?_⟩
    apply eq_of_value
    · rw [length_append, length_replicate]
      omega
    · rw [value_replicate, h]

/-! ## Paths -/

/-- Where the paths part, `p` turns right and `q` turns left. -/
def Before (p q : List Bool) : Prop := ∃ c x y, p = c ++ true :: x ∧ q = c ++ false :: y

theorem before_cons_iff {bit bit' : Bool} : Before (bit :: p) (bit' :: q) ↔
      bit = true ∧ bit' = false ∨ bit = bit' ∧ Before p q := by
  constructor
  · rintro ⟨c, x, y, hp, hq⟩
    cases c with
    | nil =>
      cases hp
      cases hq
      exact .inl ⟨rfl, rfl⟩
    | cons head c =>
      cases hp
      cases hq
      exact .inr ⟨rfl, c, x, y, rfl, rfl⟩
  · rintro (⟨rfl, rfl⟩ | ⟨rfl, c, x, y, rfl, rfl⟩)
    · exact ⟨[], p, q, rfl, rfl⟩
    · exact ⟨bit :: c, x, y, rfl, rfl⟩

theorem not_before_nil_left : ¬ Before [] q := by
  rintro ⟨c, x, y, hp, -⟩
  simp at hp

theorem not_before_nil_right : ¬ Before p [] := by
  rintro ⟨c, x, y, -, hq⟩
  simp at hq

theorem Before.asymm (h : Before p q) : ¬ Before q p := by
  induction p generalizing q with
  | nil => exact absurd h not_before_nil_left
  | cons bit p ih =>
    cases q with
    | nil => exact absurd h not_before_nil_right
    | cons bit' q =>
      rw [before_cons_iff] at h ⊢
      rcases h with ⟨rfl, rfl⟩ | ⟨rfl, h⟩
      · simp
      · rintro (⟨hbit, hbit'⟩ | ⟨-, h'⟩)
        · rw [hbit] at hbit'
          cases hbit'
        · exact ih h h'

/-- Paths that part are not on one another. -/
theorem Before.not_prefix (h : Before p q) : ¬ p <+: q ∧ ¬ q <+: p := by
  obtain ⟨c, x, y, rfl, rfl⟩ := h
  constructor
  · intro hpre
    simp at hpre
  · intro hpre
    simp at hpre

/-- A path with left turns in front comes after the path, if it is not on it. -/
theorem before_replicate {n : ℕ} (hn : 0 < n)
    (h : ¬ p <+: List.replicate n false ++ p) : Before p (List.replicate n false ++ p) := by
  induction p generalizing n with
  | nil => exact absurd nil_prefix h
  | cons bit p ih =>
    obtain ⟨m, rfl⟩ : ∃ m, n = m + 1 := ⟨n - 1, by omega⟩
    cases bit with
    | true =>
      rw [replicate_succ, cons_append, before_cons_iff]
      exact .inl ⟨rfl, rfl⟩
    | false =>
      -- the left turn of the path may as well stand at the end of those in front
      have hshift : replicate (m + 1) false ++ false :: p
          = false :: (replicate (m + 1) false ++ p) := by
        calc replicate (m + 1) false ++ false :: p
            = (replicate (m + 1) false ++ [false]) ++ p := by
              rw [append_assoc, singleton_append]
          _ = replicate (m + 2) false ++ p := by rw [← replicate_succ']
          _ = false :: (replicate (m + 1) false ++ p) := rfl
      rw [hshift, before_cons_iff]
      refine .inr ⟨rfl, ih (Nat.succ_pos m) ?_⟩
      intro hpre
      rw [hshift] at h
      exact h ((prefix_cons_inj false).mpr hpre)

end BitString
