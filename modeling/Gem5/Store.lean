/-
# Stores of cells and pointer chains

Reusable infrastructure for pointer-based data structures.  A `Store V` is a
growing sequence of cells addressed by their allocation number: `alloc` always
hands out a fresh address, `free` empties a cell for good, and reading an
address that was never allocated, or was freed, gives `none`.

`Chain next s a ps b` says that following the link field `next` from the
pointer `a` visits exactly the cells `ps` and leaves at the pointer `b`.
-/
import Mathlib

open Function

/-- A store of cells; the address of a cell is its allocation number. -/
structure Store (V : Type*) where
  cells : List (Option V)
  deriving DecidableEq, Repr

namespace Store

variable {V : Type*} {p : ℕ} {ps : List ℕ} {v : V} (s : Store V)

/-! ## Reading and writing -/

/-- The number of cells ever allocated. -/
def size : ℕ := s.cells.length

/-- The content of a cell, `none` when it is not (or no longer) allocated. -/
def read (p : ℕ) : Option V := (s.cells[p]?).join

/-- Overwrite a cell. -/
def write (p : ℕ) (v : V) : Store V := ⟨s.cells.set p (some v)⟩

/-- Release a cell. -/
def free (p : ℕ) : Store V := ⟨s.cells.set p none⟩

/-- Allocate a fresh cell. -/
def alloc (v : V) : Store V × ℕ := (⟨s.cells ++ [some v]⟩, s.size)

/-- Update a cell in place; fails on a cell that is not allocated. -/
def modify (p : ℕ) (f : V → V) : Option (Store V) :=
  (s.read p).map fun v => s.write p (f v)

variable {s} {β : Type*} {f : V → β}

theorem lt_size_of_read (h : s.read p = some v) : p < s.size := by
  by_contra hp
  rw [read, List.getElem?_eq_none (by simpa [size] using hp)] at h
  simp at h

theorem read_write_self {v w : V} (h : s.read p = some v) : (s.write p w).read p = some w := by
  have hp : p < s.cells.length := lt_size_of_read h
  simp [read, write, hp]

@[simp] theorem read_write_ne {p q : ℕ} {w : V} (h : q ≠ p) : (s.write p w).read q = s.read q := by
  simp [read, write, Ne.symm h]

@[simp] theorem read_free_self (s : Store V) (p : ℕ) : (s.free p).read p = none := by
  by_cases hp : p < s.cells.length
  · simp [read, free, hp]
  · rw [read, free, List.getElem?_eq_none (by simpa using hp)]
    rfl

@[simp] theorem read_free_ne {p q : ℕ} (h : q ≠ p) : (s.free p).read q = s.read q := by
  simp [read, free, Ne.symm h]

theorem read_alloc_self (s : Store V) (v : V) : (s.alloc v).1.read s.size = some v := by
  simp [read, alloc, size]

theorem read_alloc_ne (s : Store V) (v : V) (h : p ≠ s.size) : (s.alloc v).1.read p = s.read p := by
  rcases lt_or_gt_of_ne h with hlt | hgt
  · simp [read, alloc, List.getElem?_append_left (show p < s.cells.length from hlt)]
  · have hle : s.cells.length < p := hgt
    rw [read, read, alloc, List.getElem?_eq_none (by simp; omega), List.getElem?_eq_none (by omega)]

theorem read_size (s : Store V) : s.read s.size = none := by
  simp [read, size]

@[simp] theorem size_write (s : Store V) (p : ℕ) (v : V) : (s.write p v).size = s.size := by
  simp [size, write]

@[simp] theorem size_alloc (s : Store V) (v : V) : (s.alloc v).1.size = s.size + 1 := by
  simp [size, alloc]

theorem modify_eq (h : s.read p = some v) (f : V → V) : s.modify p f = some (s.write p (f v)) := by
  simp [modify, h]

/-- A write changes nothing of what it writes back. -/
theorem map_read_write {v w : V} (h : s.read p = some v)
    (hf : f w = f v) (q : ℕ) : ((s.write p w).read q).map f = (s.read q).map f := by
  by_cases hq : q = p
  · subst hq
    rw [read_write_self h, h, Option.map_some, Option.map_some, hf]
  · rw [read_write_ne hq]

theorem exists_read_of_map {s s' : Store V} (h : (s'.read p).map f = (s.read p).map f)
    (hv : s.read p = some v) : ∃ w, s'.read p = some w ∧ f w = f v := by
  rwa [hv, Option.map_some, Option.map_eq_some_iff] at h

/-! The same facts about the contents as a whole. -/

theorem read_free_eq (s : Store V) (p : ℕ) : (s.free p).read = update s.read p none := by
  exact eq_update_iff.mpr ⟨read_free_self s p, fun q hq => read_free_ne hq⟩

/-- Updating an allocated cell in place. -/
theorem modify_spec (h : s.read p = some v) (f : V → V) :
    ∃ s', s.modify p f = some s' ∧ s'.read = update s.read p (some (f v)) ∧ s'.size = s.size :=
  ⟨s.write p (f v), modify_eq h f,
    eq_update_iff.mpr ⟨read_write_self h, fun _ => read_write_ne⟩, size_write s p (f v)⟩

/-- Allocating a cell. -/
theorem alloc_spec (s : Store V) (v : V) :
    ∃ s', s.alloc v = (s', s.size) ∧ s'.read = update s.read s.size (some v) ∧
      s'.size = s.size + 1 :=
  ⟨(s.alloc v).1, rfl,
    eq_update_iff.mpr ⟨read_alloc_self s v, fun _ => read_alloc_ne s v⟩, size_alloc s v⟩

/-- Distinct allocated addresses number at most the size of the store: the
fuel bound for every loop that follows pointers. -/
theorem length_le_size (hnd : ps.Nodup) (h : ∀ p ∈ ps, ∃ v, s.read p = some v) :
    ps.length ≤ s.size := by
  have hsub : ps ⊆ List.range s.size := by
    intro p hp
    obtain ⟨v, hv⟩ := h p hp
    exact List.mem_range.mpr (lt_size_of_read hv)
  simpa using (hnd.subperm hsub).length_le

/-! ## Chains -/

/-- Following `next` from `a` visits exactly `ps` and leaves at `b`. -/
def Chain (next : V → Option ℕ) (s : Store V) : Option ℕ → List ℕ → Option ℕ → Prop
  | a, [], b => a = b
  | a, p :: ps, b => a = some p ∧ ∃ v, s.read p = some v ∧ Chain next s (next v) ps b

variable {next : V → Option ℕ} {s' : Store V} {a b : Option ℕ}

/-- Every cell of a chain is allocated. -/
theorem Chain.read_mem (h : Chain next s a ps b) : ∀ p ∈ ps, ∃ v, s.read p = some v := by
  induction ps generalizing a with
  | nil => simp
  | cons q qs ih =>
    obtain ⟨-, v, hv, hrest⟩ := h
    intro p hp
    rcases List.mem_cons.mp hp with rfl | hp
    · exact ⟨v, hv⟩
    · exact ih hrest p hp

/-- A chain only depends on the link fields of its own cells. -/
theorem Chain.congr (h : Chain next s a ps b)
    (hlink : ∀ p ∈ ps, (s'.read p).map next = (s.read p).map next) : Chain next s' a ps b := by
  induction ps generalizing a with
  | nil => exact h
  | cons q qs ih =>
    obtain ⟨ha, v, hv, hrest⟩ := h
    obtain ⟨w, hw, hnw⟩ := exists_read_of_map (hlink q (by simp)) hv
    refine ⟨ha, w, hw, ?_⟩
    rw [hnw]
    exact ih hrest (fun p hp => hlink p (by simp [hp]))

/-- Walk a chain to its null end, listing the visited cells. -/
def walk (next : V → Option ℕ) (s : Store V) : ℕ → Option ℕ → Option (List ℕ)
  | _, none => some []
  | 0, some _ => none
  | n + 1, some p => (s.read p).bind fun v => (walk next s n (next v)).map (p :: ·)

/-- With enough fuel the walk returns the cells of the chain. -/
theorem Chain.walk_eq {a : Option ℕ} (h : Chain next s a ps none) {n : ℕ} (hn : ps.length ≤ n) :
    walk next s n a = some ps := by
  induction ps generalizing a n with
  | nil =>
    obtain rfl : a = none := h
    cases n <;> rfl
  | cons q qs ih =>
    obtain ⟨rfl, v, hv, hrest⟩ := h
    obtain ⟨m, rfl⟩ : ∃ m, n = m + 1 := ⟨n - 1, by simp at hn; omega⟩
    rw [walk, hv, Option.bind_some, ih hrest (by simpa using hn), Option.map_some]

end Store
