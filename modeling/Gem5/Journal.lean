/-
# Undo journals

A component that changes its state speculatively keeps the entries it needs to
undo the changes, youngest first.  Here a *record* is what one transaction
did: its sequence number, its undo entries, the state it left, and whether it
has been committed (its entries are then gone).

`Backed undo s₀ s log` ties the current state to the records: undoing the
entries of the uncommitted records leads back through the states they left.
-/
import Mathlib

open List

namespace Journal

/-- What one transaction did; the entries are youngest first. -/
structure Record (σ ε : Type*) where
  seq : ℕ
  entries : List ε
  after : σ
  committed : Bool

variable {σ ε : Type*} {undo : σ → ε → σ} {s₀ s : σ} {log : List (Record σ ε)} {sn : ℕ}
  {seqOf : ε → ℕ} {r : Record σ ε} {l l' : List α} {p : α → Bool} {α : Type*}

/-- The entries still kept: those of the uncommitted records. -/
def pending (log : List (Record σ ε)) : List ε :=
  (log.filter (!·.committed)).flatMap Record.entries

/-- The state the youngest record left, or the initial one. -/
def current (s₀ : σ) (log : List (Record σ ε)) : σ :=
  match log with
  | [] => s₀
  | r :: _ => r.after

/-- Mark the records up to a sequence number as committed. -/
def commit (sn : ℕ) (log : List (Record σ ε)) : List (Record σ ε) :=
  log.map fun r => if r.seq ≤ sn then { r with committed := true } else r

/-- Remove the records after a sequence number. -/
def squash (sn : ℕ) (log : List (Record σ ε)) : List (Record σ ε) :=
  log.filter (·.seq ≤ sn)

/-- The records from a sequence number on. -/
def after (sn : ℕ) (log : List (Record σ ε)) : List (Record σ ε) :=
  log.filter (sn < ·.seq)

/-- Sequence numbers decrease from the youngest record on. -/
def Sorted (log : List (Record σ ε)) : Prop := log.Pairwise fun r r' => r'.seq < r.seq

/-- The state is the one the youngest record left; undoing that record's
entries, if they are still kept, leads to the state backed by the rest. -/
def Backed (undo : σ → ε → σ) (s₀ : σ) : σ → List (Record σ ε) → Prop
  | s, [] => s = s₀
  | s, r :: log =>
    s = r.after ∧ (r.committed = false → Backed undo s₀ (r.entries.foldl undo s) log)

/-! ## Sequence numbers split a sorted journal -/

theorem squash_eq_self (h : ∀ r ∈ log, r.seq ≤ sn) : squash sn log = log := by
  simpa [squash] using h

theorem after_eq_nil (h : ∀ r ∈ log, r.seq ≤ sn) : after sn log = [] := by
  simpa [after] using h

theorem Sorted.forall_le (hs : Sorted (r :: log)) (hle : r.seq ≤ sn) :
    ∀ r' ∈ r :: log, r'.seq ≤ sn := by
  intro r' hr'
  rcases mem_cons.mp hr' with rfl | hr'
  · exact hle
  · exact ((pairwise_cons.mp hs).1 r' hr').le.trans hle

/-- A sorted journal is its younger part followed by its older part. -/
theorem Sorted.split (hs : Sorted log) (sn : ℕ) : log = after sn log ++ squash sn log := by
  induction log with
  | nil => rfl
  | cons r log ih =>
    by_cases hlt : sn < r.seq
    · have htail := ih (pairwise_cons.mp hs).2
      simp only [after, squash, filter_cons, hlt, Nat.not_le.mpr hlt, decide_true, if_true,
        cons_append] at htail ⊢
      simpa using htail
    · have hall := hs.forall_le (Nat.le_of_not_lt hlt)
      rw [after_eq_nil hall, squash_eq_self hall, nil_append]

/-- The kept entries split the same way. -/
theorem Sorted.pending_split (hs : Sorted log) (sn : ℕ) :
    pending log = pending (after sn log) ++ pending (squash sn log) := by
  simpa [pending] using congrArg pending (hs.split sn)

/-- After a commit the kept entries are those of the younger records. -/
theorem pending_commit (sn : ℕ) (log : List (Record σ ε)) :
    pending (commit sn log) = pending (after sn log) := by
  induction log with
  | nil => rfl
  | cons r log ih =>
    have hcons : ∀ (r : Record σ ε) (log : List (Record σ ε)),
        pending (r :: log) = (if r.committed then [] else r.entries) ++ pending log := by
      intro r log
      cases hr : r.committed <;> simp [pending, hr]
    by_cases hle : r.seq ≤ sn
    · simpa [commit, after, hle, hcons] using ih
    · have hlt : sn < r.seq := by omega
      simpa [commit, after, hle, hlt, hcons] using ih

theorem mem_commit (h : r ∈ commit sn log) :
    ∃ r' ∈ log, r.seq = r'.seq ∧ r.entries = r'.entries ∧
      (r.committed → r'.committed ∨ r'.seq ≤ sn) := by
  obtain ⟨r', hr', rfl⟩ := mem_map.mp h
  refine ⟨r', hr', ?_⟩
  split
  · exact ⟨rfl, rfl, fun _ => .inr ‹_›⟩
  · exact ⟨rfl, rfl, .inl⟩

theorem Sorted.commit (hs : Sorted log) (sn : ℕ) : Sorted (commit sn log) := by
  refine pairwise_map.mpr (hs.imp ?_)
  intro r r' hlt
  split <;> split <;> exact hlt

theorem Sorted.squash (hs : Sorted log) (sn : ℕ) : Sorted (squash sn log) := hs.filter _

/-! ## Backed states -/

theorem Backed.eq_current (hb : Backed undo s₀ s log) : s = current s₀ log := by
  cases log with
  | nil => exact hb
  | cons r log => exact hb.1

theorem Backed.commit (hb : Backed undo s₀ s log) (sn : ℕ) : Backed undo s₀ s (commit sn log) := by
  induction log generalizing s with
  | nil => exact hb
  | cons r log ih =>
    by_cases hle : r.seq ≤ sn
    · simp only [Journal.commit, map_cons, hle]
      exact ⟨hb.1, fun h => by simp at h⟩
    · simp only [Journal.commit, map_cons, hle]
      exact ⟨hb.1, fun h => ih (hb.2 h)⟩

/-- **Rollback.**  Undoing the entries of the records after `sn`, youngest
first, gives the state backed by the records up to `sn`, as long as no record
after `sn` is committed. -/
theorem Backed.squash (hb : Backed undo s₀ s log) (hs : Sorted log)
    (hsafe : ∀ r ∈ log, r.committed → r.seq ≤ sn) :
    Backed undo s₀ ((pending (after sn log)).foldl undo s) (squash sn log) := by
  induction log generalizing s with
  | nil => exact hb
  | cons r log ih =>
    by_cases hlt : sn < r.seq
    · have hopen : r.committed = false := by
        by_contra hc
        have := hsafe r (by simp) (by simpa using hc)
        omega
      have htail := ih (hb.2 hopen) (pairwise_cons.mp hs).2 fun r' hr' => hsafe r' (by simp [hr'])
      simpa [after, Journal.squash, pending, hlt, hopen] using htail
    · have hall := hs.forall_le (Nat.le_of_not_lt hlt)
      rw [after_eq_nil hall, squash_eq_self hall]
      exact hb

/-! ## Finding the split in the kept entries -/

/-- Where a predicate holds on the first part of a list and fails on the
second, scanning from the front finds the split. -/
theorem takeWhile_append_split (h : ∀ a ∈ l, p a)
    (h' : ∀ a ∈ l', ¬ p a) : (l ++ l').takeWhile p = l ∧ (l ++ l').dropWhile p = l' := by
  induction l with
  | nil =>
    cases l' with
    | nil => exact ⟨rfl, rfl⟩
    | cons a l' => simp [h' a (by simp)]
  | cons a l ih =>
    obtain ⟨h1, h2⟩ := ih fun b hb => h b (by simp [hb])
    simp [h a (by simp), h1, h2]

/-- And so does scanning from the back. -/
theorem rdropWhile_append_split (h : ∀ a ∈ l, ¬ p a)
    (h' : ∀ a ∈ l', p a) : (l ++ l').rdropWhile p = l := by
  have hl' : ∀ a ∈ l'.reverse, p a := by simpa using h'
  have hl : ∀ a ∈ l.reverse, ¬ p a := by simpa using h
  rw [rdropWhile, reverse_append, (takeWhile_append_split hl' hl).2, reverse_reverse]

/-- Every entry carries the sequence number of its record. -/
def Stamped (seqOf : ε → ℕ) (log : List (Record σ ε)) : Prop :=
  ∀ r ∈ log, ∀ e ∈ r.entries, seqOf e = r.seq

theorem Stamped.pending_of (hst : Stamped seqOf log) {p : ℕ → Prop} {log' : List (Record σ ε)}
    (hsub : ∀ r ∈ log', r ∈ log ∧ p r.seq) : ∀ e ∈ pending log', p (seqOf e) := by
  intro e he
  obtain ⟨r, hr, he⟩ := mem_flatMap.mp he
  obtain ⟨hmem, hp⟩ := hsub r (mem_of_mem_filter hr)
  rwa [hst r hmem e he]

/-- Entries after `sn` and up to `sn` in the kept entries. -/
theorem Stamped.lt_of_after (hst : Stamped seqOf log) (sn : ℕ) :
    ∀ e ∈ pending (after sn log), sn < seqOf e :=
  hst.pending_of (p := (sn < ·)) fun r hr => by simpa [after] using hr

theorem Stamped.le_of_squash (hst : Stamped seqOf log) (sn : ℕ) :
    ∀ e ∈ pending (Journal.squash sn log), seqOf e ≤ sn :=
  hst.pending_of (p := (· ≤ sn)) fun r hr => by simpa [Journal.squash] using hr

end Journal
