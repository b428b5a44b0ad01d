/-
# Bins of stacks

A priority queue that serves equal keys last-in first-out, as mathematics: a
list of bins in strictly increasing key order, each bin a non-empty stack of
elements listed top first.

The purpose of the structure is the relation `Tracks key b ref`: the bins `b`
hold exactly the elements of the recency list `ref` (most recent first), every
bin being the sublist of `ref` with that key.
-/
import Mathlib

open List

/-- Bins in key order, each a stack listed top first. -/
abbrev Bins (K α : Type*) := List (K × List α)

namespace Bins

variable {K α : Type*} {k : K} {a : α} {b : Bins K α} {st : List α}

/-- All elements, bin by bin. -/
def elems (b : Bins K α) : List α := (b.map Prod.snd).flatten

@[simp] theorem elems_nil : elems ([] : Bins K α) = [] := rfl

@[simp] theorem elems_cons (k : K) (st : List α) (b : Bins K α) :
    elems ((k, st) :: b) = st ++ elems b := rfl

@[simp] theorem elems_append (b b' : Bins K α) : elems (b ++ b') = b.elems ++ b'.elems := by
  simp [elems]

theorem mem_elems : a ∈ elems b ↔ ∃ x ∈ b, a ∈ x.2 := by
  simp only [elems, mem_flatten, mem_map, exists_exists_and_eq_and]

theorem mem_elems_cons : a ∈ elems ((k, st) :: b) ↔ a ∈ st ∨ a ∈ elems b := mem_append

theorem notMem_of_nodup {pre post : Bins K α}
    (h : (elems (pre ++ (k, a :: st) :: post)).Nodup) : a ∉ post.elems := by
  rw [elems_append] at h
  exact fun ha => (nodup_append.mp h.of_append_right).2.2 a (by simp) a ha rfl

variable [LinearOrder K] {x : K × List α} {pre : Bins K α}

/-! ## Operations -/

/-- Put `a` on top of the bin with key `k`, creating the bin if needed. -/
def push (k : K) (a : α) : Bins K α → Bins K α
  | [] => [(k, [a])]
  | (k', st) :: b =>
    if k < k' then (k, [a]) :: (k', st) :: b
    else if k = k' then (k', a :: st) :: b
    else (k', st) :: push k a b

/-- Take `a` out of the bin with key `k`, dropping the bin if it gets empty. -/
def erase [DecidableEq α] (k : K) (a : α) : Bins K α → Bins K α
  | [] => []
  | (k', st) :: b =>
    if k = k' then (if st.erase a = [] then b else (k', st.erase a) :: b)
    else (k', st) :: erase k a b

/-- The stack with key `k`, empty when there is no such bin. -/
def stackAt (k : K) : Bins K α → List α
  | [] => []
  | (k', st) :: b => if k = k' then st else stackAt k b

/-- Keys strictly increase and no bin is empty. -/
structure WF (b : Bins K α) : Prop where
  sorted : b.Pairwise fun x y => x.1 < y.1
  nonempty : ∀ x ∈ b, x.2 ≠ []

theorem WF.nil : WF ([] : Bins K α) := ⟨Pairwise.nil, by simp⟩

theorem WF.tail (h : WF (x :: b)) : WF b :=
  ⟨(pairwise_cons.mp h.sorted).2, fun y hy => h.nonempty y (by simp [hy])⟩

theorem WF.head_lt (h : WF (x :: b)) : ∀ y ∈ b, x.1 < y.1 :=
  (pairwise_cons.mp h.sorted).1

theorem WF.cons (h : WF b) (hx : x.2 ≠ []) (hlt : ∀ y ∈ b, x.1 < y.1) : WF (x :: b) :=
  ⟨pairwise_cons.mpr ⟨hlt, h.sorted⟩, forall_mem_cons.mpr ⟨hx, h.nonempty⟩⟩

theorem WF.lt_of_lt_head (h : WF (x :: b)) (hk : k < x.1) : ∀ y ∈ x :: b, k < y.1 :=
  forall_mem_cons.mpr ⟨hk, fun y hy => hk.trans (h.head_lt y hy)⟩

/-- Below the first key there is no bin. -/
theorem stackAt_eq_nil (h : ∀ y ∈ b, k < y.1) : stackAt k b = [] := by
  induction b with
  | nil => rfl
  | cons x b ih =>
    obtain ⟨k', st⟩ := x
    have hk : k ≠ k' := ne_of_lt (h (k', st) (by simp))
    rw [stackAt, if_neg hk]
    exact ih (fun y hy => h y (by simp [hy]))

theorem stackAt_of_mem (h : WF b) (hx : x ∈ b) : stackAt x.1 b = x.2 := by
  induction b with
  | nil => simp at hx
  | cons y b ih =>
    obtain ⟨k', st⟩ := y
    rcases mem_cons.mp hx with rfl | hx
    · simp [stackAt]
    · have hlt : k' < x.1 := h.head_lt x hx
      rw [stackAt, if_neg (ne_of_gt hlt)]
      exact ih h.tail hx

theorem mem_elems_iff (h : WF b) : a ∈ elems b ↔ ∃ k, a ∈ stackAt k b := by
  constructor
  · intro ha
    obtain ⟨x, hx, hst⟩ := mem_elems.mp ha
    exact ⟨x.1, by rwa [stackAt_of_mem h hx]⟩
  · rintro ⟨k, hk⟩
    clear h
    induction b with
    | nil => simp [stackAt] at hk
    | cons x b ih =>
      rw [stackAt] at hk
      rw [elems_cons, mem_append]
      split at hk
      · exact .inl hk
      · exact .inr (ih hk)

/-! ## `push` -/

theorem fst_mem_push : ∀ x ∈ push k a b, x.1 = k ∨ ∃ y ∈ b, x.1 = y.1 := by
  induction b with
  | nil => simp [push]
  | cons y b ih =>
    simp only [push]
    split_ifs <;> grind

/-- A push keeps the bins in order. -/
theorem WF.push (h : WF b) (k : K) (a : α) : WF (push k a b) := by
  induction b with
  | nil => exact ⟨by simp [Bins.push], by simp [Bins.push]⟩
  | cons x b ih =>
    obtain ⟨k', st⟩ := x
    rw [Bins.push]
    split_ifs with hlt heq
    · exact h.cons (by simp) (h.lt_of_lt_head hlt)
    · exact h.tail.cons (by simp) h.head_lt
    · apply (ih h.tail).cons (h.nonempty (k', st) (by simp))
      intro y hy
      rcases fst_mem_push y hy with hk | ⟨z, hz, hk⟩
      · rw [hk]
        exact lt_of_le_of_ne (not_lt.mp hlt) (Ne.symm heq)
      · rw [hk]
        exact h.head_lt z hz

/-- `push` changes one stack only. -/
theorem stackAt_push (h : WF b) (k k' : K) (a : α) :
    stackAt k' (push k a b) = if k' = k then a :: stackAt k b else stackAt k' b := by
  induction b with
  | nil => by_cases hk : k' = k <;> simp [push, stackAt]
  | cons x b ih =>
    obtain ⟨k0, st⟩ := x
    rw [push]
    by_cases hlt : k < k0
    · -- a new first bin: there was none with this key
      rw [if_pos hlt, stackAt, stackAt_eq_nil (h.lt_of_lt_head hlt)]
    rw [if_neg hlt]
    by_cases heq : k = k0
    · subst heq
      by_cases hk : k' = k <;> simp [stackAt, hk]
    · rw [if_neg heq, stackAt, ih h.tail, stackAt, stackAt, if_neg heq]
      by_cases hk : k' = k0
      · simp [hk, Ne.symm heq]
      · simp [hk]

/-- The bins below the key stay. -/
theorem push_append (h : ∀ x ∈ pre, x.1 < k) (b : Bins K α) :
    push k a (pre ++ b) = pre ++ push k a b := by
  induction pre with
  | nil => rfl
  | cons x pre ih =>
    obtain ⟨hx, hpre⟩ := forall_mem_cons.mp h
    rw [cons_append, push, if_neg hx.not_gt, if_neg hx.ne', ih hpre, cons_append]

theorem mem_elems_push {a x : α} : x ∈ elems (push k a b) ↔ x = a ∨ x ∈ elems b := by
  induction b with
  | nil => simp [push]
  | cons y b ih =>
    obtain ⟨k', st⟩ := y
    rw [push]
    split
    · simp
    · split
      · simp
      · rw [mem_elems_cons, mem_elems_cons]
        tauto

/-! ## `erase` -/

section Erase

variable [DecidableEq α]

theorem fst_mem_erase : ∀ x ∈ erase k a b, ∃ y ∈ b, x.1 = y.1 := by
  induction b with
  | nil => simp [erase]
  | cons y b ih =>
    simp only [erase]
    split_ifs <;> grind

/-- So does a removal. -/
theorem WF.erase (h : WF b) (k : K) (a : α) : WF (erase k a b) := by
  induction b with
  | nil => exact WF.nil
  | cons x b ih =>
    obtain ⟨k', st⟩ := x
    rw [Bins.erase]
    split_ifs with heq hnil
    · exact h.tail
    · exact h.tail.cons hnil h.head_lt
    · apply (ih h.tail).cons (h.nonempty (k', st) (by simp))
      intro y hy
      obtain ⟨z, hz, hk⟩ := fst_mem_erase y hy
      rw [hk]
      exact h.head_lt z hz

/-- `erase` changes one stack only. -/
theorem stackAt_erase (h : WF b) (k k' : K) (a : α) :
    stackAt k' (erase k a b) =
      if k' = k then (stackAt k b).erase a else stackAt k' b := by
  induction b with
  | nil => simp [erase, stackAt]
  | cons x b ih =>
    obtain ⟨k0, st⟩ := x
    rw [erase]
    by_cases heq : k = k0
    · subst heq
      by_cases hk : k' = k
      · subst hk
        by_cases hnil : st.erase a = []
        · simp [stackAt, hnil, stackAt_eq_nil h.head_lt]
        · simp [stackAt, hnil]
      · by_cases hnil : st.erase a = [] <;> simp [stackAt, hk, hnil]
    · rw [if_neg heq, stackAt, ih h.tail, stackAt, stackAt, if_neg heq]
      by_cases hk : k' = k0
      · simp [hk, Ne.symm heq]
      · simp [hk]

theorem erase_append (h : ∀ x ∈ pre, x.1 < k) (b : Bins K α) :
    erase k a (pre ++ b) = pre ++ erase k a b := by
  induction pre with
  | nil => rfl
  | cons x pre ih =>
    obtain ⟨hx, hpre⟩ := forall_mem_cons.mp h
    rw [cons_append, erase, if_neg hx.ne', ih hpre, cons_append]

theorem mem_of_mem_elems_erase {a x : α} (h : x ∈ elems (erase k a b)) : x ∈ elems b := by
  induction b with
  | nil => exact h
  | cons y b ih =>
    rw [erase] at h
    rw [mem_elems_cons]
    split at h
    · split at h
      · exact .inr h
      · rw [mem_elems_cons] at h
        exact h.imp_left mem_of_mem_erase
    · rw [mem_elems_cons] at h
      exact h.imp_right ih

end Erase

/-! ## Recency -/

/-- The bins hold the elements of the recency list `ref` (most recent first):
the stack with key `k` is the sublist of `ref` with that key. -/
structure Tracks (key : α → K) (b : Bins K α) (ref : List α) : Prop where
  wf : WF b
  stack : ∀ k, stackAt k b = ref.filter fun a => decide (key a = k)

variable {key : α → K} {ref : List α}

theorem Tracks.nil : Tracks key ([] : Bins K α) [] :=
  ⟨WF.nil, fun _ => rfl⟩

section

variable (h : Tracks key b ref)

include h

/-- A push inserts at the front. -/
theorem Tracks.push (a : α) : Tracks key (push (key a) a b) (a :: ref) := by
  refine ⟨h.wf.push _ _, fun k => ?_⟩
  rw [stackAt_push h.wf]
  by_cases hk : k = key a
  · subst hk
    simp [h.stack]
  · rw [if_neg hk, h.stack, filter_cons_of_neg (by simpa using Ne.symm hk)]

theorem Tracks.erase [DecidableEq α] (hnd : ref.Nodup) (a : α) :
    Tracks key (erase (key a) a b) (ref.erase a) := by
  refine ⟨h.wf.erase _ _, fun k => ?_⟩
  rw [stackAt_erase h.wf, hnd.erase_eq_filter, filter_filter]
  by_cases hk : k = key a
  · subst hk
    rw [if_pos rfl, h.stack, (hnd.filter _).erase_eq_filter, filter_filter]
    congr 1
    funext x
    rw [Bool.and_comm]
  · rw [if_neg hk, h.stack]
    apply filter_congr
    intro x _
    by_cases hx : x = a
    · subst hx
      simp [Ne.symm hk]
    · simp [hx]

/-- Only the keys of held elements matter. -/
theorem Tracks.congr_key {key' : α → K} (hkey : ∀ a ∈ ref, key' a = key a) : Tracks key' b ref := by
  refine ⟨h.wf, fun k => ?_⟩
  rw [h.stack]
  apply filter_congr
  intro a ha
  rw [hkey a ha]

/-- Every bin is the sublist of the recency list with the bin's key. -/
theorem Tracks.eq_filter (hx : x ∈ b) : x.2 = ref.filter fun a => decide (key a = x.1) := by
  rw [← h.stack, stackAt_of_mem h.wf hx]

theorem Tracks.key_eq (hx : x ∈ b) (ha : a ∈ x.2) : key a = x.1 := by
  rw [h.eq_filter hx] at ha
  simpa using (mem_filter.mp ha).2

theorem Tracks.mem_elems : a ∈ elems b ↔ a ∈ ref := by
  rw [mem_elems_iff h.wf]
  constructor
  · rintro ⟨k, hk⟩
    rw [h.stack] at hk
    exact (mem_filter.mp hk).1
  · intro ha
    exact ⟨key a, by rw [h.stack]; exact mem_filter.mpr ⟨ha, by simp⟩⟩

theorem Tracks.elems_nodup (hnd : ref.Nodup) : (elems b).Nodup := by
  rw [elems, nodup_flatten]
  constructor
  · intro st hst
    obtain ⟨x, hx, rfl⟩ := mem_map.mp hst
    rw [h.eq_filter hx]
    exact hnd.filter _
  · rw [pairwise_map]
    apply h.wf.sorted.imp_of_mem
    intro x y hx hy hlt a ha ha'
    rw [← h.key_eq hx ha, ← h.key_eq hy ha'] at hlt
    exact lt_irrefl _ hlt

/-- The bins hold the recency list's elements, each once. -/
theorem Tracks.perm (hnd : ref.Nodup) : (elems b).Perm ref :=
  (perm_ext_iff_of_nodup (h.elems_nodup hnd) hnd).mpr fun _ => h.mem_elems

end

/-- The element served next: its key is least, and it is the most recent
element with that key. -/
structure Next (key : α → K) (ref : List α) (a : α) : Prop where
  least : ∀ b ∈ ref, key a ≤ key b
  recent : ref.find? (fun b => decide (key b = key a)) = some a

theorem Next.mem (h : Next key ref a) : a ∈ ref := mem_of_find?_eq_some h.recent

/-- **The top of the first bin** is served next. -/
theorem Tracks.head {top : α} {below : List α} {rest : Bins K α}
    (h : Tracks key ((k, top :: below) :: rest) ref) : key top = k ∧ Next key ref top := by
  obtain rfl : key top = k := h.key_eq (x := (k, top :: below)) (by simp) (by simp)
  refine ⟨rfl, ?_, ?_⟩
  · intro a ha
    by_contra hlt
    have hnil := stackAt_eq_nil (h.wf.lt_of_lt_head (not_le.mp hlt))
    rw [h.stack] at hnil
    exact filter_eq_nil_iff.mp hnil a ha (by simp)
  · have hst := h.stack (key top)
    rw [stackAt, if_pos rfl] at hst
    rw [← head?_filter, ← hst]
    rfl

end Bins
