/-
# Runs of partial step functions

A component is a partial step function on its states (`none` where the step
is not allowed or the program stops); `runSteps` folds it over a list of
actions.  `runSteps_invariant` is the rule every safety result goes through:
what one step preserves, a whole run preserves.

A component that promises to work when it is used as allowed is described by a
relation between states and actions (`AllowedSteps`).
-/
import Mathlib

open List Option

-- Named, so that two definitions with the same literals of `Fin` refer to the same proof.
theorem neZero_one : NeZero 1 := ⟨one_ne_zero⟩
theorem neZero_two : NeZero 2 := ⟨two_ne_zero⟩

variable {σ α : Type*} {step : σ → α → Option σ}

/-- The state after the actions, if every step is defined. -/
def runSteps (step : σ → α → Option σ) : σ → List α → Option σ
  | s, [] => some s
  | s, a :: as => (step s a).bind fun s' => runSteps step s' as

@[simp] theorem runSteps_nil (s : σ) : runSteps step s [] = some s := rfl

theorem runSteps_cons (s : σ) (a : α) (as : List α) :
    runSteps step s (a :: as) = (step s a).bind fun s' => runSteps step s' as := rfl

theorem runSteps_append (s : σ) (as bs : List α) :
    runSteps step s (as ++ bs) = (runSteps step s as).bind fun s' => runSteps step s' bs := by
  induction as generalizing s with
  | nil => rfl
  | cons a as ih =>
    rw [cons_append, runSteps_cons, runSteps_cons, bind_assoc]
    congr 1
    funext s'
    exact ih s'

/-- The last step of a run. -/
theorem runSteps_concat (s : σ) (as : List α) (a : α) :
    runSteps step s (as ++ [a]) = (runSteps step s as).bind fun s' => step s' a := by
  rw [runSteps_append]
  congr 1
  funext s'
  rw [runSteps_cons]
  cases step s' a <;> rfl

variable {s s' : σ} {as : List α} {a : α}

theorem exists_of_runSteps_concat (h : runSteps step s (as ++ [a]) = some s') :
    ∃ t, runSteps step s as = some t ∧ step t a = some s' := by
  rw [runSteps_concat] at h
  exact bind_eq_some_iff.mp h

variable {I : σ → Prop} {τ : Type*} {stepPart : τ → α → Option τ}

/-- The invariant rule for the actions of one run. -/
theorem runSteps_invariant_of_mem (hstep : ∀ s, ∀ a ∈ as, ∀ s', I s → step s a = some s' → I s')
    (hs : I s) (hrun : runSteps step s as = some s') : I s' := by
  induction as generalizing s with
  | nil =>
    cases hrun
    exact hs
  | cons a as ih =>
    rw [runSteps_cons, bind_eq_some_iff] at hrun
    obtain ⟨s1, h1, hrest⟩ := hrun
    exact ih (fun t a' ha' => hstep t a' (mem_cons_of_mem a ha'))
      (hstep s a mem_cons_self s1 hs h1) hrest

/-- **Invariant rule**: what every step preserves, every run preserves. -/
theorem runSteps_invariant (hstep : ∀ s a s', I s → step s a = some s' → I s')
    (hs : I s) (hrun : runSteps step s as = some s') : I s' :=
  runSteps_invariant_of_mem (fun s a _ => hstep s a) hs hrun

/-- **Loop rule**: if every action succeeds and keeps the invariant, so does a run. -/
theorem runSteps_total (hstep : ∀ s a, I s → ∃ s', step s a = some s' ∧ I s')
    (as : List α) (hs : I s) : ∃ s', runSteps step s as = some s' ∧ I s' := by
  induction as generalizing s with
  | nil => exact ⟨s, rfl, hs⟩
  | cons a as ih =>
    obtain ⟨s1, h1, hs1⟩ := hstep s a hs
    obtain ⟨s2, h2, hs2⟩ := ih hs1
    exact ⟨s2, by rw [runSteps_cons, h1, bind_some, h2], hs2⟩

/-- **Counting loop rule**: the invariant may depend on the number of the round. -/
theorem runSteps_range {step : σ → ℕ → Option σ} {I : ℕ → σ → Prop} {n : ℕ}
    (hstep : ∀ j s, j < n → I j s → ∃ s', step s j = some s' ∧ I (j + 1) s')
    (hs : I 0 s) : ∃ s', runSteps step s (List.range n) = some s' ∧ I n s' := by
  induction n with
  | zero => exact ⟨s, rfl, hs⟩
  | succ n ih =>
    obtain ⟨s1, h1, hs1⟩ := ih fun j t hj => hstep j t (Nat.lt_succ_of_lt hj)
    obtain ⟨s2, h2, hs2⟩ := hstep n s1 (Nat.lt_succ_self n) hs1
    refine ⟨s2, ?_, hs2⟩
    rw [range_succ, runSteps_concat, h1, bind_some, h2]

/-- What every step changes in the same way. -/
theorem runSteps_iterate {f : σ → τ} {g : τ → τ}
    (hstep : ∀ s a s', step s a = some s' → f s' = g (f s)) (hrun : runSteps step s as = some s') :
    f s' = g^[as.length] (f s) := by
  induction as generalizing s with
  | nil =>
    cases hrun
    rfl
  | cons a as ih =>
    rw [runSteps_cons, bind_eq_some_iff] at hrun
    obtain ⟨s1, h1, hrest⟩ := hrun
    rw [ih hrest, hstep s a s1 h1]
    rfl

/-- **Projection rule**: if the actions of one part change it as a step function of its
own says and the others leave it alone, a run is a run of the part. -/
theorem runSteps_project (part : σ → τ) (mine : α → Bool)
    (hmine : ∀ s a s', mine a → step s a = some s' → stepPart (part s) a = some (part s'))
    (hother : ∀ s a s', ¬ mine a → step s a = some s' → part s' = part s)
    (hrun : runSteps step s as = some s') :
    runSteps stepPart (part s) (as.filter mine) = some (part s') := by
  induction as generalizing s with
  | nil =>
    cases hrun
    rfl
  | cons a as ih =>
    rw [runSteps_cons, bind_eq_some_iff] at hrun
    obtain ⟨s1, h1, hrest⟩ := hrun
    by_cases ha : mine a
    · rw [filter_cons_of_pos ha, runSteps_cons, hmine s a s1 ha h1, bind_some, ih hrest]
    · rw [filter_cons_of_neg ha, ← hother s a s1 ha h1, ih hrest]

/-- **Condition rule**: if a defined step keeps the invariant just when it meets
a condition on the state before it, the invariant holds in all states a run
goes through just when all its steps meet the condition. -/
theorem runSteps_prefix_iff_of_allowed {allowed ok : σ → α → Prop}
    (hstep : ∀ s a s', I s → allowed s a → step s a = some s' → (I s' ↔ ok s a)) (hs : I s)
    (hallowed : ∀ pre a t, pre ++ [a] <+: as → runSteps step s pre = some t → allowed t a) :
    (∀ pre t, pre <+: as → runSteps step s pre = some t → I t) ↔
      ∀ pre a t t', pre ++ [a] <+: as → runSteps step s pre = some t → step t a = some t' →
        ok t a := by
  constructor
  · intro hall pre a t t' hpre hrun hnext
    have hI := hall pre t ((prefix_append pre [a]).trans hpre) hrun
    refine (hstep t a t' hI (hallowed pre a t hpre hrun) hnext).mp (hall _ t' hpre ?_)
    rw [runSteps_concat, hrun, bind_some, hnext]
  · intro hok pre
    induction pre using reverseRecOn with
    | nil =>
      intro t _ hrun
      cases hrun
      exact hs
    | append_singleton pre a ih =>
      intro t hpre hrun
      rw [runSteps_concat, bind_eq_some_iff] at hrun
      obtain ⟨t1, h1, hnext⟩ := hrun
      have hI := ih t1 ((prefix_append pre [a]).trans hpre) h1
      exact (hstep t1 a t hI (hallowed pre a t1 hpre h1) hnext).mpr (hok pre a t1 t hpre h1 hnext)

/-! ## Runs of allowed actions -/

/-- Every action is allowed in the state it is taken in. -/
def AllowedSteps (step : σ → α → Option σ) (allowed : σ → α → Prop) : σ → List α → Prop
  | _, [] => True
  | s, a :: as => allowed s a ∧ ∀ s', step s a = some s' → AllowedSteps step allowed s' as

namespace AllowedSteps

variable {allowed : σ → α → Prop} {pre : List α}

instance decidable [∀ s a, Decidable (allowed s a)] : (s : σ) → (as : List α) →
    Decidable (AllowedSteps step allowed s as)
  | _, [] => isTrue trivial
  | s, a :: as =>
    match hs : step s a with
    | none => decidable_of_iff (allowed s a) (by simp [AllowedSteps, hs])
    | some s' =>
      have := AllowedSteps.decidable s' as
      decidable_of_iff (allowed s a ∧ AllowedSteps step allowed s' as)
        (by simp [AllowedSteps, hs])

theorem cons (ha : allowed s a) (hs : step s a = some s')
    (h : AllowedSteps step allowed s' as) : AllowedSteps step allowed s (a :: as) :=
  ⟨ha, fun _ hs' => mem_unique hs hs' ▸ h⟩

theorem append {bs : List α} (h : AllowedSteps step allowed s (as ++ bs)) :
    AllowedSteps step allowed s as ∧
      ∀ t, runSteps step s as = some t → AllowedSteps step allowed t bs := by
  induction as generalizing s with
  | nil =>
    refine ⟨trivial, ?_⟩
    rintro t ht
    cases ht
    exact h
  | cons a as ih =>
    refine ⟨⟨h.1, fun s' hs' => (ih (h.2 s' hs')).1⟩, ?_⟩
    intro t ht
    rw [runSteps_cons, bind_eq_some_iff] at ht
    obtain ⟨s', hs', ht⟩ := ht
    exact (ih (h.2 s' hs')).2 t ht

theorem of_prefix (h : AllowedSteps step allowed s as)
    (hpre : pre <+: as) : AllowedSteps step allowed s pre := by
  obtain ⟨rest, rfl⟩ := hpre
  exact h.append.1

/-- The step after a prefix is allowed. -/
theorem next {t : σ} (h : AllowedSteps step allowed s as)
    (hpre : pre ++ [a] <+: as) (hrun : runSteps step s pre = some t) : allowed t a :=
  ((h.of_prefix hpre).append.2 t hrun).1

theorem mono {allowed' : σ → α → Prop} (himp : ∀ s a, allowed s a → allowed' s a)
    (h : AllowedSteps step allowed s as) : AllowedSteps step allowed' s as := by
  induction as generalizing s with
  | nil => trivial
  | cons a as ih => exact ⟨himp s a h.1, fun s' hs' => ih (h.2 s' hs')⟩

/-- **Invariant rule**: what every allowed step preserves, every allowed run preserves. -/
theorem invariant (hstep : ∀ s a s', I s → allowed s a → step s a = some s' → I s') (hs : I s)
    (h : AllowedSteps step allowed s as) (hrun : runSteps step s as = some s') : I s' := by
  induction as generalizing s with
  | nil =>
    cases hrun
    exact hs
  | cons a as ih =>
    rw [runSteps_cons, bind_eq_some_iff] at hrun
    obtain ⟨s1, h1, hrest⟩ := hrun
    exact ih (hstep s a s1 hs h.1 h1) (h.2 s1 h1) hrest

/-- **Condition rule**: if a correct step keeps the invariant and is one that meets a condition
on the state before it, all steps of a run are correct just when all meet the condition. -/
theorem correct_iff {correct ok : σ → α → Prop}
    (hstep : ∀ s a, I s → allowed s a → (correct s a ↔ ok s a))
    (hnext : ∀ s a s', correct s a → step s a = some s' → I s') (hs : I s)
    (h : AllowedSteps step allowed s as) :
    AllowedSteps step correct s as ↔ AllowedSteps step ok s as := by
  induction as generalizing s with
  | nil => exact .rfl
  | cons a as ih =>
    have hiff := hstep s a hs h.1
    constructor
    · rintro ⟨ha, hrest⟩
      exact ⟨hiff.mp ha, fun s' hs' => (ih (hnext s a s' ha hs') (h.2 s' hs')).mp (hrest s' hs')⟩
    · rintro ⟨ha, hrest⟩
      have hcorrect := hiff.mpr ha
      exact ⟨hcorrect, fun s' hs' =>
        (ih (hnext s a s' hcorrect hs') (h.2 s' hs')).mpr (hrest s' hs')⟩

/-- The actions of one part are allowed for the part. -/
theorem project {allowedPart : τ → α → Prop} (part : σ → τ) (mine : α → Bool)
    (hmine : ∀ s a s', mine a → step s a = some s' → stepPart (part s) a = some (part s'))
    (hother : ∀ s a s', ¬ mine a → step s a = some s' → part s' = part s)
    (hpart : ∀ s a, mine a → allowed s a → allowedPart (part s) a)
    (hrun : runSteps step s as = some s') (h : AllowedSteps step allowed s as) :
    AllowedSteps stepPart allowedPart (part s) (as.filter mine) := by
  induction as generalizing s with
  | nil => trivial
  | cons a as ih =>
    rw [runSteps_cons, bind_eq_some_iff] at hrun
    obtain ⟨s1, h1, hrest⟩ := hrun
    by_cases ha : mine a
    · rw [filter_cons_of_pos ha]
      refine ⟨hpart s a ha h.1, ?_⟩
      intro t ht
      rw [hmine s a s1 ha h1, some.injEq] at ht
      rw [← ht]
      exact ih hrest (h.2 s1 h1)
    · rw [filter_cons_of_neg ha, ← hother s a s1 ha h1]
      exact ih hrest (h.2 s1 h1)

/-- **Refinement rule**: if every allowed step succeeds, keeps the invariant and
does to the abstract state what `next` says, so does every allowed run. -/
theorem refine (abstract : σ → τ) (next : τ → α → τ) (hstep : ∀ s a, I s → allowed s a →
      ∃ s', step s a = some s' ∧ I s' ∧ abstract s' = next (abstract s) a)
    (hs : I s) (hallowed : AllowedSteps step allowed s as) :
    ∃ s', runSteps step s as = some s' ∧ I s' ∧ abstract s' = as.foldl next (abstract s) := by
  induction as generalizing s with
  | nil => exact ⟨s, rfl, hs, rfl⟩
  | cons a as ih =>
    obtain ⟨ha, hrest⟩ := hallowed
    obtain ⟨s1, h1, hs1, habs1⟩ := hstep s a hs ha
    obtain ⟨s2, h2, hs2, habs2⟩ := ih hs1 (hrest s1 h1)
    refine ⟨s2, by rw [runSteps_cons, h1, bind_some, h2], hs2, ?_⟩
    rw [habs2, habs1, foldl_cons]

/-- **Progress rule**: if every allowed step succeeds and keeps the invariant,
so does every allowed run. -/
theorem run (hstep : ∀ s a, I s → allowed s a → ∃ s', step s a = some s' ∧ I s') (hs : I s)
    (hallowed : AllowedSteps step allowed s as) : ∃ s', runSteps step s as = some s' ∧ I s' := by
  have hrefine := refine (fun _ => ()) (fun _ _ => ())
    (fun s a hs ha => (hstep s a hs ha).imp fun _ h => ⟨h.1, h.2, rfl⟩) hs hallowed
  obtain ⟨s', hrun, hI, -⟩ := hrefine
  exact ⟨s', hrun, hI⟩

end AllowedSteps

/-! ## What happened since -/

/-- There was an action with `A`, and none with `B` after it. -/
def Since (A B : α → Prop) (as : List α) : Prop :=
  ∃ pre a post, as = pre ++ a :: post ∧ A a ∧ ∀ b ∈ post, ¬ B b

theorem not_since_nil (A B : α → Prop) : ¬ Since A B [] := by
  rintro ⟨pre, a, post, h, -⟩
  exact absurd h (append_ne_nil_of_right_ne_nil _ (cons_ne_nil _ _)).symm

theorem since_concat {A B : α → Prop} : Since A B (as ++ [a]) ↔ A a ∨ Since A B as ∧ ¬ B a := by
  constructor
  · rintro ⟨pre, b, post, h, hA, hB⟩
    rcases eq_nil_or_concat post with rfl | ⟨post, c, rfl⟩
    · obtain ⟨-, hab⟩ := append_inj' h rfl
      cases hab
      exact .inl hA
    · rw [concat_eq_append, ← cons_append, ← append_assoc] at h
      obtain ⟨rfl, hac⟩ := append_inj' h rfl
      cases hac
      refine .inr ⟨⟨pre, b, post, rfl, hA, ?_⟩, ?_⟩
      · intro c hc
        exact hB c (by rw [concat_eq_append]; exact mem_append_left _ hc)
      · exact hB a (by rw [concat_eq_append]; exact mem_append_right _ mem_cons_self)
  · rintro (hA | ⟨⟨pre, b, post, rfl, hA, hB⟩, hno⟩)
    · exact ⟨as, a, [], rfl, hA, by simp⟩
    · refine ⟨pre, b, post ++ [a], by simp, hA, ?_⟩
      exact forall_mem_append.mpr ⟨hB, forall_mem_singleton.mpr hno⟩
