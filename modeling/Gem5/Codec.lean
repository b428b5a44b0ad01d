/-
# Coders with a state

A coder turns one item into another one and changes its state on the way, or fails.
An encoder and a decoder that stay in step item by item stay in step over a whole
list, so that decoding gives back what was encoded.
-/
import Mathlib

namespace Codec

variable {S A B C : Type*} {f : S → A → Option (B × S)}

/-- All items in order. -/
def codeAll (f : S → A → Option (B × S)) : S → List A → Option (List B × S)
  | s, [] => some ([], s)
  | s, a :: as =>
    (f s a).bind fun (b, s₁) => (codeAll f s₁ as).map fun (bs, s₂) => (b :: bs, s₂)

theorem codeAll_cons {s s1 s2 : S} {a : A} {as : List A} {b : B}
    {bs : List B} (hhead : f s a = some (b, s1)) (htail : codeAll f s1 as = some (bs, s2)) :
    codeAll f s (a :: as) = some (b :: bs, s2) := by
  rw [codeAll, hhead]
  show (codeAll f s1 as).map _ = _
  rw [htail]
  rfl

/-- Items that are coded alike may stand for each other. -/
theorem codeAll_congr {as as' : List A} (h : List.Forall₂ (fun a a' => ∀ s, f s a = f s a') as as')
    (s : S) : codeAll f s as = codeAll f s as' := by
  induction h generalizing s with
  | nil => rfl
  | cons hhead _ ih =>
    rw [codeAll, hhead s]
    congr 1
    funext p
    obtain ⟨b, s1⟩ := p
    simp only [ih s1]

/-- **Round trip**: `I m` says that `m` more items can be encoded. -/
theorem decode_encode {enc : S → A → Option (C × S)} {dec : S → C → Option (A × S)}
    {I : ℕ → S → Prop} (hstep : ∀ m s a, I (m + 1) s →
      ∃ c s', enc s a = some (c, s') ∧ dec s c = some (a, s') ∧ I m s')
    (as : List A) {m : ℕ} {s : S} (hs : I (as.length + m) s) :
    ∃ cs s', codeAll enc s as = some (cs, s') ∧ cs.length = as.length ∧
      codeAll dec s cs = some (as, s') ∧ I m s' := by
  induction as generalizing s with
  | nil =>
    refine ⟨[], s, rfl, rfl, rfl, ?_⟩
    simpa using hs
  | cons a as ih =>
    have hs' : I ((as.length + m) + 1) s := by
      rwa [List.length_cons, Nat.add_right_comm] at hs
    obtain ⟨c, s1, henc, hdec, hs1⟩ := hstep _ s a hs'
    obtain ⟨cs, s2, hencs, hlen, hdecs, hs2⟩ := ih hs1
    refine ⟨c :: cs, s2, codeAll_cons henc hencs, ?_, codeAll_cons hdec hdecs, hs2⟩
    rw [List.length_cons, List.length_cons, hlen]

end Codec
