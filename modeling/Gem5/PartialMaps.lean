/-
# Partial maps made of blocks

A block is a partial map on the points (`den`), and a list of blocks is the map
that gives a point the value of the first block that has one (`lookup`).  Two
blocks are `Apart` when no point has a value in both; then the order of the list
does not matter.

Cutting, dropping and moving parts of a map is one operation: the new map takes
the value of a point from another point, or from nowhere (`pullback`).
-/
import Mathlib

open Option

namespace PartialMaps

variable {ι α β : Type*} {den : ι → α → Option β} {l : List ι} {a : α} {b : β}

/-- The value of a point. -/
def lookup (den : ι → α → Option β) (l : List ι) (a : α) : Option β := l.findSome? (den · a)

/-- No point has a value in both blocks. -/
def Apart (den : ι → α → Option β) (x y : ι) : Prop := ∀ a, den x a = none ∨ den y a = none

theorem Apart.symm {x y : ι} (h : Apart den x y) : Apart den y x := fun a => (h a).symm

@[simp] theorem lookup_nil (a : α) : lookup den [] a = none := rfl

theorem lookup_append (l l' : List ι) (a : α) :
    lookup den (l ++ l') a = (lookup den l a).or (lookup den l' a) := List.findSome?_append

@[simp] theorem lookup_singleton (x : ι) (a : α) : lookup den [x] a = den x a := by
  simp [lookup]

theorem lookup_cons (x : ι) (l : List ι) (a : α) :
    lookup den (x :: l) a = (den x a).or (lookup den l a) := by
  rw [← List.singleton_append, lookup_append, lookup_singleton]

theorem lookup_eq_none_iff :
    lookup den l a = none ↔ ∀ x ∈ l, den x a = none := List.findSome?_eq_none_iff

theorem exists_of_lookup (h : lookup den l a = some b) :
    ∃ x ∈ l, den x a = some b := List.exists_of_findSome?_eq_some h

theorem lookup_eq_some_iff (hl : l.Pairwise (Apart den)) :
    lookup den l a = some b ↔ ∃ x ∈ l, den x a = some b := by
  refine ⟨exists_of_lookup, ?_⟩
  induction l with
  | nil =>
    rintro ⟨x, hx, -⟩
    cases hx
  | cons y l ih =>
    rintro ⟨x, hx, hb⟩
    obtain ⟨hy, hl⟩ := List.pairwise_cons.mp hl
    rw [lookup_cons]
    rcases List.mem_cons.mp hx with rfl | hx
    · rw [hb, some_or]
    · -- the first block has no value where a later one has
      have hnone : den y a = none := ((hy x hx) a).resolve_right (by simp [hb])
      rw [hnone]
      exact ih hl ⟨x, hx, hb⟩

theorem pairwise_apart_perm {l l' : List ι} (hl : l.Pairwise (Apart den)) (hp : l.Perm l') :
    l'.Pairwise (Apart den) :=
  (hp.pairwise_iff fun h => Apart.symm h).mp hl

/-- The order of blocks that are apart does not matter. -/
theorem lookup_perm {l l' : List ι} (hl : l.Pairwise (Apart den)) (hp : l.Perm l') :
    lookup den l = lookup den l' := by
  funext a
  refine ext fun b => ?_
  rw [lookup_eq_some_iff hl, lookup_eq_some_iff (pairwise_apart_perm hl hp)]
  exact exists_congr fun x => and_congr_left fun _ => hp.mem_iff

/-! ## Taking values from other points -/

/-- The value of a point is that of `src` of it. -/
def pullback (src : α → Option α) (m : α → Option β) (a : α) : Option β := (src a).bind m

/-- The blocks of `l'` are apart and make up the pullback of those of `l`. -/
structure Pulls (den : ι → α → Option β) (src : α → Option α) (l l' : List ι) : Prop where
  apart : l'.Pairwise (Apart den)
  lookup_eq : lookup den l' = pullback src (lookup den l)

namespace Pulls

variable {src : α → Option α} {l' l₁ l₂ k k' k₁ k₂ : List ι} {x : ι}

theorem nil : Pulls den src [] [] := by
  refine ⟨List.Pairwise.nil, ?_⟩
  funext a
  cases h : src a <;> simp [pullback, h]

/-- The pieces of one block. -/
theorem of_lookup (hk : k.Pairwise (Apart den))
    (h : ∀ a, lookup den k a = (src a).bind (den x)) : Pulls den src [x] k := by
  refine ⟨hk, ?_⟩
  funext a
  rw [h]
  cases hs : src a <;> simp [pullback, hs]

/-- Blocks that the change leaves alone. -/
theorem unchanged (hl : l.Pairwise (Apart den))
    (h : ∀ a, src a = some a ∨ lookup den l a = none ∧ (src a).bind (lookup den l) = none) :
    Pulls den src l l := by
  refine ⟨hl, ?_⟩
  funext a
  rcases h a with h | ⟨h, h'⟩
  · rw [pullback, h, bind_some]
  · rw [pullback, h, h']

theorem perm (h : Pulls den src l k) (hp : k.Perm k') : Pulls den src l k' :=
  ⟨pairwise_apart_perm h.apart hp, (lookup_perm h.apart hp).symm.trans h.lookup_eq⟩

theorem congr (h : Pulls den src l k) (heq : lookup den l = lookup den l') :
    Pulls den src l' k := ⟨h.apart, by rw [h.lookup_eq, heq]⟩

/-- The pieces of two lists of blocks that are apart are apart. -/
theorem append (h1 : Pulls den src l₁ k₁) (h2 : Pulls den src l₂ k₂)
    (hl : ∀ x ∈ l₁, ∀ y ∈ l₂, Apart den x y) : Pulls den src (l₁ ++ l₂) (k₁ ++ k₂) := by
  constructor
  · refine List.pairwise_append.mpr ⟨h1.apart, h2.apart, ?_⟩
    intro p hp q hq a
    by_contra! hboth
    obtain ⟨b, hb⟩ := ne_none_iff_exists'.mp hboth.1
    obtain ⟨c, hc⟩ := ne_none_iff_exists'.mp hboth.2
    have hvalue1 : lookup den k₁ a = some b := (lookup_eq_some_iff h1.apart).mpr ⟨p, hp, hb⟩
    have hvalue2 : lookup den k₂ a = some c := (lookup_eq_some_iff h2.apart).mpr ⟨q, hq, hc⟩
    rw [h1.lookup_eq, pullback, bind_eq_some_iff] at hvalue1
    rw [h2.lookup_eq, pullback, bind_eq_some_iff] at hvalue2
    -- both values come from one point, where only one of the lists has a value
    obtain ⟨a1, hsrc1, hvalue1⟩ := hvalue1
    obtain ⟨a2, hsrc2, hvalue2⟩ := hvalue2
    obtain rfl : a1 = a2 := some.inj (hsrc1.symm.trans hsrc2)
    obtain ⟨x, hx, hxb⟩ := exists_of_lookup hvalue1
    obtain ⟨y, hy, hyc⟩ := exists_of_lookup hvalue2
    rcases hl x hx y hy a1 with hnone | hnone
    · exact absurd (hnone.symm.trans hxb) (by simp)
    · exact absurd (hnone.symm.trans hyc) (by simp)
  · funext a
    rw [lookup_append, h1.lookup_eq, h2.lookup_eq]
    unfold pullback
    cases src a with
    | none => rfl
    | some a0 => rw [bind_some, bind_some, bind_some, lookup_append]

theorem cons (h1 : Pulls den src [x] k₁) (h2 : Pulls den src l₂ k₂)
    (hl : ∀ y ∈ l₂, Apart den x y) : Pulls den src (x :: l₂) (k₁ ++ k₂) :=
  h1.append h2 fun y hy => by rwa [List.mem_singleton.mp hy]

end Pulls

end PartialMaps
