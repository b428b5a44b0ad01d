/-
# Taking bits out of a number

`dropBit p a` takes bit `p` out of `a` and moves the bits above it down by one;
`dropBits ps a` does so for each position of an ascending list.  Its bit `j` is
the bit of `a` at `keptAt ps j` (`testBit_dropBits`), and these are the positions
that are not in the list.
-/
import Mathlib

open List Nat

/-- `a` without its bit `p`. -/
def dropBit (p a : ℕ) : ℕ := 2 ^ p * (a / 2 ^ (p + 1)) + a % 2 ^ p

/-- `a` with the bit `b` put in at position `p`. -/
def insertBit (p : ℕ) (b : Bool) (a : ℕ) : ℕ :=
  2 ^ (p + 1) * (a / 2 ^ p) + (2 ^ p * b.toNat + a % 2 ^ p)

theorem testBit_dropBit (p a i : ℕ) :
    (dropBit p a).testBit i = if i < p then a.testBit i else a.testBit (i + 1) := by
  have hlt : a % 2 ^ p < 2 ^ p := mod_lt _ (by positivity)
  rw [dropBit, testBit_two_pow_mul_add _ hlt]
  split
  · rename_i hi
    rw [testBit_mod_two_pow, decide_eq_true hi, Bool.true_and]
  · rw [testBit_div_two_pow]
    congr 1
    omega

theorem testBit_insertBit (p : ℕ) (b : Bool) (a i : ℕ) :
    (insertBit p b a).testBit i
      = if i < p then a.testBit i else if i = p then b else a.testBit (i - 1) := by
  have hlt : a % 2 ^ p < 2 ^ p := mod_lt _ (by positivity)
  have hlow : 2 ^ p * b.toNat + a % 2 ^ p < 2 ^ (p + 1) := by
    have hb : b.toNat ≤ 1 := Bool.toNat_le b
    have hmul : 2 ^ p * b.toNat ≤ 2 ^ p * 1 := mul_le_mul_left _ hb
    omega
  rw [insertBit, testBit_two_pow_mul_add _ hlow]
  split
  · rw [testBit_two_pow_mul_add _ hlt]
    by_cases hip : i < p
    · rw [if_pos hip, if_pos hip, testBit_mod_two_pow, decide_eq_true hip, Bool.true_and]
    · obtain rfl : i = p := by omega
      rw [if_neg hip, if_neg hip, if_pos rfl, Nat.sub_self]
      cases b <;> rfl
  · rw [if_neg (by omega), if_neg (by omega), testBit_div_two_pow]
    congr 1
    omega

theorem dropBit_insertBit (p : ℕ) (b : Bool) (a : ℕ) : dropBit p (insertBit p b a) = a := by
  apply eq_of_testBit_eq
  intro i
  rw [testBit_dropBit]
  split
  · rename_i hi
    rw [testBit_insertBit, if_pos hi]
  · rw [testBit_insertBit, if_neg (by omega), if_neg (by omega), Nat.add_sub_cancel]

/-- Bits can be taken out in either order; the position of the higher one moves. -/
theorem dropBit_dropBit {p q : ℕ} (h : p < q) (a : ℕ) :
    dropBit p (dropBit q a) = dropBit (q - 1) (dropBit p a) := by
  apply eq_of_testBit_eq
  intro i
  simp only [testBit_dropBit]
  split_ifs <;> first | rfl | omega

/-! ## Order -/

/-- The first bit from above in which `a` and `b` differ is `q`, and it is set
in `b`. -/
structure DiffersAt (q a b : ℕ) : Prop where
  left : a.testBit q = false
  right : b.testBit q = true
  above : ∀ i, q < i → a.testBit i = b.testBit i

theorem exists_differsAt {a b : ℕ} (h : a < b) : ∃ q, DiffersAt q a b := by
  obtain ⟨q, hne, habove⟩ := Nat.exists_most_significant_bit (mt Nat.xor_eq_zero_iff.mp h.ne)
  have hsame : ∀ i, q < i → a.testBit i = b.testBit i := by
    intro i hi
    have hx := habove i hi
    simpa using hx
  cases ha : a.testBit q with
  | false =>
    refine ⟨q, ha, ?_, hsame⟩
    simpa [ha] using hne
  | true =>
    -- the other way round `b` would be the smaller one
    have hb : b.testBit q = false := by simpa [ha] using hne
    have hlt : b < a := lt_of_testBit q hb ha fun i hi => (hsame i hi).symm
    omega

/-! ## Several bits -/

/-- `a` without its bits at the ascending positions `ps`, from the top one down. -/
def dropBits (ps : List ℕ) (a : ℕ) : ℕ := ps.foldr dropBit a

@[simp] theorem dropBits_cons (p : ℕ) (ps : List ℕ) (a : ℕ) :
    dropBits (p :: ps) a = dropBit p (dropBits ps a) := rfl

/-- From the lowest one up, each position has to be moved by the bits already
taken out. -/
def dropFrom : ℕ → List ℕ → ℕ → ℕ
  | _, [], a => a
  | i, p :: ps, a => dropFrom (i + 1) ps (dropBit (p - i) a)

variable {ps : List ℕ} {n : ℕ} {p : ℕ}

theorem dropBits_map_dropBit (h : ∀ q ∈ ps, p < q) (a : ℕ) :
    dropBit p (dropBits ps a) = dropBits (ps.map (· - 1)) (dropBit p a) := by
  induction ps with
  | nil => rfl
  | cons q ps ih =>
    rw [dropBits_cons, map_cons, dropBits_cons, dropBit_dropBit (h q (by simp)),
      ih fun r hr => h r (by simp [hr])]

/-- **Both orders take out the same bits.** -/
theorem dropFrom_eq (i : ℕ) (ps : List ℕ) (hps : ps.Pairwise (· < ·)) (hi : ∀ p ∈ ps, i ≤ p)
    (a : ℕ) : dropFrom i ps a = dropBits (ps.map (· - i)) a := by
  induction ps generalizing i a with
  | nil => rfl
  | cons p ps ih =>
    obtain ⟨hp, hps⟩ := pairwise_cons.mp hps
    have hip : i ≤ p := hi p (by simp)
    have hlt : ∀ q ∈ ps.map (· - i), p - i < q := by
      intro q hq
      obtain ⟨r, hr, rfl⟩ := mem_map.mp hq
      have := hp r hr
      omega
    rw [dropFrom, ih (i + 1) hps (fun q hq => by have := hp q hq; omega), map_cons,
      dropBits_cons, dropBits_map_dropBit hlt, map_map]
    congr 2

/-! ## The bits that are left -/

/-- Where bit `j` of what is left comes from. -/
def keptAt : List ℕ → ℕ → ℕ
  | [], j => j
  | p :: ps, j => keptAt ps (if j < p then j else j + 1)

theorem testBit_dropBits (ps : List ℕ) (a j : ℕ) :
    (dropBits ps a).testBit j = a.testBit (keptAt ps j) := by
  induction ps generalizing j with
  | nil => rfl
  | cons p ps ih =>
    rw [dropBits_cons, testBit_dropBit, keptAt, ← ih]
    split <;> rfl

theorem keptAt_strictMono (ps : List ℕ) : StrictMono (keptAt ps) := by
  induction ps with
  | nil => exact strictMono_id
  | cons p ps ih =>
    intro j k hjk
    apply ih
    split_ifs <;> omega

/-- The bits below all positions stay where they are. -/
theorem keptAt_of_lt (h : ∀ q ∈ ps, p < q) : keptAt ps p = p := by
  induction ps with
  | nil => rfl
  | cons q ps ih =>
    rw [keptAt, if_pos (h q (by simp))]
    exact ih fun r hr => h r (by simp [hr])

section

variable (hps : ps.Pairwise (· < ·))

include hps

theorem keptAt_notMem (j : ℕ) : keptAt ps j ∉ ps := by
  induction ps generalizing j with
  | nil => simp
  | cons p ps ih =>
    obtain ⟨hp, hps⟩ := pairwise_cons.mp hps
    rw [keptAt, mem_cons, not_or]
    refine ⟨?_, ih hps _⟩
    intro heq
    -- only bit `p` itself comes from position `p`
    have hself : (if j < p then j else j + 1) = p := by
      apply (keptAt_strictMono ps).injective
      rw [heq, keptAt_of_lt hp]
    split_ifs at hself <;> omega

theorem exists_keptAt_eq {i : ℕ} (hi : i ∉ ps) : ∃ j, keptAt ps j = i := by
  induction ps with
  | nil => exact ⟨i, rfl⟩
  | cons p ps ih =>
    obtain ⟨hp, hps⟩ := pairwise_cons.mp hps
    rw [mem_cons, not_or] at hi
    obtain ⟨j, hj⟩ := ih hps hi.2
    have hne : j ≠ p := by
      rintro rfl
      exact hi.1 (hj.symm.trans (keptAt_of_lt hp))
    rcases lt_or_gt_of_ne hne with hlt | hgt
    · exact ⟨j, by rw [keptAt, if_pos hlt, hj]⟩
    · refine ⟨j - 1, ?_⟩
      have hsub : j - 1 + 1 = j := by omega
      rw [keptAt, if_neg (by omega), hsub, hj]

/-- **What is left is the other bits.** -/
theorem dropBits_eq_iff {a b : ℕ} :
    dropBits ps a = dropBits ps b ↔ ∀ i, i ∉ ps → a.testBit i = b.testBit i := by
  constructor
  · intro h i hi
    obtain ⟨j, rfl⟩ := exists_keptAt_eq hps hi
    rw [← testBit_dropBits, ← testBit_dropBits, h]
  · intro h
    apply eq_of_testBit_eq
    intro j
    rw [testBit_dropBits, testBit_dropBits]
    exact h _ (keptAt_notMem hps j)

/-- **Order**: what is left compares as the numbers do, if they do not first
differ in a bit taken out. -/
theorem DiffersAt.dropBits {q a b : ℕ} (h : DiffersAt q a b) (hq : q ∉ ps) :
    dropBits ps a < dropBits ps b := by
  obtain ⟨j, rfl⟩ := exists_keptAt_eq hps hq
  apply lt_of_testBit j
  · rw [testBit_dropBits, h.left]
  · rw [testBit_dropBits, h.right]
  · intro i hi
    rw [testBit_dropBits, testBit_dropBits]
    exact h.above _ (keptAt_strictMono ps hi)

/-! ## Blocks

Below, all positions are less than `n`: the bits from `n` on move down by the
number of bits taken out. -/

end

theorem dropBit_div {p n : ℕ} (h : p < n + 1) (a : ℕ) : dropBit p a / 2 ^ n = a / 2 ^ (n + 1) := by
  apply eq_of_testBit_eq
  intro i
  rw [testBit_div_two_pow, testBit_div_two_pow, testBit_dropBit, if_neg (by omega)]
  congr 1

/-- Distinct positions below `n` leave room below the lowest one. -/
theorem length_add_le {n p : ℕ} (hps : (p :: ps).Pairwise (· < ·)) (hn : ∀ q ∈ p :: ps, q < n) :
    p + (ps.length + 1) ≤ n := by
  induction ps generalizing p with
  | nil =>
    have := hn p (by simp)
    simpa using this
  | cons q ps ih =>
    obtain ⟨hp, hps⟩ := pairwise_cons.mp hps
    have hpq := hp q (by simp)
    have := ih hps fun r hr => hn r (by simp [mem_cons.mp hr])
    simp only [length_cons]
    omega

theorem length_le_of_pairwise (hps : ps.Pairwise (· < ·)) (hn : ∀ q ∈ ps, q < n) :
    ps.length ≤ n := by
  cases ps with
  | nil => exact zero_le n
  | cons p ps =>
    have := length_add_le hps hn
    simp only [length_cons]
    omega

theorem dropBits_div (hps : ps.Pairwise (· < ·)) (hn : ∀ q ∈ ps, q < n) (a : ℕ) :
    dropBits ps a / 2 ^ (n - ps.length) = a / 2 ^ n := by
  induction ps with
  | nil => rfl
  | cons p ps ih =>
    have hroom := length_add_le hps hn
    have hsub : n - ps.length = n - (p :: ps).length + 1 := by
      simp only [length_cons]
      omega
    rw [dropBits_cons, dropBit_div (by simp only [length_cons]; omega), ← hsub]
    exact ih (pairwise_cons.mp hps).2 fun q hq => hn q (by simp [hq])

/-- A multiple of the block size stays a multiple. -/
theorem dropBits_mul (hps : ps.Pairwise (· < ·)) (hn : ∀ q ∈ ps, q < n) (s : ℕ) :
    dropBits ps (s * 2 ^ n) = s * 2 ^ (n - ps.length) := by
  induction ps with
  | nil => rfl
  | cons p ps ih =>
    have hroom := length_add_le hps hn
    rw [dropBits_cons, ih (pairwise_cons.mp hps).2 fun q hq => hn q (by simp [hq])]
    obtain ⟨d, hd⟩ : ∃ d, n - ps.length = p + 1 + d := ⟨n - ps.length - (p + 1), by omega⟩
    have hd' : n - (p :: ps).length = p + d := by
      simp only [length_cons]
      omega
    rw [hd, hd', dropBit]
    have hdiv : s * 2 ^ (p + 1 + d) / 2 ^ (p + 1) = s * 2 ^ d := by
      rw [pow_add, ← mul_assoc, mul_right_comm, Nat.mul_div_cancel _ (by positivity)]
    have hmod : s * 2 ^ (p + 1 + d) % 2 ^ p = 0 := by
      apply mod_eq_zero_of_dvd
      exact Dvd.dvd.mul_left (pow_dvd_pow 2 (by omega)) s
    rw [hdiv, hmod, pow_add]
    ring

/-! ## Filling up -/

/-- Some bits put in at the ascending positions `ps`, from the lowest one up. -/
def fillBits (fill : ℕ → ℕ → Bool) (ps : List ℕ) (a : ℕ) : ℕ :=
  ps.foldl (fun a p => insertBit p (fill p a) a) a

theorem dropBits_fillBits (fill : ℕ → ℕ → Bool) (ps : List ℕ) (a : ℕ) :
    dropBits ps (fillBits fill ps a) = a := by
  induction ps generalizing a with
  | nil => rfl
  | cons p ps ih =>
    show dropBit p (dropBits ps (fillBits fill ps (insertBit p (fill p a) a))) = a
    rw [ih, dropBit_insertBit]
