/-
# Excluding ranges

`AddrRange::exclude` sorts the ranges to exclude by their start and sweeps over
them once: what lies between the end of the exclusions so far and the start of
the next one is kept (`excludeLoop_spec`).  A range to exclude that ends before
it starts would move the sweep back.
-/
import Gem5.AddrRange

open List

namespace AddrRange

/-- What the loop of `exclude` pushes from `nextStart` on; `none` where an assertion fails. -/
def excludeLoop (r : AddrRange) : Addr → List AddrRange → Option (List AddrRange)
  | nextStart, [] => some (if nextStart < r.endAddr then [ofBounds nextStart r.endAddr] else [])
  | nextStart, e :: es =>
    if e.interleaved then none
    else do
      if !(← r.intersects e) then r.excludeLoop nextStart es
      else if e.start ≤ nextStart then
        if e.endAddr < r.endAddr then
          r.excludeLoop (if nextStart < e.endAddr then e.endAddr else nextStart) es
        else some []
      else
        let rest ← if e.endAddr < r.endAddr then r.excludeLoop e.endAddr es else some []
        some (ofBounds nextStart e.start :: rest)

/-- `sort()` of a list of ranges, which is stable. -/
def sort (ranges : List AddrRange) : List AddrRange := ranges.mergeSort fun r r' => !r'.lt r

def exclude (r : AddrRange) (excludeRanges : List AddrRange) : Option (List AddrRange) :=
  if r.interleaved then none else r.excludeLoop r.start (sort excludeRanges)

/-- `exclude(base, to_exclude)`. -/
def excludeAll (base toExclude : List AddrRange) : Option (List AddrRange) :=
  (base.mapM (exclude · (sort toExclude))).map flatten

/-- Not interleaved, and perhaps empty. -/
@[mk_iff]
structure Valid (r : AddrRange) : Prop where
  masks_eq : r.masks = []
  le : r.start ≤ r.endAddr

/-- Plain ranges one after the other, with the addresses of a set. -/
structure Parts (s : Set ℕ) (rs : List AddrRange) : Prop where
  plain : ∀ r ∈ rs, r.Plain
  ordered : rs.Pairwise (hi · ≤ lo ·)
  mem_iff : ∀ a, (∃ r ∈ rs, a ∈ r.addrs) ↔ a ∈ s

/-- The addresses of the range from `start` on that are not excluded. -/
def left (r : AddrRange) (start : ℕ) (es : List AddrRange) : Set ℕ :=
  {a | start ≤ a ∧ a < hi r ∧ ∀ e ∈ es, a ∉ e.addrs}

variable {r r' : AddrRange} {es rs : List AddrRange} {s s' : Set ℕ}

namespace Parts

theorem nil : Parts ∅ [] := ⟨nofun, Pairwise.nil, by simp⟩

theorem cons (h : Parts s rs) (hr : r.Plain) (hs : ∀ a ∈ s, hi r ≤ a) :
    Parts (r.addrs ∪ s) (r :: rs) := by
  refine ⟨forall_mem_cons.mpr ⟨hr, h.plain⟩, pairwise_cons.mpr ⟨?_, h.ordered⟩, ?_⟩
  · exact fun r' hr' => hs _ ((h.mem_iff _).mp ⟨r', hr', le_rfl, (h.plain r' hr').lo_lt_hi⟩)
  · simp [h.mem_iff]

theorem of_iff (h : Parts s rs) (hs : ∀ a, a ∈ s' ↔ a ∈ s) : Parts s' rs := Set.ext hs ▸ h

end Parts

theorem pairwise_sort (h : ∀ e ∈ es, e.masks = []) : (sort es).Pairwise (lo · ≤ lo ·) := by
  have hmap : (sort es).map lo = (es.map lo).mergeSort := by
    apply map_mergeSort
    intro a ha b hb
    rw [Bool.eq_iff_iff, Bool.not_eq_true', ← Bool.not_eq_true, lt_iff (h b hb),
      decide_eq_true_eq, not_lt]
  rw [← pairwise_map (R := (· ≤ ·)), hmap]
  exact pairwise_mergeSort' (· ≤ ·) _

@[grind =]
theorem mem_addrs {a : ℕ} : a ∈ r.addrs ↔ lo r ≤ a ∧ a < hi r := Iff.rfl

@[grind =]
theorem mem_left {start a : ℕ} :
    a ∈ r.left start es ↔ start ≤ a ∧ a < hi r ∧ ∀ e ∈ es, a ∉ e.addrs := Iff.rfl

/-- **The sweep** keeps what lies between the exclusions. -/
theorem excludeLoop_spec (hr : r.masks = []) (hes : ∀ e ∈ es, e.Valid)
    (hsort : es.Pairwise (lo · ≤ lo ·)) (next : Addr) (hle : lo r ≤ next.toNat) :
    ∃ rs, r.excludeLoop next es = some rs ∧ Parts (r.left next.toNat es) rs := by
  induction es generalizing next with
  | nil =>
    by_cases hlt : next < r.endAddr
    · refine ⟨_, by rw [excludeLoop, if_pos hlt], (Parts.nil.cons ⟨rfl, hlt⟩ nofun).of_iff ?_⟩
      grind [lo, hi, ofBounds]
    · refine ⟨_, by rw [excludeLoop, if_neg hlt], Parts.nil.of_iff ?_⟩
      have hge : hi r ≤ next.toNat := BitVec.not_lt.mp hlt
      grind
  | cons e es ih =>
    obtain ⟨he, hes⟩ := forall_mem_cons.mp hes
    obtain ⟨hfirst, hsort⟩ := pairwise_cons.mp hsort
    have hv : lo e ≤ hi e := he.le
    have hstart : e.start ≤ next ↔ lo e ≤ next.toNat := .rfl
    have hend : e.endAddr < r.endAddr ↔ hi e < hi r := .rfl
    rw [excludeLoop, interleaved_eq he.masks_eq, intersects_eq hr he.masks_eq]
    by_cases hmeets : lo r < hi e ∧ lo e < hi r
    · by_cases hbefore : lo e ≤ next.toNat
      · by_cases hinside : hi e < hi r
        · -- the sweep goes on behind `e`, if it is not there yet
          have hmax : (if next < e.endAddr then e.endAddr else next).toNat =
              max next.toNat (hi e) := by
            split_ifs with hlt
            · exact (max_eq_right (le_of_lt hlt)).symm
            · exact (max_eq_left (BitVec.not_lt.mp hlt)).symm
          obtain ⟨rs, hloop, hrs⟩ := ih hes hsort _ (hmax ▸ hle.trans (le_max_left ..))
          refine ⟨rs, by simpa [hmeets, hstart, hbefore, hend, hinside] using hloop, hrs.of_iff ?_⟩
          grind
        · refine ⟨[], by simp [hmeets, hstart, hbefore, hend, hinside], Parts.nil.of_iff ?_⟩
          grind
      · have hkept : (ofBounds next e.start).Plain := ⟨rfl, BitVec.not_le.mp hbefore⟩
        by_cases hinside : hi e < hi r
        · obtain ⟨rs, hloop, hrs⟩ := ih hes hsort e.endAddr hmeets.1.le
          refine ⟨ofBounds next e.start :: rs,
            by simp [hmeets, hstart, hbefore, hend, hinside, hloop], (hrs.cons hkept ?_).of_iff ?_⟩
          · exact fun a ha => hv.trans ha.1
          · grind [lo, hi, ofBounds]
        · refine ⟨[ofBounds next e.start], by simp [hmeets, hstart, hbefore, hend, hinside],
            (Parts.nil.cons hkept nofun).of_iff ?_⟩
          grind [lo, hi, ofBounds]
    · obtain ⟨rs, hloop, hrs⟩ := ih hes hsort next hle
      refine ⟨rs, by simpa [hmeets] using hloop, hrs.of_iff ?_⟩
      grind

theorem exclude_parts (hr : r.Valid) (hes : ∀ e ∈ es, e.Valid) :
    ∃ rs, r.exclude es = some rs ∧ Parts {a ∈ r.addrs | ∀ e ∈ es, a ∉ e.addrs} rs := by
  have hmem : ∀ {e}, e ∈ sort es ↔ e ∈ es := mem_mergeSort
  obtain ⟨rs, hloop, hrs⟩ := excludeLoop_spec hr.masks_eq (fun e he => hes e (hmem.mp he))
    (pairwise_sort fun e he => (hes e he).masks_eq) r.start le_rfl
  refine ⟨rs, by rwa [exclude, interleaved_eq hr.masks_eq], hrs.of_iff ?_⟩
  simp [mem_left, hmem, mem_addrs, lo, and_assoc]

/-- **`exclude` is set difference**, for a range and for a list of ranges. -/
theorem exclude_spec (hes : ∀ e ∈ es, e.Valid) :
    (∀ r : AddrRange, r.Valid →
      ∃ rs, r.exclude es = some rs ∧ Parts {a ∈ r.addrs | ∀ e ∈ es, a ∉ e.addrs} rs) ∧
    ∀ base : List AddrRange, (∀ r ∈ base, r.Valid) → ∃ rs, excludeAll base es = some rs ∧
      ∀ a, (∃ r ∈ rs, a ∈ r.addrs) ↔ (∃ r ∈ base, a ∈ r.addrs) ∧ ∀ e ∈ es, a ∉ e.addrs := by
  refine ⟨fun r hr => exclude_parts hr hes, fun base hbase => ?_⟩
  unfold excludeAll
  have hsorted : ∀ e ∈ sort es, e.Valid := fun e he => hes e (mem_mergeSort.mp he)
  induction base with
  | nil => exact ⟨[], rfl, by simp⟩
  | cons r base ih =>
    obtain ⟨hr, hbase⟩ := forall_mem_cons.mp hbase
    obtain ⟨rs, hrest, hiff⟩ := ih hbase
    obtain ⟨rss, hmap, rfl⟩ := Option.map_eq_some_iff.mp hrest
    obtain ⟨rs, hexclude, hrs⟩ := exclude_parts hr hsorted
    refine ⟨rs ++ rss.flatten, by simp [hexclude, hmap], fun a => ?_⟩
    have hmem : (∀ e ∈ sort es, a ∉ e.addrs) ↔ ∀ e ∈ es, a ∉ e.addrs := by simp [sort]
    simp only [mem_append, mem_cons, or_and_right, exists_or, exists_eq_left, hrs.mem_iff, hiff,
      Set.mem_sep_iff, hmem]

/-- Nested, empty and overlapping exclusions. -/
theorem exclude_spec_nested :
    ∃ rs, excludeAll [ofBounds 0 20] [ofBounds 9 9, ofBounds 4 12, ofBounds 6 8] = some rs ∧
      ∀ a, (∃ r ∈ rs, a ∈ r.addrs) ↔ (∃ r ∈ [ofBounds 0 20], a ∈ r.addrs) ∧
        ∀ e ∈ [ofBounds 9 9, ofBounds 4 12, ofBounds 6 8], a ∉ e.addrs :=
  (exclude_spec (by simp [valid_iff, ofBounds])).2 _ (by simp [valid_iff, ofBounds])

/-- An exclusion that ends before it starts moves the sweep back. -/
theorem exclude_inverted : ∃ rs, (ofBounds 0 20).exclude [ofBounds 10 5] = some rs ∧
    ¬ rs.Pairwise (hi · ≤ lo ·) := by
  refine ⟨[ofBounds 0 10, ofBounds 5 20], ?_, by decide⟩
  rw [exclude, sort, mergeSort_singleton]
  decide

end AddrRange
