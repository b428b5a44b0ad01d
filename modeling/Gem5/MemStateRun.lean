/-
# Runs of the memory map

The calls of `MemState` against an abstract memory map: a partial map from addresses to
their backing, and the program break.  Unmapping forgets the backing of a region, and
remapping moves it.

The page table holds pages of mapped addresses only, so a moved page finds its new place
free.
-/
import Gem5.MemState
import Gem5.Run

open Function Option
open PartialMaps

namespace MemState

open VMA PageSize

variable {P : PageSize} {old new start : Addr} {length : BitVec 64} {t : PTable} {a : Addr}

/-! ## The page loops -/

/-- The rounds are enough for every region. -/
theorem toNat_lt_rounds (a : BitVec 64) : a.toNat < rounds * P.bytes.toNat :=
  lt_of_lt_of_le a.isLt (Nat.le_mul_of_pos_right _ P.bytes_pos)

/-- The keys of a page table are page addresses. -/
def PageKeys (P : PageSize) (t : PTable) : Prop := ∀ p, t p ≠ none → P.Aligned p

/-- The region after its first page. -/
theorem IsRegion.tail (h : IsRegion P start length) (hmore : 0 < length - P.bytes) :
    IsRegion P (start + P.bytes) (length - P.bytes) := by
  have hdvd : P.bytes.toNat ∣ length.toNat := aligned_iff.mp h.length_aligned
  have hle : P.bytes.toNat ≤ length.toNat := Nat.le_of_dvd h.pos hdvd
  have hbytes : P.Aligned P.bytes := aligned_iff.mpr dvd_rfl
  have hfits := h.fits
  exact ⟨hmore, h.start_aligned.add hbytes, h.length_aligned.sub hbytes, by bv_omega⟩

theorem IsRegion.bytes_le (h : IsRegion P start length) : P.bytes.toNat ≤ length.toNat :=
  Nat.le_of_dvd h.pos (aligned_iff.mp h.length_aligned)

theorem pageKeys_update (ht : PageKeys P t) {p : Addr} (hp : P.Aligned p) (e : Option PTEntry) :
    PageKeys P (update t p e) := by
  intro q hq
  by_cases heq : q = p
  · rwa [heq]
  · rw [update_of_ne heq] at hq
    exact ht q hq

/-- The only key in a page. -/
theorem PageKeys.eq_none (ht : PageKeys P t) (hstart : P.Aligned start) {p : Addr}
    (hp : InRegion start P.bytes p) (hne : p ≠ start) : t p = none := by
  by_contra hkey
  exact hne (eq_of_mem_page hstart (ht p hkey) hp.1 hp.2)

theorem isUnmappedPage_eq (hstart : P.Aligned start) :
    isUnmappedPage P t start = some (t start).isNone :=
  if_pos (pageOffset_eq_zero_iff.mpr hstart)

theorem dropPage_spec (ht : PageKeys P t) (hstart : P.Aligned start) :
    ∃ t', dropPage P t start = some t' ∧ PageKeys P t' ∧
      ∀ p, t' p = if InRegion start P.bytes p then none else t p := by
  refine ⟨update t start none, ?_, pageKeys_update ht hstart none, ?_⟩
  · rw [dropPage, isUnmappedPage_eq hstart, bind_some]
    cases hpage : t start with
    | none => rw [if_pos (by rfl), ← hpage, update_eq_self]
    | some e =>
      rw [if_neg (by simp), unmapPage,
        if_pos ⟨pageOffset_eq_zero_iff.mpr hstart, by rw [hpage]; rfl⟩]
  · intro p
    by_cases heq : p = start
    · subst heq
      rw [update_self, ite_eq_left_iff.mpr]
      intro hout
      exact absurd ⟨le_rfl, by have := P.bytes_pos; omega⟩ hout
    · rw [update_of_ne heq]
      split
      · exact ht.eq_none hstart ‹_› heq
      · rfl

/-- A region is its first page and the others. -/
theorem IsRegion.mem_tail (h : IsRegion P start length) : InRegion start length a ↔
      InRegion start P.bytes a ∨ InRegion (start + P.bytes) (length - P.bytes) a := by
  have hbytes := h.bytes_le
  have hfits := h.fits
  unfold InRegion
  bv_omega

theorem IsRegion.not_mem_first (h : IsRegion P start length)
    (ha : InRegion (start + P.bytes) (length - P.bytes) a) : ¬ InRegion start P.bytes a := by
  have hbytes := h.bytes_le
  unfold InRegion at ha ⊢
  bv_omega

theorem unmapPages_spec : ∀ {fuel : ℕ} {start : Addr} {length : BitVec 64} {t : PTable},
    length.toNat ≤ fuel * P.bytes.toNat → IsRegion P start length → PageKeys P t →
    ∃ t', unmapPages P fuel start length t = some t' ∧
      ∀ p, t' p = if InRegion start length p then none else t p := by
  intro fuel
  induction fuel with
  | zero =>
    intro start length t hfuel hr _
    have := hr.pos
    omega
  | succ fuel ih =>
    intro start length t hfuel hr ht
    have hbytes := hr.bytes_le
    obtain ⟨t1, hfirst, ht1, hpage⟩ := dropPage_spec ht hr.start_aligned
    rw [unmapPages, hfirst, bind_some]
    by_cases hmore : 0 < length - P.bytes
    · rw [if_pos hmore]
      have hmul : (fuel + 1) * P.bytes.toNat = fuel * P.bytes.toNat + P.bytes.toNat :=
        Nat.succ_mul _ _
      obtain ⟨t', hloop, ht'⟩ := ih (by bv_omega) (hr.tail hmore) ht1
      refine ⟨t', hloop, ?_⟩
      intro p
      rw [ht', hpage]
      by_cases hp : InRegion (start + P.bytes) (length - P.bytes) p
      · rw [if_pos hp, if_pos (hr.mem_tail.mpr (.inr hp))]
      by_cases hp1 : InRegion start P.bytes p
      · rw [if_neg hp, if_pos hp1, if_pos (hr.mem_tail.mpr (.inl hp1))]
      · rw [if_neg hp, if_neg hp1, if_neg (mt hr.mem_tail.mp (not_or.mpr ⟨hp1, hp⟩))]
    · rw [if_neg hmore]
      have hlength : length = P.bytes := by bv_omega
      exact ⟨t1, rfl, by rw [hlength]; exact hpage⟩

theorem mem_first (P : PageSize) (start : Addr) : InRegion start P.bytes start :=
  ⟨le_rfl, Nat.lt_add_of_pos_right P.bytes_pos⟩

theorem movePage_spec (ht : PageKeys P t) (hold : P.Aligned old) (hnew : P.Aligned new)
    (hfree : ∀ p, InRegion new P.bytes p → t p = none)
    (hdisjoint : ∀ p, InRegion new P.bytes p → ¬ InRegion old P.bytes p)
    (hfits : old.toNat + P.bytes.toNat < 2 ^ 64) :
    ∃ t', movePage P t old new = some t' ∧ PageKeys P t' ∧
      ∀ p, t' p = if InRegion new P.bytes p then t (p - new + old)
        else if InRegion old P.bytes p then none else t p := by
  refine ⟨update (update t new (t old)) old none, ?_,
    pageKeys_update (pageKeys_update ht hnew _) hold none, ?_⟩
  · rw [movePage, isUnmappedPage_eq hold, bind_some]
    cases hpage : t old with
    | none =>
      have hnone := hfree new (mem_first P new)
      rw [if_pos (by rfl), ← hnone, update_eq_self, hnone, ← hpage, update_eq_self]
    | some e =>
      have hguard : P.pageOffset old = 0 ∧ P.pageOffset new = 0 ∧ (t old).isSome ∧
          (t new).isNone := by
        rw [hpage, hfree new (mem_first P new)]
        exact ⟨pageOffset_eq_zero_iff.mpr hold, pageOffset_eq_zero_iff.mpr hnew, rfl, rfl⟩
      rw [if_neg (by simp), remapPage, if_pos hguard, hpage]
  · intro p
    by_cases hpold : p = old
    · subst hpold
      have hout : ¬ InRegion new P.bytes p := fun h => hdisjoint p h (mem_first P p)
      rw [update_self, if_neg hout, if_pos (mem_first P p)]
    rw [update_of_ne hpold]
    by_cases hpnew : p = new
    · subst hpnew
      rw [update_self, if_pos (mem_first P p), sub_self, zero_add]
    -- every other key of the two pages is unused
    rw [update_of_ne hpnew]
    by_cases hp : InRegion new P.bytes p
    · have hshift : InRegion old P.bytes (p - new + old) := by
        unfold InRegion at hp ⊢
        bv_omega
      have hother : p - new + old ≠ old := by bv_omega
      rw [if_pos hp, hfree p hp, ht.eq_none hold hshift hother]
    by_cases hp' : InRegion old P.bytes p
    · rw [if_neg hp, if_pos hp', ht.eq_none hold hp' hpold]
    · rw [if_neg hp, if_neg hp']

theorem remapPages_spec : ∀ {fuel : ℕ} {old new : Addr} {length : BitVec 64} {t : PTable},
    length.toNat ≤ fuel * P.bytes.toNat → IsRegion P old length → IsRegion P new length →
    PageKeys P t → (∀ p, InRegion new length p → t p = none) →
    (∀ p, InRegion new length p → ¬ InRegion old length p) →
    ∃ t', remapPages P fuel old new length t = some t' ∧
      ∀ p, t' p = if InRegion new length p then t (p - new + old)
        else if InRegion old length p then none else t p := by
  intro fuel
  induction fuel with
  | zero =>
    intro old new length t hfuel hr
    have := hr.pos
    omega
  | succ fuel ih =>
    intro old new length t hfuel hr hnew ht hfree hdisjoint
    have hbytes := hr.bytes_le
    have hfits := hr.fits
    obtain ⟨t1, hfirst, ht1, hpage⟩ := movePage_spec ht hr.start_aligned hnew.start_aligned
      (fun p hp => hfree p (hnew.mem_tail.mpr (.inl hp)))
      (fun p hp hp' => hdisjoint p (hnew.mem_tail.mpr (.inl hp)) (hr.mem_tail.mpr (.inl hp')))
      (by omega)
    rw [remapPages, hfirst, bind_some]
    by_cases hmore : 0 < length - P.bytes
    · rw [if_pos hmore]
      have hmul : (fuel + 1) * P.bytes.toNat = fuel * P.bytes.toNat + P.bytes.toNat :=
        Nat.succ_mul _ _
      -- what the first round leaves of the later pages
      have hlater : ∀ p, ¬ InRegion new P.bytes p → ¬ InRegion old P.bytes p → t1 p = t p := by
        intro p hp hp'
        rw [hpage, if_neg hp, if_neg hp']
      obtain ⟨t', hloop, ht'⟩ := ih (by bv_omega) (hr.tail hmore) (hnew.tail hmore) ht1
        (by
          intro p hp
          have hin := hnew.mem_tail.mpr (.inr hp)
          rw [hlater p (hnew.not_mem_first hp) fun h => hdisjoint p hin (hr.mem_tail.mpr (.inl h))]
          exact hfree p hin)
        (fun p hp hp' => hdisjoint p (hnew.mem_tail.mpr (.inr hp))
          (hr.mem_tail.mpr (.inr hp')))
      refine ⟨t', hloop, ?_⟩
      intro p
      rw [ht', show p - (new + P.bytes) + (old + P.bytes) = p - new + old by ring]
      by_cases hp : InRegion (new + P.bytes) (length - P.bytes) p
      · have hshift : InRegion (old + P.bytes) (length - P.bytes) (p - new + old) := by
          have := inRegion_shift (hr.tail hmore) hp
          rwa [show p - (new + P.bytes) + (old + P.bytes) = p - new + old by ring] at this
        have hin := hr.mem_tail.mpr (.inr hshift)
        rw [if_pos hp, if_pos (hnew.mem_tail.mpr (.inr hp)), hlater _
          (fun h => hdisjoint _ (hnew.mem_tail.mpr (.inl h)) hin) (hr.not_mem_first hshift)]
      rw [if_neg hp]
      by_cases hp' : InRegion (old + P.bytes) (length - P.bytes) p
      · have hin := hr.mem_tail.mpr (.inr hp')
        rw [if_pos hp', if_neg (fun h => hdisjoint p h hin), if_pos hin]
      rw [if_neg hp', hpage]
      have hnewIff : InRegion new length p ↔ InRegion new P.bytes p := by
        rw [hnew.mem_tail, or_iff_left hp]
      have holdIff : InRegion old length p ↔ InRegion old P.bytes p := by
        rw [hr.mem_tail, or_iff_left hp']
      simp only [hnewIff, holdIff]
    · rw [if_neg hmore]
      have hlength : length = P.bytes := by bv_omega
      exact ⟨t1, rfl, by rw [hlength]; exact hpage⟩

theorem checkNoPages_spec {endAddr : Addr} (hend : P.Aligned endAddr) :
    ∀ {fuel : ℕ} {start : Addr}, endAddr.toNat < start.toNat + fuel * P.bytes.toNat →
      P.Aligned start → start ≤ endAddr → (∀ p, start ≤ p → p < endAddr → t p = none) →
      checkNoPages P t fuel start endAddr = some () := by
  intro fuel
  induction fuel with
  | zero =>
    bv_omega
  | succ fuel ih =>
    intro start hfuel hstart hle hfree
    rw [checkNoPages]
    by_cases hlt : start < endAddr
    · have hbytes : P.bytes.toNat ≤ endAddr.toNat - start.toNat := by
        apply Nat.le_of_dvd (by bv_omega)
        exact Nat.dvd_sub (aligned_iff.mp hend) (aligned_iff.mp hstart)
      have hmul : (fuel + 1) * P.bytes.toNat = fuel * P.bytes.toNat + P.bytes.toNat :=
        Nat.succ_mul _ _
      rw [if_pos hlt, lookupPage, pageAlign_of_aligned hstart, hfree start (BitVec.le_refl _) hlt]
      apply ih (by bv_omega) (hstart.add (aligned_iff.mpr dvd_rfl)) (by bv_omega)
      intro p hp hp'
      exact hfree p (by bv_omega) hp'
    · rw [if_neg hlt]

/-! ## The abstract map -/

/-- What a new area has at a distance from its start. -/
def fileBacking (length : BitVec 64) (file : Option HostFile) (distance : BitVec 64) : Backing :=
  match file.bind (MappedFileBuffer.make · length) with
  | none => .anonymous
  | some buf => if distance < buf.length then .file buf distance else .anonymous

/-- A memory map, and the program break. -/
@[ext]
structure Spec where
  map : Addr → Option Backing
  brk : Addr

namespace Spec

variable (m : Spec)

def Unmapped (start : Addr) (length : BitVec 64) : Prop :=
  ∀ a, InRegion start length a → m.map a = none

def mapRegion (start : Addr) (length : BitVec 64) (file : Option HostFile) : Spec :=
  { m with map := fun a =>
      if InRegion start length a then some (fileBacking length file (a - start)) else m.map a }

def unmapRegion (start : Addr) (length : BitVec 64) : Spec :=
  { m with map := fun a => if InRegion start length a then none else m.map a }

def remapRegion (old new : Addr) (length : BitVec 64) : Spec :=
  { m with map := fun a =>
      if InRegion new length a then m.map (a - new + old)
      else if InRegion old length a then none else m.map a }

open Classical in
/-- The break moves, with the pages below it, unless they are taken. -/
noncomputable def updateBrkRegion (P : PageSize) (oldBrk newBrk : Addr) : Spec :=
  let oldPage := roundUp oldBrk P.bytes
  let newPage := roundUp newBrk P.bytes
  if newBrk < oldBrk then { m.unmapRegion newPage (oldPage - newPage) with brk := newBrk }
  else if m.Unmapped oldPage (newPage - oldPage) then
    { m.mapRegion oldPage (newPage - oldPage) none with brk := newBrk }
  else m

end Spec

/-! ## The calls -/

/-- The abstract map of a state. -/
def abstract (s : MemState P) : Spec := ⟨s.backing, s.brkPoint⟩

/-- The areas are apart, and the page table holds pages of mapped addresses. -/
structure Inv (s : MemState P) : Prop where
  apart : s.vmaList.Pairwise (Apart VMA.backing)
  keys : PageKeys P s.pTable
  mapped : ∀ p, s.pTable p ≠ none → s.backing p ≠ none

variable {s : MemState P} {vaddr : Addr}

section

variable (hr : IsRegion P start length)

include hr

theorem anyIntersects_eq (l : List (VMA P)) :
    anyIntersects (AddrRange.ofBounds start (start + length)) l =
      some (l.any (meets start length)) := by
  induction l with
  | nil => rfl
  | cons vma rest ih =>
    rw [anyIntersects, intersects_eq vma hr.lt, ih, List.any_cons, meets]
    by_cases hmeet : vma.start < start + length ∧ start < vma.endAddr
    · simp [hmeet]
    · simp [hmeet]

theorem meets_iff {vma : VMA P} :
    meets start length vma = true ↔ ∃ a, InRegion start length a ∧ vma.backing a ≠ none := by
  have hlt := hr.lt
  have hvma := vma.sane.lt
  rw [meets, Bool.and_eq_true, decide_eq_true_eq, decide_eq_true_eq]
  constructor
  · rintro ⟨h1, h2⟩
    -- the later of the two starts is in both
    by_cases hfirst : vma.start < start
    · refine ⟨start, hr.mem_iff.mpr ⟨BitVec.le_refl _, hlt⟩, ?_⟩
      rw [ne_eq, backing_eq_none_iff, not_not]
      exact ⟨BitVec.le_of_lt hfirst, h2⟩
    · refine ⟨vma.start, hr.mem_iff.mpr ⟨BitVec.not_lt.mp hfirst, h1⟩, ?_⟩
      rw [ne_eq, backing_eq_none_iff, not_not]
      exact ⟨BitVec.le_refl _, hvma⟩
  · rintro ⟨a, ha, hbacking⟩
    rw [hr.mem_iff] at ha
    rw [ne_eq, backing_eq_none_iff] at hbacking
    bv_omega

theorem unmapped_iff :
    s.abstract.Unmapped start length ↔ s.vmaList.any (meets start length) = false := by
  rw [← Bool.not_eq_true, List.any_eq_true]
  constructor
  · rintro h ⟨vma, hvma, hmeets⟩
    obtain ⟨a, ha, hbacking⟩ := (meets_iff hr).mp hmeets
    exact hbacking (lookup_eq_none_iff.mp (h a ha) vma hvma)
  · intro h a ha
    refine lookup_eq_none_iff.mpr fun vma hvma => ?_
    by_contra hbacking
    exact h ⟨vma, hvma, (meets_iff hr).mpr ⟨a, ha, hbacking⟩⟩

theorem isUnmapped_of_unmapped (hs : s.Inv) (h : s.abstract.Unmapped start length) :
    s.isUnmapped start length = some true := by
  have hpages : checkNoPages P s.pTable rounds start (start + length) = some () := by
    refine checkNoPages_spec hr.end_aligned ?_ hr.start_aligned (BitVec.le_of_lt hr.lt) ?_
    · exact lt_of_lt_of_le (toNat_lt_rounds _) (Nat.le_add_left _ _)
    · intro p hp hp'
      by_contra hpage
      exact hs.mapped p hpage (h p (hr.mem_iff.mpr ⟨hp, hp'⟩))
  unfold isUnmapped
  simp [anyIntersects_eq hr, (unmapped_iff hr).mp h, hpages]

variable {file : Option HostFile}

/-- A new area is all of its region. -/
theorem make_backing (name : String) (hfile : ∀ f ∈ file, f.offset < f.stSize) :
    ∃ vma : VMA P, VMA.make start (start + length) name file = some vma ∧
      ∀ a, vma.backing a =
        if InRegion start length a then some (fileBacking length file (a - start)) else none := by
  have hsane : Sane P start (start + length) := ⟨hr.lt, hr.start_aligned, hr.end_aligned⟩
  have hbacking : ∀ vma : VMA P, vma.start = start → vma.endAddr = start + length →
      (∀ d, vma.backingAt d = fileBacking length file d) → ∀ a, vma.backing a =
        if InRegion start length a then some (fileBacking length file (a - start)) else none := by
    intro vma hstart hend hat a
    by_cases ha : InRegion start length a
    · rw [if_pos ha, backing_of_mem (by rw [hstart, hend]; exact hr.mem_iff.mp ha), hat, hstart]
    · rw [if_neg ha, backing_eq_none_iff, hstart, hend, ← hr.mem_iff]
      exact ha
  cases file with
  | none =>
    rw [make, checked, dif_pos hsane]
    exact ⟨_, rfl, hbacking _ rfl rfl fun d => rfl⟩
  | some f =>
    have hsize : (AddrRange.ofBounds start (start + length)).size = length := by
      simp [AddrRange.size, AddrRange.ofBounds]
    have hlength : length ≠ 0 := by
      have := hr.pos
      bv_omega
    obtain ⟨buf, hbuf⟩ := MappedFileBuffer.exists_make hlength (hfile f rfl)
    simp only [make, hsize, hbuf, checked, dif_pos hsane]
    refine ⟨_, rfl, hbacking _ rfl rfl fun d => ?_⟩
    simp only [backingAt, fileBacking, bind_some, hbuf]
    rw [show buf.buffer + d - buf.buffer = d by ring]

theorem mapRegion_spec (hs : s.Inv) (name : String) (hfree : s.abstract.Unmapped start length)
    (hfile : ∀ f ∈ file, f.offset < f.stSize) :
    ∃ s', s.mapRegion start length name file = some s' ∧ s'.Inv ∧
      s'.abstract = s.abstract.mapRegion start length file := by
  obtain ⟨vma, hmake, hvma⟩ := make_backing hr name hfile
  refine ⟨{ s with vmaList := s.vmaList ++ [vma] }, ?_, ?_⟩
  · unfold mapRegion
    simp [isUnmapped_of_unmapped hr hs hfree, hmake]
  have hbacking : backing { s with vmaList := s.vmaList ++ [vma] } = fun a =>
      if InRegion start length a then some (fileBacking length file (a - start))
      else s.backing a := by
    funext a
    rw [backing, lookup_append, lookup_singleton, hvma]
    by_cases ha : InRegion start length a
    · have hnone : lookup VMA.backing s.vmaList a = none := hfree a ha
      rw [if_pos ha, if_pos ha, hnone, none_or]
    · rw [if_neg ha, if_neg ha, or_none]
      rfl
  refine ⟨⟨?_, hs.keys, ?_⟩, ?_⟩
  · refine List.pairwise_append.mpr ⟨hs.apart, List.pairwise_singleton _ _, ?_⟩
    intro v hv w hw a
    obtain rfl := List.mem_singleton.mp hw
    by_cases ha : InRegion start length a
    · exact .inl (lookup_eq_none_iff.mp (hfree a ha) v hv)
    · exact .inr (by rw [hvma, if_neg ha])
  · intro p hp
    rw [hbacking]
    dsimp only
    split
    · exact some_ne_none _
    · exact hs.mapped p hp
  · exact Spec.ext hbacking rfl

theorem unmapRegion_spec (hs : s.Inv) :
    ∃ s', s.unmapRegion start length = some s' ∧ s'.Inv ∧
      s'.abstract = s.abstract.unmapRegion start length := by
  obtain ⟨l', hloop, hpulls⟩ := unmapLoop_pulls hr hs.apart
  obtain ⟨t', hpages, ht'⟩ := unmapPages_spec (toNat_lt_rounds length).le hr hs.keys
  refine ⟨{ s with vmaList := l', pTable := t' }, ?_, ?_⟩
  · unfold unmapRegion
    simp [hloop, hpages]
  have hbacking : lookup VMA.backing l' = fun a =>
      if InRegion start length a then none else s.backing a := by
    funext a
    rw [hpulls.lookup_eq, pullback, bind_unmapSource]
    rfl
  have hkey : ∀ p, t' p ≠ none → ¬ InRegion start length p ∧ s.pTable p ≠ none := by
    intro p hp
    rw [ht'] at hp
    split at hp
    · exact absurd rfl hp
    · exact ⟨‹_›, hp⟩
  refine ⟨⟨hpulls.apart, fun p hp => hs.keys p (hkey p hp).2, ?_⟩, Spec.ext hbacking rfl⟩
  intro p hp
  obtain ⟨hout, hpage⟩ := hkey p hp
  rw [backing, hbacking]
  dsimp only
  rw [if_neg hout]
  exact hs.mapped p hpage

end

theorem remapRegion_spec (hs : s.Inv) (hr : IsRegion P old length) (hnew : IsRegion P new length)
    (hfree : s.abstract.Unmapped new length)
    (hdisjoint : ∀ a, InRegion new length a → ¬ InRegion old length a) :
    ∃ s', s.remapRegion old new length = some s' ∧ s'.Inv ∧
      s'.abstract = s.abstract.remapRegion old new length := by
  have hfuel : s.vmaList.length + s.vmaList.countP (meets old length) ≤ 2 * s.vmaList.length := by
    have := List.countP_le_length (p := meets old length) (l := s.vmaList)
    omega
  obtain ⟨l', hloop, hpulls⟩ := remapLoop_pulls hr hnew hdisjoint _ hfuel hs.apart
    fun v hv a ha => lookup_eq_none_iff.mp (hfree a ha) v hv
  have hnopage : ∀ p, InRegion new length p → s.pTable p = none := by
    intro p hp
    by_contra hpage
    exact hs.mapped p hpage (hfree p hp)
  obtain ⟨t', hpages, ht'⟩ :=
    remapPages_spec (toNat_lt_rounds length).le hr hnew hs.keys hnopage hdisjoint
  refine ⟨{ s with vmaList := l', pTable := t' }, ?_, ?_⟩
  · unfold remapRegion
    simp [hloop, hpages]
  have hbacking : lookup VMA.backing l' = fun a =>
      if InRegion new length a then s.backing (a - new + old)
      else if InRegion old length a then none else s.backing a := by
    funext a
    rw [hpulls.lookup_eq, pullback, bind_remapSource]
    rfl
  refine ⟨⟨hpulls.apart, ?_, ?_⟩, Spec.ext hbacking rfl⟩
  · intro p hp
    dsimp only at hp
    rw [ht'] at hp
    split at hp
    · -- a moved page is as aligned as it was
      have hkey := ((hs.keys _ hp).sub hr.start_aligned).add hnew.start_aligned
      rwa [show p - new + old - old + new = p by ring] at hkey
    · split at hp
      · exact absurd rfl hp
      · exact hs.keys p hp
  · intro p hp
    dsimp only at hp
    rw [ht'] at hp
    rw [backing, hbacking]
    dsimp only
    split at hp
    · rw [if_pos ‹_›]
      exact hs.mapped _ hp
    · split at hp
      · exact absurd rfl hp
      · rw [if_neg ‹_›, if_neg ‹_›]
        exact hs.mapped p hp

/-! ## The program break -/

theorem toNat_roundUp {brk : Addr} (h : brk.toNat + P.bytes.toNat ≤ 2 ^ 64) :
    (roundUp brk P.bytes).toNat =
      (brk.toNat + (P.bytes.toNat - 1)) / P.bytes.toNat * P.bytes.toNat := by
  have hpos := P.bytes_pos
  have hsum : (brk + (P.bytes - 1)).toNat = brk.toNat + (P.bytes.toNat - 1) := by bv_omega
  rw [roundUp, ← offsetMask_eq, ← pageAlign, toNat_pageAlign, offsetMask_eq, hsum]

theorem aligned_roundUp (brk : Addr) : P.Aligned (roundUp brk P.bytes) := by
  rw [roundUp, ← offsetMask_eq]
  exact aligned_pageAlign _

theorem roundUp_mono {brk brk' : Addr} (h : brk.toNat + P.bytes.toNat ≤ 2 ^ 64)
    (h' : brk'.toNat + P.bytes.toNat ≤ 2 ^ 64) (hle : brk ≤ brk') :
    roundUp brk P.bytes ≤ roundUp brk' P.bytes := by
  rw [BitVec.le_def] at hle ⊢
  rw [toNat_roundUp h, toNat_roundUp h']
  gcongr

/-- The pages between two page addresses. -/
theorem isRegion_between {lo hi : Addr} (hlo : P.Aligned lo) (hhi : P.Aligned hi)
    (hlt : lo < hi) : IsRegion P lo (hi - lo) :=
  ⟨by bv_omega, hlo, hhi.sub hlo, by bv_omega⟩

theorem not_inRegion_zero : ¬ InRegion start 0 a := by
  unfold InRegion
  bv_omega

theorem updateBrkRegion_spec (hs : s.Inv) {oldBrk newBrk : Addr}
    (hold : oldBrk.toNat + P.bytes.toNat ≤ 2 ^ 64) (hnew : newBrk.toNat + P.bytes.toNat ≤ 2 ^ 64) :
    ∃ s', s.updateBrkRegion oldBrk newBrk = some s' ∧ s'.Inv ∧
      s'.abstract = s.abstract.updateBrkRegion P oldBrk newBrk := by
  have hmove : ∀ {s' : MemState P}, s'.Inv → Inv { s' with brkPoint := newBrk } := fun h =>
    ⟨h.apart, h.keys, h.mapped⟩
  unfold updateBrkRegion Spec.updateBrkRegion
  simp only [bind_eq_bind]
  by_cases hshrink : newBrk < oldBrk
  · rw [if_pos hshrink, if_pos hshrink]
    have hmono := roundUp_mono hnew hold (BitVec.le_of_lt hshrink)
    by_cases hlength : 0 < roundUp oldBrk P.bytes - roundUp newBrk P.bytes
    · obtain ⟨s', hunmap, hs', habs⟩ := unmapRegion_spec
        (isRegion_between (aligned_roundUp newBrk) (aligned_roundUp oldBrk) (by bv_omega)) hs
      rw [if_pos hlength, hunmap]
      refine ⟨_, rfl, hmove hs', ?_⟩
      rw [← habs]
      rfl
    · rw [if_neg hlength]
      refine ⟨_, rfl, hmove hs, Spec.ext ?_ rfl⟩
      have hzero : roundUp oldBrk P.bytes - roundUp newBrk P.bytes = 0 := by bv_omega
      funext a
      rw [hzero]
      exact (if_neg not_inRegion_zero).symm
  · rw [if_neg hshrink, if_neg hshrink]
    have hmono := roundUp_mono hold hnew (BitVec.not_lt.mp hshrink)
    by_cases hgrow : roundUp oldBrk P.bytes < roundUp newBrk P.bytes
    · rw [if_pos hgrow]
      have hr := isRegion_between (aligned_roundUp oldBrk) (aligned_roundUp newBrk) hgrow
      by_cases hfree : s.abstract.Unmapped (roundUp oldBrk P.bytes)
          (roundUp newBrk P.bytes - roundUp oldBrk P.bytes)
      · have hnofile : ∀ f ∈ (none : Option HostFile), f.offset < f.stSize := by simp
        obtain ⟨s', hmap, hs', habs⟩ := mapRegion_spec hr hs "heap" hfree hnofile
        rw [isUnmapped_of_unmapped hr hs hfree, bind_some, hmap, bind_some, if_pos hfree]
        refine ⟨_, rfl, hmove hs', ?_⟩
        rw [← habs]
        rfl
      · rw [if_neg hfree, isUnmapped, anyIntersects_eq hr]
        rw [unmapped_iff hr] at hfree
        simp only [hfree, bind_eq_bind, bind_some, if_true, pure_def]
        exact ⟨s, rfl, hs, rfl⟩
    · rw [if_neg hgrow]
      have hzero : roundUp newBrk P.bytes - roundUp oldBrk P.bytes = 0 := by bv_omega
      have hfree : s.abstract.Unmapped (roundUp oldBrk P.bytes)
          (roundUp newBrk P.bytes - roundUp oldBrk P.bytes) := by
        intro a ha
        rw [hzero] at ha
        exact absurd ha not_inRegion_zero
      rw [if_pos hfree]
      refine ⟨_, rfl, hmove hs, Spec.ext ?_ rfl⟩
      funext a
      rw [hzero]
      exact (if_neg not_inRegion_zero).symm

/-! ## Page faults -/

/-- The page of a mapped address is mapped. -/
theorem backing_pageAlign (h : s.backing vaddr ≠ none) : s.backing (P.pageAlign vaddr) ≠ none := by
  obtain ⟨b, hb⟩ := ne_none_iff_exists'.mp h
  obtain ⟨vma, hmem, hvma⟩ := exists_of_lookup hb
  have hin : vma.start ≤ vaddr ∧ vaddr < vma.endAddr := by
    by_contra hout
    rw [backing_eq_none_iff.mpr hout] at hvma
    exact absurd hvma (by simp)
  have hpage := mem_page (P := P) vaddr
  -- the area starts at a page, so it does not start inside of this one
  have hstart : vma.start ≤ P.pageAlign vaddr := by
    have hdiv := Nat.div_le_div_right (c := P.bytes.toNat) (BitVec.le_def.mp hin.1)
    rw [BitVec.le_def, toNat_pageAlign,
      ← Nat.div_mul_cancel (aligned_iff.mp vma.sane.start_aligned)]
    gcongr
  intro hnone
  have hnone := lookup_eq_none_iff.mp hnone vma hmem
  rw [backing_eq_none_iff] at hnone
  bv_omega

theorem allocateMem_spec (hs : s.Inv) (paddr : Addr) (h : s.backing vaddr ≠ none) :
    (s.allocateMem vaddr paddr).Inv ∧ (s.allocateMem vaddr paddr).abstract = s.abstract := by
  unfold allocateMem
  dsimp only
  split
  · exact ⟨hs, rfl⟩
  · refine ⟨⟨hs.apart, pageKeys_update hs.keys (aligned_pageAlign vaddr) _, ?_⟩, rfl⟩
    intro p hp
    dsimp only at hp
    by_cases heq : p = P.pageAlign vaddr
    · rw [heq]
      exact backing_pageAlign h
    · rw [update_of_ne heq] at hp
      exact hs.mapped p hp

/-! ## Runs -/

inductive Action
  | mapRegion (startAddr : Addr) (length : BitVec 64) (regionName : String) (file : Option HostFile)
  | unmapRegion (startAddr : Addr) (length : BitVec 64)
  | remapRegion (startAddr newStartAddr : Addr) (length : BitVec 64)
  | updateBrkRegion (oldBrk newBrk : Addr)
  | fault (vaddr paddr : Addr)

def step (s : MemState P) : Action → Option (MemState P)
  | .mapRegion startAddr length regionName file => s.mapRegion startAddr length regionName file
  | .unmapRegion startAddr length => s.unmapRegion startAddr length
  | .remapRegion startAddr newStartAddr length => s.remapRegion startAddr newStartAddr length
  | .updateBrkRegion oldBrk newBrk => s.updateBrkRegion oldBrk newBrk
  | .fault vaddr paddr => some (s.allocateMem vaddr paddr)

/-- The calls with page-aligned regions that are not empty and do not wrap around.  A file
has bytes at the offset it is mapped at (the host cannot map it otherwise, and the simulator
stops), and a page fault is handled at a mapped address. -/
def Allowed (s : MemState P) : Action → Prop
  | .mapRegion start length _ file =>
    IsRegion P start length ∧ s.abstract.Unmapped start length ∧
      ∀ f ∈ file, f.offset < f.stSize
  | .unmapRegion start length => IsRegion P start length
  | .remapRegion old new length =>
    IsRegion P old length ∧ IsRegion P new length ∧ s.abstract.Unmapped new length ∧
      ∀ a, InRegion new length a → ¬ InRegion old length a
  | .updateBrkRegion oldBrk newBrk =>
    oldBrk.toNat + P.bytes.toNat ≤ 2 ^ 64 ∧ newBrk.toNat + P.bytes.toNat ≤ 2 ^ 64
  | .fault vaddr _ => s.backing vaddr ≠ none

theorem disjoint_iff (hr : IsRegion P old length) (hnew : IsRegion P new length) :
    (∀ a, InRegion new length a → ¬ InRegion old length a) ↔
      old + length ≤ new ∨ new + length ≤ old := by
  have hlt := hr.lt
  have hlt' := hnew.lt
  simp only [hr.mem_iff, hnew.mem_iff]
  constructor
  · intro h
    have hold := h old
    have hnew := h new
    bv_omega
  · bv_omega

instance (s : MemState P) : (a : Action) → Decidable (s.Allowed a)
  | .mapRegion start length _ file =>
    decidable_of_iff (IsRegion P start length ∧ s.vmaList.any (meets start length) = false ∧
        ∀ f ∈ file, f.offset < f.stSize)
      (and_congr_right fun hr => and_congr_left fun _ => (unmapped_iff hr).symm)
  | .unmapRegion start length => inferInstanceAs (Decidable (IsRegion P start length))
  | .remapRegion old new length =>
    decidable_of_iff (IsRegion P old length ∧ IsRegion P new length ∧
        s.vmaList.any (meets new length) = false ∧ (old + length ≤ new ∨ new + length ≤ old))
      (and_congr_right fun hr => and_congr_right fun hnew =>
        and_congr (unmapped_iff hnew).symm (disjoint_iff hr hnew).symm)
  | .updateBrkRegion _ _ => inferInstanceAs (Decidable (_ ∧ _))
  | .fault vaddr _ => inferInstanceAs (Decidable (s.backing vaddr ≠ none))

/-- What the calls do to the abstract map. -/
noncomputable def Spec.next (P : PageSize) (m : Spec) : Action → Spec
  | .mapRegion start length _ file => m.mapRegion start length file
  | .unmapRegion start length => m.unmapRegion start length
  | .remapRegion old new length => m.remapRegion old new length
  | .updateBrkRegion oldBrk newBrk => m.updateBrkRegion P oldBrk newBrk
  | .fault _ _ => m

theorem Inv.step (hs : s.Inv) {a : Action} (ha : s.Allowed a) :
    ∃ s', s.step a = some s' ∧ s'.Inv ∧ s'.abstract = s.abstract.next P a := by
  cases a with
  | mapRegion start length name file => exact mapRegion_spec ha.1 hs name ha.2.1 ha.2.2
  | unmapRegion start length => exact unmapRegion_spec ha hs
  | remapRegion old new length => exact remapRegion_spec hs ha.1 ha.2.1 ha.2.2.1 ha.2.2.2
  | updateBrkRegion oldBrk newBrk => exact updateBrkRegion_spec hs ha.1 ha.2
  | fault vaddr paddr => exact ⟨_, rfl, allocateMem_spec hs paddr ha⟩

/-- The areas of a state have no address in common. -/
theorem Inv.disjoint (hs : s.Inv) :
    s.vmaList.Pairwise fun v w => ∀ a, ¬ (v.contains a ∧ w.contains a) := by
  apply hs.apart.imp
  rintro v w hapart a ⟨hv, hw⟩
  rcases hapart a with h | h
  · exact backing_eq_none_iff.mp h (contains_iff.mp hv)
  · exact backing_eq_none_iff.mp h (contains_iff.mp hw)

/-- A `MemState` as its process creates it. -/
def create (P : PageSize) (brkPoint : Addr) : MemState P := ⟨brkPoint, [], fun _ => none⟩

/-- **The memory map algebra**: every sequence of calls succeeds, the areas stay non-empty,
page aligned and disjoint, and the map from addresses to their backing changes as the
abstract calls say. -/
theorem run_refines (brkPoint : Addr) {actions : List Action}
    (hallowed : AllowedSteps step Allowed (create P brkPoint) actions) :
    ∃ s', runSteps step (create P brkPoint) actions = some s' ∧
      (∀ v ∈ s'.vmaList, v.start < v.endAddr ∧ P.Aligned v.start ∧ P.Aligned v.endAddr) ∧
      (s'.vmaList.Pairwise fun v w => ∀ a, ¬ (v.contains a ∧ w.contains a)) ∧
      s'.abstract = actions.foldl (Spec.next P) ⟨fun _ => none, brkPoint⟩ := by
  obtain ⟨s', hrun, hs', habs⟩ := AllowedSteps.refine abstract (Spec.next P)
    (fun s a hs ha => Inv.step hs ha) ⟨.nil, fun _ h => absurd rfl h, fun _ h => absurd rfl h⟩
    hallowed
  refine ⟨s', hrun, ?_, hs'.disjoint, habs⟩
  intro v _
  exact ⟨v.sane.lt, v.sane.start_aligned, v.sane.end_aligned⟩

/-- Pages of 4 kB. -/
def page4K : PageSize := ⟨12, by decide⟩

/-- A file of two and a half pages, mapped to four, cut and moved around. -/
def cutAndMove : List Action :=
  [.mapRegion 0x1000 0x4000 "file" (some ⟨0x2800, 0x7000, 0⟩), .fault 0x3123 0x90000,
    .unmapRegion 0x2000 0x1000, .remapRegion 0x3000 0x10000 0x1000, .updateBrkRegion 0x20010 0x21800,
    .updateBrkRegion 0x21800 0x20ff0]

theorem run_refines_cutAndMove : AllowedSteps step Allowed (create page4K 0x20010) cutAndMove ∧
      ∃ s', runSteps step (create page4K 0x20010) cutAndMove = some s' ∧
        s'.abstract = cutAndMove.foldl (Spec.next page4K) ⟨fun _ => none, 0x20010⟩ := by
  have hallowed : AllowedSteps step Allowed (create page4K 0x20010) cutAndMove := by
    decide +kernel
  obtain ⟨s', hrun, -, -, habs⟩ := run_refines 0x20010 hallowed
  exact ⟨hallowed, s', hrun, habs⟩

end MemState
