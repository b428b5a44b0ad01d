/-
# Decoding with the address range map

Maps built by `insert` and `erase(p)` from plain ranges (not interleaved, not
empty, without wrap-around).  The tree is then a list of separated intervals in
their order, so the entry at `upper_bound` and the one before it are all that a
lookup has to examine; and since the cache only holds entries of the tree, an
entry found there is as good as one found in the tree.
-/
import Gem5.AddrRangeMapCache

open List Option Bool

namespace AddrRangeMap

open AddrRange (lo hi)

variable {V : Type} {m : BitVec 32} {s s' : AddrRangeMap V} {tree : List (MapEntry V)}
  {cond : AddrRange → Option Bool} {r : AddrRange} {P : AddrRange → Prop} {e : MapEntry V}
  {l : List (MapEntry V)}

/-! ## Searching -/

/-- The condition is defined on the entries of the tree and decides `P`. -/
def Decides (tree : List (MapEntry V)) (cond : AddrRange → Option Bool) (P : AddrRange → Prop) :
    Prop :=
  ∀ e ∈ tree, ∃ b, cond e.range = some b ∧ (b = true ↔ P e.range)

/-- What a search may answer. -/
def Answers (tree : List (MapEntry V)) (P : AddrRange → Prop) : Iterator → Prop
  | some c => ∃ e ∈ tree, e.id = c ∧ P e.range
  | none => ∀ e ∈ tree, ¬ P e.range

theorem deref_eq {c : ℕ} (h : ∃ e ∈ tree, e.id = c) :
    ∃ e ∈ tree, e.id = c ∧ deref tree c = some e := by
  obtain ⟨e, he, hid⟩ := h
  cases hfind : deref tree c with
  | none =>
    have hnone := find?_eq_none.mp hfind e he
    exact absurd hid (by simpa using hnone)
  | some e' =>
    exact ⟨e', mem_of_find?_eq_some hfind, by simpa using find?_some hfind, rfl⟩

/-- A fresh cache answers, or the tree is searched. -/
theorem scanCache_spec (hcond : Decides tree cond P) {cache : List ℕ}
    (hfresh : ∀ c ∈ cache, ∃ e ∈ tree, e.id = c) : ∃ o, scanCache tree cond cache = some o ∧
      ∀ c, o = some c → ∃ e ∈ tree, e.id = c ∧ P e.range := by
  induction cache with
  | nil =>
    refine ⟨none, rfl, ?_⟩
    intro c hc
    cases hc
  | cons d ds ih =>
    obtain ⟨e, he, hid, hderef⟩ := deref_eq (hfresh d mem_cons_self)
    obtain ⟨b, hb, hiff⟩ := hcond e he
    cases b with
    | true =>
      refine ⟨some d, ?_, ?_⟩
      · simp [scanCache, hderef, hb]
      · intro c hc
        cases hc
        exact ⟨e, he, hid, hiff.mp rfl⟩
    | false =>
      obtain ⟨o, ho, hfound⟩ := ih (fun c hc => hfresh c (mem_cons_of_mem _ hc))
      refine ⟨o, ?_, hfound⟩
      simp [scanCache, hderef, hb, ho]

theorem searchBack_none (h : ∀ e ∈ l, cond e.range = some false) :
    searchBack cond l = some none := by
  induction l with
  | nil => rfl
  | cons e es ih =>
    have hrest := ih (fun x hx => h x (mem_cons_of_mem _ hx))
    simp [searchBack, h e mem_cons_self, hrest]

theorem Decides.false_of_not (hcond : Decides tree cond P) (he : e ∈ tree) (hno : ¬ P e.range) :
    cond e.range = some false := by
  obtain ⟨b, hb, hiff⟩ := hcond e he
  cases b with
  | true => exact absurd (hiff.mp rfl) hno
  | false => exact hb

theorem Decides.true_of (hcond : Decides tree cond P) (he : e ∈ tree) (hP : P e.range) :
    cond e.range = some true := by
  obtain ⟨b, hb, hiff⟩ := hcond e he
  rwa [hiff.mpr hP] at hb

theorem Decides.mono {tree' : List (MapEntry V)} (hcond : Decides tree cond P)
    (hsub : ∀ e ∈ tree', e ∈ tree) : Decides tree' cond P :=
  fun e he => hcond e (hsub e he)

/-- The loop towards `begin()` looks at the nearest entry first. -/
theorem searchBack_spec (hcond : Decides l cond P) (hnear : ∀ e ∈ l, P e.range → l.head? = some e) :
    ∃ o, searchBack cond l = some o ∧ Answers l P o := by
  by_cases hany : ∃ e ∈ l, P e.range
  · obtain ⟨e, he, hP⟩ := hany
    obtain ⟨rest, rfl⟩ := head?_eq_some_iff.mp (hnear e he hP)
    refine ⟨some e.id, ?_, e, mem_cons_self, rfl, hP⟩
    simp [searchBack, hcond.true_of he hP]
  · have hno : ∀ e ∈ l, ¬ P e.range := fun e he hP => hany ⟨e, he, hP⟩
    exact ⟨none, searchBack_none (fun e he => hcond.false_of_not he (hno e he)), hno⟩

/-- Only the first entry after the range is examined. -/
theorem searchNext_spec (hcond : Decides l cond P)
    (hnear : ∀ e ∈ l, P e.range → ∀ next, l.head? = some next → P next.range) :
    ∃ o, searchNext cond l = some o ∧ Answers l P o := by
  cases l with
  | nil =>
    refine ⟨none, rfl, ?_⟩
    intro e he
    cases he
  | cons next rest =>
    by_cases hP : P next.range
    · refine ⟨some next.id, ?_, next, mem_cons_self, rfl, hP⟩
      simp [searchNext, hcond.true_of mem_cons_self hP]
    · refine ⟨none, ?_, fun e he hPe => hP (hnear e he hPe next rfl)⟩
      simp [searchNext, hcond.false_of_not mem_cons_self hP]

theorem upperBound_append (tree : List (MapEntry V)) (r : AddrRange) :
    (upperBound tree r).1 ++ (upperBound tree r).2 = tree := takeWhile_append_dropWhile

/-- The search in the tree. -/
theorem searchTree_spec (hcond : Decides tree cond P)
    (hback : ∀ e ∈ (upperBound tree r).1, P e.range → (upperBound tree r).1.getLast? = some e)
    (hnext : ∀ e ∈ (upperBound tree r).2, P e.range →
      ∀ next, (upperBound tree r).2.head? = some next → P next.range) :
    ∃ o, searchTree tree r cond = some o ∧ Answers tree P o := by
  have happend := upperBound_append tree r
  generalize hb : (upperBound tree r).1 = before at happend hback
  generalize ha : (upperBound tree r).2 = after at happend hnext
  subst happend
  obtain ⟨o1, ho1, hans1⟩ := searchNext_spec (hcond.mono fun e he => mem_append_right _ he) hnext
  obtain ⟨o2, ho2, hans2⟩ := searchBack_spec
    (hcond.mono fun e he => mem_append_left _ (mem_reverse.mp he))
    (fun e he hP => by rw [head?_reverse]; exact hback e (mem_reverse.mp he) hP)
  cases o1 with
  | some c =>
    obtain ⟨e, he, hid, hP⟩ := hans1
    refine ⟨some c, ?_, e, mem_append_right _ he, hid, hP⟩
    simp [searchTree, ha, ho1]
  | none =>
    refine ⟨o2, ?_, ?_⟩
    · simp [searchTree, ha, hb, ho1, ho2]
    · cases o2 with
      | some c =>
        obtain ⟨e, he, hid, hP⟩ := hans2
        exact ⟨e, mem_append_left _ (mem_reverse.mp he), hid, hP⟩
      | none =>
        intro e he
        rcases mem_append.mp he with he | he
        · exact hans2 e (mem_reverse.mpr he)
        · exact hans1 e he

/-- A lookup answers like the tree, whether the cache answers or not. -/
theorem find_spec (hfresh : s.Fresh) (hcond : Decides s.tree cond P)
    (htree : ∃ o, searchTree s.tree r cond = some o ∧ Answers s.tree P o) :
    ∃ it s', s.find m r cond = some (it, s') ∧ Answers s.tree P it := by
  obtain ⟨o, hscan, hfound⟩ := scanCache_spec hcond (fun c hc => mem_ids.mp (hfresh c hc))
  obtain ⟨o', hsearch, hans⟩ := htree
  cases o with
  | some c =>
    refine ⟨some c, { s with cache := c :: s.cache.erase c }, ?_, hfound c rfl⟩
    simp [find, hscan]
  | none =>
    cases o' with
    | some c =>
      refine ⟨some c, { s with cache := addNewEntryToCache m s.cache c }, ?_, hans⟩
      simp [find, hscan, hsearch]
    | none =>
      refine ⟨none, s, ?_, hans⟩
      simp [find, hscan, hsearch]

/-! ## The invariant of maps of plain ranges -/

def entryLo (e : MapEntry V) : ℕ := lo e.range

def entryHi (e : MapEntry V) : ℕ := hi e.range

/-- The tree holds separated plain ranges in their order, and the cache is
fresh. -/
structure Sound (s : AddrRangeMap V) : Prop where
  plain : ∀ e ∈ s.tree, e.range.Plain
  separated : Intervals.Separated entryLo entryHi s.tree
  fresh : s.Fresh
  nodup : s.ids.Nodup
  lt_next : ∀ c ∈ s.ids, c < s.nextId

theorem sound_empty : (empty : AddrRangeMap V).Sound := by
  refine ⟨?_, ⟨?_, .nil⟩, ?_, nodup_nil, ?_⟩
  · intro e he
    cases he
  · intro e he
    cases he
  · intro c hc
    cases hc
  · intro c hc
    cases hc

theorem lo_le_of_mem_before (hr : r.Plain) (he : e ∈ (upperBound tree r).1) : entryLo e ≤ lo r := by
  have hnot := mem_takeWhile_imp he
  rw [not_eq_true', ← not_eq_true, hr.lt_iff, not_lt] at hnot
  exact hnot

namespace Sound

variable (h : s.Sound) (hr : r.Plain)
include h

/-- **The stored ranges are pairwise disjoint.** -/
theorem disjoint {e e' : MapEntry V} (he : e ∈ s.tree) (he' : e' ∈ s.tree) (hne : e ≠ e') :
    ¬ e.range.Overlaps e'.range := by
  have hdisj := h.separated.disjoint he he' hne
  rw [AddrRange.Overlaps, Set.not_nonempty_iff_eq_empty]
  exact hdisj.inter_eq

include hr

/-- Only one entry covers a range. -/
theorem cover_unique {e e' : MapEntry V} (he : e ∈ s.tree) (he' : e' ∈ s.tree)
    (hsub : r.addrs ⊆ e.range.addrs) (hsub' : r.addrs ⊆ e'.range.addrs) : e' = e := by
  by_contra hne
  obtain ⟨a, ha⟩ : r.addrs.Nonempty := Set.nonempty_Ico.mpr hr.lo_lt_hi
  exact h.disjoint he' he hne ⟨a, hsub' ha, hsub ha⟩

theorem lo_lt_of_mem_after (he : e ∈ (upperBound s.tree r).2) : lo r < entryLo e := by
  have hnot := h.separated.not_of_mem_dropWhile (by
    intro x _ y _ hxy hy
    rw [not_eq_true', ← not_eq_true, hr.lt_iff, not_lt] at hy ⊢
    exact hxy.trans hy) e he
  rw [not_eq_false', hr.lt_iff] at hnot
  exact hnot

/-- `contains` finds the entry that covers the range, if there is one. -/
theorem contains (m : BitVec 32) : ∃ it s', s.contains m r = some (it, s') ∧
    Answers s.tree (fun r' => r.addrs ⊆ r'.addrs) it := by
  have hcond : Decides s.tree (fun r1 => r.isSubset r1) fun r' => r.addrs ⊆ r'.addrs :=
    fun e he => hr.isSubset_eq (h.plain e he)
  have hsep := h.separated
  rw [← upperBound_append s.tree r] at hsep
  refine find_spec h.fresh hcond (searchTree_spec hcond ?_ ?_)
  · intro e he hsub
    exact hsep.last_of_subset (fun _ hy => lo_le_of_mem_before hr hy)
      (fun _ hy => h.lo_lt_of_mem_after hr hy) hr.lo_lt_hi (mem_append_left _ he) hsub
  · intro e he hsub
    have hle := (hr.subset_iff.mp hsub).1
    exact absurd (h.lo_lt_of_mem_after hr he) (not_lt.mpr hle)

/-- `intersects` finds an overlapping entry, if there is one. -/
theorem intersects (m : BitVec 32) : ∃ it s', s.intersects m r = some (it, s') ∧
    Answers s.tree (fun r' => r.Overlaps r') it := by
  have hcond : Decides s.tree (fun r1 => r.intersects r1) fun r' => r.Overlaps r' :=
    fun e he => hr.intersects_eq (h.plain e he)
  have hsep := h.separated
  rw [← upperBound_append s.tree r] at hsep
  refine find_spec h.fresh hcond (searchTree_spec hcond ?_ ?_)
  · exact fun e he hover =>
      hsep.last_of_overlap (fun _ hy => lo_le_of_mem_before hr hy) hr.lo_lt_hi he hover
  · intro e he hover next hnext
    obtain ⟨rest, hafter⟩ := head?_eq_some_iff.mp hnext
    have hgt := fun z (hz : z ∈ (upperBound s.tree r).2) => h.lo_lt_of_mem_after hr hz
    rw [hafter] at hsep he hgt
    exact hsep.head_of_overlap hgt hr.lo_lt_hi he hover

end Sound

/-! ## Steps -/

theorem LookedUp.sound (h : LookedUp s s') (hs : s.Sound) : s'.Sound where
  plain := by rw [h.tree]; exact hs.plain
  separated := by rw [h.tree]; exact hs.separated
  fresh := h.fresh hs.fresh
  nodup := by rw [h.ids_eq]; exact hs.nodup
  lt_next := by rw [h.ids_eq, h.nextId]; exact hs.lt_next

/-- A range that overlaps no entry gets an entry of its own. -/
theorem Sound.insertTree_eq (h : s.Sound) (hr : r.Plain)
    (hfree : ∀ e ∈ s.tree, ¬ r.Overlaps e.range) (d : V) :
    s.insertTree r d = s.insertAt (s.tree.takeWhile fun e => e.range.lt r)
      (s.tree.dropWhile fun e => e.range.lt r) r d := by
  rcases insertTree_cases s r d with heq | ⟨e, he, hlt, hlt', -⟩
  · exact heq
  · -- an equivalent key has the same start
    have hpe := h.plain e he
    rw [← not_eq_true, hpe.lt_iff] at hlt
    rw [← not_eq_true, hr.lt_iff] at hlt'
    have hlo : lo r = lo e.range := by omega
    refine absurd ((hr.overlaps_iff hpe).mpr ⟨?_, ?_⟩) (hfree e he)
    · rw [hlo]
      exact hpe.lo_lt_hi
    · rw [← hlo]
      exact hr.lo_lt_hi

theorem Sound.insertAt (h : s.Sound) (hr : r.Plain)
    (hfree : ∀ e ∈ s.tree, ¬ r.Overlaps e.range) (d : V) :
    (s.insertAt (s.tree.takeWhile fun e => e.range.lt r)
      (s.tree.dropWhile fun e => e.range.lt r) r d).2.Sound := by
  have happend : (s.tree.takeWhile fun e => e.range.lt r) ++
      (s.tree.dropWhile fun e => e.range.lt r) = s.tree := takeWhile_append_dropWhile
  have hlt : ∀ y ∈ s.tree.takeWhile fun e => e.range.lt r, entryLo y < lo r := by
    intro y hy
    have hpy := h.plain y (takeWhile_subset _ hy)
    exact hpy.lt_iff.mp (mem_takeWhile_imp (p := fun e : MapEntry V => e.range.lt r) hy)
  have hge : ∀ y ∈ s.tree.dropWhile fun e => e.range.lt r, lo r ≤ entryLo y := by
    intro y hy
    have hnot := h.separated.not_of_mem_dropWhile (by
      intro x hx z hz hxz hzr
      rw [(h.plain z hz).lt_iff] at hzr
      exact (h.plain x hx).lt_iff.mpr (lt_of_le_of_lt hxz hzr)) y hy
    rw [← not_eq_true, (h.plain y (dropWhile_subset _ hy)).lt_iff, not_lt] at hnot
    exact hnot
  generalize (s.tree.takeWhile fun e => e.range.lt r) = before at happend hlt
  generalize (s.tree.dropWhile fun e => e.range.lt r) = after at happend hge
  have hmem : ∀ {e}, e ∈ before ++ (⟨s.nextId, r, d⟩ : MapEntry V) :: after ↔
      e = ⟨s.nextId, r, d⟩ ∨ e ∈ s.tree := by
    intro e
    rw [← happend, mem_append, mem_append, mem_cons]
    tauto
  have hids : ((before ++ (⟨s.nextId, r, d⟩ : MapEntry V) :: after).map MapEntry.id).Perm
      (s.nextId :: s.ids) := by
    rw [ids, ← happend]
    exact perm_middle.map MapEntry.id
  refine ⟨?_, ?_, ?_, ?_, ?_⟩
  · intro e he
    rcases hmem.mp he with rfl | he
    · exact hr
    · exact h.plain e he
  · have hsep := h.separated
    rw [← happend] at hsep
    refine hsep.insert hr.lo_lt_hi hlt hge ?_
    intro y hy
    exact hfree y (happend ▸ hy)
  · intro c hc
    exact hids.mem_iff.mpr (mem_cons_of_mem _ (h.fresh c hc))
  · exact hids.nodup_iff.mpr (nodup_cons.mpr ⟨fun hin => lt_irrefl _ (h.lt_next _ hin), h.nodup⟩)
  · intro c hc
    rcases mem_cons.mp (hids.mem_iff.mp hc) with rfl | hc
    · exact Nat.lt_succ_self _
    · exact (h.lt_next c hc).trans (Nat.lt_succ_self _)

/-- **`insert` fails just on an overlap**, and then leaves the tree alone. -/
theorem Sound.insert (h : s.Sound) (hr : r.Plain) (m : BitVec 32) (d : V) :
    ∃ it s1 s', LookedUp s s1 ∧ s.insert m r d = some (it, s') ∧ s'.Sound ∧
      (((∃ e ∈ s.tree, r.Overlaps e.range) ∧ it = none ∧ s' = s1) ∨
        ((∀ e ∈ s.tree, ¬ r.Overlaps e.range) ∧ it = some s.nextId ∧
          s'.tree.Perm (⟨s.nextId, r, d⟩ :: s.tree) ∧ s' = (s1.insertTree r d).2)) := by
  obtain ⟨it, s1, hfind, hans⟩ := h.intersects hr m
  have hlook := (find_lookedUp hfind).1
  have hs1 := hlook.sound h
  cases it with
  | some c =>
    obtain ⟨e, he, -, hover⟩ := hans
    refine ⟨none, s1, s1, hlook, ?_, hs1, .inl ⟨⟨e, he, hover⟩, rfl, rfl⟩⟩
    simp [AddrRangeMap.insert, hfind]
  | none =>
    have hfree : ∀ e ∈ s1.tree, ¬ r.Overlaps e.range := by rw [hlook.tree]; exact hans
    have heq := hs1.insertTree_eq hr hfree d
    refine ⟨some s.nextId, s1, (s1.insertTree r d).2, hlook, ?_, ?_, .inr ⟨hans, rfl, ?_, rfl⟩⟩
    · simp [AddrRangeMap.insert, hfind, heq, AddrRangeMap.insertAt, hlook.nextId]
    · rw [heq]
      exact hs1.insertAt hr hfree d
    · rw [heq, AddrRangeMap.insertAt, ← hlook.tree, ← hlook.nextId]
      refine perm_middle.trans (.of_eq ?_)
      rw [takeWhile_append_dropWhile]

theorem Sound.erase (h : s.Sound) {it : ℕ} (hit : it ∈ s.ids) :
    ∃ s', s.erase (some it) = some s' ∧ s'.Sound ∧
      s'.tree = s.tree.filter (fun e => e.id ≠ it) ∧ s'.nextId = s.nextId := by
  have heq : s.erase (some it) = some { s with
      cache := s.cache.filter fun c => c ≠ it
      tree := s.tree.filter fun e => e.id ≠ it } := by
    simp [AddrRangeMap.erase, hit]
  have hsub : (s.tree.filter fun e => e.id ≠ it).Sublist s.tree := filter_sublist
  refine ⟨_, heq, ⟨?_, h.separated.sublist hsub, erase_fresh heq h.fresh, ?_, ?_⟩, rfl, rfl⟩
  · exact fun e he => h.plain e (hsub.subset he)
  · exact h.nodup.sublist (hsub.map _)
  · exact fun c hc => h.lt_next c ((hsub.map _).subset hc)

/-! ## Runs -/

/-- What a caller may do: use plain ranges and erase entries of the tree. -/
def Allowed (s : AddrRangeMap V) : Op V → Prop
  | .insert r _ => r.Plain
  | .erase p => ∃ it ∈ s.ids, p = some it
  | .contains r => r.Plain
  | .intersects r => r.Plain
  | .eraseRange _ _ => False
  | .clear => False

instance (s : AddrRangeMap V) : (op : Op V) → Decidable (Allowed s op)
  | .insert r _ => inferInstanceAs (Decidable r.Plain)
  | .erase p => inferInstanceAs (Decidable (∃ it ∈ s.ids, p = some it))
  | .contains r => inferInstanceAs (Decidable r.Plain)
  | .intersects r => inferInstanceAs (Decidable r.Plain)
  | .eraseRange _ _ => isFalse id
  | .clear => isFalse id

/-- Every operation of the run is allowed where it is called. -/
def AllowedRun (m : BitVec 32) (s : AddrRangeMap V) (ops : List (Op V)) : Prop :=
  AllowedSteps (step m) Allowed s ops

instance (m : BitVec 32) (s : AddrRangeMap V) (ops : List (Op V)) :
    Decidable (AllowedRun m s ops) :=
  inferInstanceAs (Decidable (AllowedSteps _ _ _ _))

/-- The operations that may change the tree. -/
def Op.isUpdate : Op V → Bool
  | .contains _ => false
  | .intersects _ => false
  | _ => true

/-- The map without its cache. -/
def uncached (s : AddrRangeMap V) : AddrRangeMap V := { s with cache := [] }

open Classical in
/-- The purpose of the operations, on a map without cache. -/
noncomputable def update (s : AddrRangeMap V) : Op V → AddrRangeMap V
  | .insert r d => if ∃ e ∈ s.tree, r.Overlaps e.range then s else (s.insertTree r d).2
  | .erase (some it) => { s with tree := s.tree.filter fun e => e.id ≠ it }
  | _ => s

theorem LookedUp.uncached_eq (h : LookedUp s s') : s'.uncached = s.uncached := by
  rw [uncached, uncached, h.tree, h.nextId]

theorem uncached_insertTree (s : AddrRangeMap V) (r : AddrRange) (d : V) :
    (s.insertTree r d).2.uncached = (s.uncached.insertTree r d).2 := by
  simp only [insertTree, uncached]
  split
  · rfl
  · split <;> rfl

/-- **Every allowed operation succeeds** and does what `update` says. -/
theorem Sound.step {op : Op V} (h : s.Sound) (hop : Allowed s op) (m : BitVec 32) :
    ∃ s', s.step m op = some s' ∧ s'.Sound ∧ s'.uncached = s.uncached.update op := by
  cases op with
  | insert r d =>
    obtain ⟨it, s1, s', hlook, heq, hs', hcases⟩ := h.insert hop m d
    refine ⟨s', by rw [AddrRangeMap.step, heq, map_some], hs', ?_⟩
    rcases hcases with ⟨hover, -, rfl⟩ | ⟨hfree, -, -, rfl⟩
    · have hover' : ∃ e ∈ s.uncached.tree, r.Overlaps e.range := hover
      rw [hlook.uncached_eq, update, if_pos hover']
    · have hno : ¬ ∃ e ∈ s.uncached.tree, r.Overlaps e.range := by
        rintro ⟨e, he, hover⟩
        exact hfree e he hover
      rw [uncached_insertTree, hlook.uncached_eq, update, if_neg hno]
  | erase p =>
    obtain ⟨it, hit, rfl⟩ := hop
    obtain ⟨s', heq, hs', htree, hnext⟩ := h.erase hit
    refine ⟨s', heq, hs', ?_⟩
    rw [uncached, htree, hnext]
    rfl
  | eraseRange p q | clear => exact absurd hop id
  | contains r =>
    obtain ⟨it, s', heq, -⟩ := h.contains hop m
    have hlook := (find_lookedUp heq).1
    exact ⟨s', by rw [AddrRangeMap.step, heq, map_some], hlook.sound h, hlook.uncached_eq⟩
  | intersects r =>
    obtain ⟨it, s', heq, -⟩ := h.intersects hop m
    have hlook := (find_lookedUp heq).1
    exact ⟨s', by rw [AddrRangeMap.step, heq, map_some], hlook.sound h, hlook.uncached_eq⟩

theorem run_sound (m : BitVec 32) {ops : List (Op V)} (hallowed : AllowedRun m empty ops) :
    ∃ s, runSteps (step m) empty ops = some s ∧ s.Sound ∧
      s.uncached = (ops.filter Op.isUpdate).foldl update empty := by
  obtain ⟨s, hrun, hs, habs⟩ :=
    AllowedSteps.refine uncached update (fun _ _ hs hop => hs.step hop m) sound_empty hallowed
  refine ⟨s, hrun, hs, ?_⟩
  rw [habs, foldl_filter]
  -- lookups do not count
  congr 1
  funext t op
  cases op <;> rfl

/-- The covering entry is the only answer. -/
theorem Sound.answers_unique (h : s.Sound) (hr : r.Plain) {it it' : Iterator}
    (hit : Answers s.tree (fun r' => r.addrs ⊆ r'.addrs) it)
    (hit' : Answers s.tree (fun r' => r.addrs ⊆ r'.addrs) it') : it = it' := by
  cases it with
  | none =>
    cases it' with
    | none => rfl
    | some c =>
      obtain ⟨e, he, -, hsub⟩ := hit'
      exact absurd hsub (hit e he)
  | some c =>
    obtain ⟨e, he, rfl, hsub⟩ := hit
    cases it' with
    | none => exact absurd hsub (hit' e he)
    | some c' =>
      obtain ⟨e', he', rfl, hsub'⟩ := hit'
      rw [h.cover_unique hr he he' hsub hsub']

theorem Answers.isSome_iff {it : Iterator} (h : Answers tree P it) :
    it.isSome = true ↔ ∃ e ∈ tree, P e.range := by
  cases it with
  | none => simpa [Answers] using h
  | some c =>
    obtain ⟨e, he, -, hP⟩ := h
    simpa using ⟨e, he, hP⟩

/-! ## Decoding -/

/-- What a map reached by the operations `ops` is for. -/
structure Decodes (m : BitVec 32) (ops : List (Op V)) (s : AddrRangeMap V) : Prop where
  /-- The stored ranges are pairwise disjoint. -/
  disjoint : ∀ e ∈ s.tree, ∀ e' ∈ s.tree, e ≠ e' → ¬ e.range.Overlaps e'.range
  /-- `insert` returns `end()` just when the range overlaps a stored one, and
  then leaves the tree as it was; otherwise it adds the entry that it returns. -/
  insert : ∀ r d, r.Plain → ∃ it s', s.insert m r d = some (it, s') ∧
    (it = none ↔ ∃ e ∈ s.tree, r.Overlaps e.range) ∧ (it = none → s'.tree = s.tree) ∧
    ∀ id, it = some id → s'.tree.Perm (⟨id, r, d⟩ :: s.tree)
  /-- `erase(p)` takes out one entry. -/
  erase : ∀ it ∈ s.ids, ∃ s', s.erase (some it) = some s' ∧
    s'.tree = s.tree.filter fun e => e.id ≠ it
  /-- `contains` returns the one entry that is a superset of the range, and
  `end()` if there is none. -/
  contains : ∀ r, r.Plain → ∃ it s', s.contains m r = some (it, s') ∧
    ((∃ e ∈ s.tree, it = some e.id ∧ r.addrs ⊆ e.range.addrs ∧
        ∀ e' ∈ s.tree, r.addrs ⊆ e'.range.addrs → e' = e) ∨
      (it = none ∧ ∀ e ∈ s.tree, ¬ r.addrs ⊆ e.range.addrs))
  /-- `intersects` returns an overlapping entry just when there is one. -/
  intersects : ∀ r, r.Plain → ∃ it s', s.intersects m r = some (it, s') ∧
    ((∃ e ∈ s.tree, it = some e.id ∧ r.Overlaps e.range) ∨
      (it = none ∧ ∀ e ∈ s.tree, ¬ r.Overlaps e.range))
  /-- Another run with the same insertions and erasures gives the same answers,
  whatever its cache size and its lookups. -/
  independent : ∀ m' ops', AllowedRun m' empty ops' →
    ops'.filter Op.isUpdate = ops.filter Op.isUpdate →
    ∃ s', runSteps (step m') empty ops' = some s' ∧ ∀ r, r.Plain →
      (s'.contains m' r).map Prod.fst = (s.contains m r).map Prod.fst ∧
      (s'.intersects m' r).map (fun a => a.1.isSome) =
        (s.intersects m r).map (fun a => a.1.isSome)

/-- **Decoding.**  Every map built by `insert` and `erase(p)` from plain ranges,
with any lookups in between, decodes addresses. -/
theorem decoding (m : BitVec 32) (ops : List (Op V)) (hallowed : AllowedRun m empty ops) :
    ∃ s, runSteps (step m) empty ops = some s ∧ Decodes m ops s := by
  obtain ⟨s, hrun, hs, habs⟩ := run_sound m hallowed
  refine ⟨s, hrun, fun e he e' he' hne => hs.disjoint he he' hne, ?_, ?_, ?_, ?_, ?_⟩
  · intro r d hr
    obtain ⟨it, s1, s', hlook, heq, -, hcases⟩ := hs.insert hr m d
    refine ⟨it, s', heq, ?_⟩
    rcases hcases with ⟨hover, rfl, rfl⟩ | ⟨hfree, rfl, hperm, -⟩
    · exact ⟨iff_of_true rfl hover, fun _ => hlook.tree, by simp⟩
    · refine ⟨iff_of_false (by simp) ?_, by simp, ?_⟩
      · rintro ⟨e, he, hover⟩
        exact hfree e he hover
      · rintro id ⟨⟩
        exact hperm
  · intro it hit
    obtain ⟨s', heq, -, htree, -⟩ := hs.erase hit
    exact ⟨s', heq, htree⟩
  · intro r hr
    obtain ⟨it, s', heq, hans⟩ := hs.contains hr m
    refine ⟨it, s', heq, ?_⟩
    cases it with
    | none => exact .inr ⟨rfl, hans⟩
    | some c =>
      obtain ⟨e, he, rfl, hsub⟩ := hans
      exact .inl ⟨e, he, rfl, hsub, fun e' he' hsub' => hs.cover_unique hr he he' hsub hsub'⟩
  · intro r hr
    obtain ⟨it, s', heq, hans⟩ := hs.intersects hr m
    refine ⟨it, s', heq, ?_⟩
    cases it with
    | none => exact .inr ⟨rfl, hans⟩
    | some c =>
      obtain ⟨e, he, rfl, hover⟩ := hans
      exact .inl ⟨e, he, rfl, hover⟩
  · intro m' ops' hallowed' hsame
    obtain ⟨s', hrun', hs', habs'⟩ := run_sound m' hallowed'
    rw [hsame, ← habs] at habs'
    have htree : s'.uncached.tree = s.uncached.tree := by rw [habs']
    refine ⟨s', hrun', ?_⟩
    intro r hr
    obtain ⟨it, _, heq, hans⟩ := hs.contains hr m
    obtain ⟨it', _, heq', hans'⟩ := hs'.contains hr m'
    obtain ⟨jt, _, hjeq, hjans⟩ := hs.intersects hr m
    obtain ⟨jt', _, hjeq', hjans'⟩ := hs'.intersects hr m'
    rw [show s'.tree = s.tree from htree] at hans' hjans'
    rw [heq, heq', hjeq, hjeq']
    refine ⟨congrArg some (hs.answers_unique hr hans' hans), congrArg some ?_⟩
    rw [Bool.eq_iff_iff]
    exact hjans'.isSome_iff.trans hjans.isSome_iff.symm

/-- A run in which the cache of one entry is filled, reused and overwritten. -/
theorem decoding_two_ranges :
    AllowedRun (V := ℕ) 1 empty [.insert (.ofBounds 0 16) 1, .insert (.ofBounds 32 48) 2,
      .contains (.ofBounds 4 8), .insert (.ofBounds 8 40) 3, .intersects (.ofBounds 40 64),
      .erase (some 0), .insert (.ofBounds 8 32) 4] ∧
    ∃ s, runSteps (step 1) empty [.insert (.ofBounds 0 16) 1, .insert (.ofBounds 32 48) 2,
        .contains (.ofBounds 4 8), .insert (.ofBounds 8 40) 3, .intersects (.ofBounds 40 64),
        .erase (some 0), .insert (.ofBounds 8 32) 4] = some s ∧
      Decodes (V := ℕ) 1 [.insert (.ofBounds 0 16) 1, .insert (.ofBounds 32 48) 2,
        .contains (.ofBounds 4 8), .insert (.ofBounds 8 40) 3, .intersects (.ofBounds 40 64),
        .erase (some 0), .insert (.ofBounds 8 32) 4] s :=
  ⟨by decide +kernel, decoding 1 _ (by decide +kernel)⟩

end AddrRangeMap
