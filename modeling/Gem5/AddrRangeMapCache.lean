/-
# The lookup cache of the address range map

The cache duplicates references into the tree.  Lookups only put iterators of
the tree into it, `erase(p)` takes `p` out of both and `clear` empties both.
`erase(p, q)` is different: its loop runs over the range but removes `p` from
the cache every time, so the other iterators of the range stay.
-/
import Gem5.AddrRangeMap

open List
open Option hiding mem_map

namespace AddrRangeMap

variable {V : Type} {m : BitVec 32} {s s' : AddrRangeMap V} {tree : List (MapEntry V)}
  {cond : AddrRange → Option Bool} {r : AddrRange} {it : ℕ} {l : List (MapEntry V)} {cache : List ℕ}

/-- Every iterator in the cache refers to an entry in the tree. -/
def Fresh (s : AddrRangeMap V) : Prop := ∀ c ∈ s.cache, c ∈ s.ids

instance (s : AddrRangeMap V) : Decidable s.Fresh :=
  inferInstanceAs (Decidable (∀ c ∈ s.cache, c ∈ s.ids))

variable {c : ℕ}

theorem mem_ids : c ∈ s.ids ↔ ∃ e ∈ s.tree, e.id = c := mem_map

/-! ## Lookups -/

theorem mem_addNewEntryToCache {it c : ℕ}
    (h : c ∈ addNewEntryToCache m cache it) : c ∈ cache ∨ c = it := by
  unfold addNewEntryToCache at h
  split at h
  · split at h
    · split at h
      · rcases mem_cons.mp h with rfl | h
        · exact .inr rfl
        · exact .inl (mem_of_mem_dropLast h)
      · rcases mem_append.mp h with h | h
        · exact .inl (mem_of_mem_dropLast h)
        · exact .inr (mem_singleton.mp h)
    · rcases mem_cons.mp h with rfl | h
      · exact .inr rfl
      · exact .inl h
  · exact .inl h

/-- The entry found satisfies the condition. -/
def Found (tree : List (MapEntry V)) (cond : AddrRange → Option Bool) (it : ℕ) : Prop :=
  ∃ e ∈ tree, e.id = it ∧ cond e.range = some true

theorem scanCache_found (h : scanCache tree cond cache = some (some c)) :
    c ∈ cache ∧ Found tree cond c := by
  induction cache with
  | nil => cases h
  | cons d ds ih =>
    simp only [scanCache, bind_eq_bind, bind_eq_some_iff] at h
    obtain ⟨e, he, b, hb, hrest⟩ := h
    cases b with
    | true =>
      cases hrest
      refine ⟨mem_cons_self, e, mem_of_find?_eq_some he, ?_, hb⟩
      simpa using find?_some he
    | false =>
      obtain ⟨hmem, hfound⟩ := ih hrest
      exact ⟨mem_cons_of_mem _ hmem, hfound⟩

theorem Found.mono {tree' : List (MapEntry V)} (h : Found tree cond it)
    (hsub : ∀ e ∈ tree, e ∈ tree') : Found tree' cond it := by
  obtain ⟨e, he, hid, hcond⟩ := h
  exact ⟨e, hsub e he, hid, hcond⟩

theorem searchBack_found (h : searchBack cond l = some (some it)) : Found l cond it := by
  induction l with
  | nil => cases h
  | cons e es ih =>
    simp only [searchBack, bind_eq_bind, bind_eq_some_iff] at h
    obtain ⟨b, hb, hrest⟩ := h
    cases b with
    | true =>
      cases hrest
      exact ⟨e, mem_cons_self, rfl, hb⟩
    | false =>
      rw [if_neg Bool.false_ne_true] at hrest
      split at hrest
      · exact (ih hrest).mono (fun x hx => mem_cons_of_mem _ hx)
      · cases hrest

theorem searchNext_found (h : searchNext cond l = some (some it)) : Found l cond it := by
  cases l with
  | nil => cases h
  | cons e es =>
    simp only [searchNext, bind_eq_bind, bind_eq_some_iff] at h
    obtain ⟨b, hb, hrest⟩ := h
    cases b with
    | true =>
      cases hrest
      exact ⟨e, mem_cons_self, rfl, hb⟩
    | false => cases hrest

theorem searchTree_found (h : searchTree tree r cond = some (some it)) : Found tree cond it := by
  simp only [searchTree, bind_eq_bind, bind_eq_some_iff] at h
  obtain ⟨o, hnext, hrest⟩ := h
  cases o with
  | some it' =>
    cases hrest
    exact (searchNext_found hnext).mono (fun e he => dropWhile_subset _ he)
  | none =>
    exact (searchBack_found hrest).mono
      (fun e he => takeWhile_subset _ (mem_reverse.mp he))

/-- A lookup leaves the tree alone and only caches entries of the tree. -/
structure LookedUp (s s' : AddrRangeMap V) : Prop where
  tree : s'.tree = s.tree
  nextId : s'.nextId = s.nextId
  cache : ∀ c ∈ s'.cache, c ∈ s.cache ∨ c ∈ s.ids

theorem find_lookedUp {it : Iterator} (h : s.find m r cond = some (it, s')) :
    LookedUp s s' ∧ ∀ c, it = some c → Found s.tree cond c := by
  simp only [find, bind_eq_bind, bind_eq_some_iff] at h
  obtain ⟨o, hscan, hrest⟩ := h
  cases o with
  | some c =>
    cases hrest
    obtain ⟨hmem, hfound⟩ := scanCache_found hscan
    refine ⟨⟨rfl, rfl, ?_⟩, ?_⟩
    · intro d hd
      rcases mem_cons.mp hd with rfl | hd
      · exact .inl hmem
      · exact .inl (mem_of_mem_erase hd)
    · intro d hd
      cases hd
      exact hfound
  | none =>
    simp only [bind_eq_some_iff] at hrest
    obtain ⟨o, hsearch, hrest⟩ := hrest
    cases o with
    | some c =>
      cases hrest
      have hfound := searchTree_found hsearch
      refine ⟨⟨rfl, rfl, ?_⟩, ?_⟩
      · intro d hd
        rcases mem_addNewEntryToCache hd with hd | rfl
        · exact .inl hd
        · obtain ⟨e, he, hid, -⟩ := hfound
          exact .inr (mem_ids.mpr ⟨e, he, hid⟩)
      · intro d hd
        cases hd
        exact hfound
    | none =>
      cases hrest
      refine ⟨⟨rfl, rfl, fun c hc => .inl hc⟩, ?_⟩
      intro c hc
      cases hc

theorem LookedUp.ids_eq (h : LookedUp s s') : s'.ids = s.ids := by rw [ids, ids, h.tree]

theorem LookedUp.fresh (h : LookedUp s s') (hs : s.Fresh) : s'.Fresh := by
  intro c hc
  rw [h.ids_eq]
  exact (h.cache c hc).elim (hs c) id

/-! ## Steps -/

/-- `tree.insert` adds an entry in its place, or finds an equivalent key. -/
theorem insertTree_cases (s : AddrRangeMap V) (r : AddrRange) (d : V) :
    s.insertTree r d = s.insertAt (s.tree.takeWhile fun e => e.range.lt r)
      (s.tree.dropWhile fun e => e.range.lt r) r d ∨
    ∃ e ∈ s.tree, e.range.lt r = false ∧ r.lt e.range = false ∧
      s.insertTree r d = (some e.id, s) := by
  simp only [insertTree]
  cases hafter : s.tree.dropWhile fun e => e.range.lt r with
  | nil => exact .inl rfl
  | cons e es =>
    by_cases hlt : r.lt e.range = true
    · left
      simp [hlt]
    · right
      have hhead := head?_dropWhile_not (fun e => e.range.lt r) s.tree
      rw [hafter] at hhead
      refine ⟨e, dropWhile_subset _ (hafter ▸ mem_cons_self), by simpa using hhead,
        by simpa using hlt, ?_⟩
      exact if_neg hlt

theorem mem_insertTree (s : AddrRangeMap V) (r : AddrRange) (d : V) :
    (s.insertTree r d).2.cache = s.cache ∧ ∀ e ∈ s.tree, e ∈ (s.insertTree r d).2.tree := by
  rcases insertTree_cases s r d with heq | ⟨e, -, -, -, heq⟩
  · rw [heq]
    refine ⟨rfl, ?_⟩
    intro e he
    rw [← takeWhile_append_dropWhile (l := s.tree)] at he
    rcases mem_append.mp he with he | he
    · exact mem_append_left _ he
    · exact mem_append_right _ (mem_cons_of_mem _ he)
  · rw [heq]
    exact ⟨rfl, fun e he => he⟩

theorem insert_fresh {it : Iterator} {d : V} (h : s.insert m r d = some (it, s'))
    (hs : s.Fresh) : s'.Fresh := by
  simp only [insert, bind_eq_bind, bind_eq_some_iff] at h
  obtain ⟨⟨it1, s1⟩, hfind, hrest⟩ := h
  have hfresh := (find_lookedUp hfind).1.fresh hs
  split at hrest
  · cases hrest
    exact hfresh
  · have heq : s' = (s1.insertTree r d).2 := by rw [some.inj hrest]
    rw [heq]
    obtain ⟨hcache, htree⟩ := mem_insertTree s1 r d
    intro c hc
    rw [hcache] at hc
    obtain ⟨e, he, hid⟩ := mem_ids.mp (hfresh c hc)
    exact mem_ids.mpr ⟨e, htree e he, hid⟩

theorem erase_fresh {p : Iterator} (h : s.erase p = some s') (hs : s.Fresh) : s'.Fresh := by
  simp only [erase, bind_eq_bind, bind_eq_some_iff] at h
  obtain ⟨it, -, hrest⟩ := h
  split at hrest
  · cases hrest
    intro c hc
    obtain ⟨hmem, hne⟩ := mem_filter.mp hc
    obtain ⟨e, he, rfl⟩ := mem_ids.mp (hs c hmem)
    exact mem_ids.mpr ⟨e, mem_filter.mpr ⟨he, hne⟩, rfl⟩
  · cases hrest

/-- The cache holds no iterator of the range `[p, q)` other than `p`. -/
def EraseOk (s : AddrRangeMap V) (p q : Iterator) : Prop :=
  ∀ its, s.between p q = some its → ∀ c ∈ s.cache, c ∈ its → some c = p

/-- The loop of `erase(p, q)` takes out `p` and nothing else. -/
theorem mem_foldl_filter (its cache : List ℕ) (p : Iterator) :
    c ∈ its.foldl (fun cache _ => cache.filter fun c => some c ≠ p) cache ↔
      c ∈ cache ∧ (its = [] ∨ some c ≠ p) := by
  induction its generalizing cache with
  | nil => simp
  | cons it its ih =>
    rw [foldl_cons, ih, mem_filter]
    simp only [decide_eq_true_eq]
    tauto

/-- **`erase(p, q)` keeps the cache fresh just when** the cache holds no other
iterator of the range. -/
theorem eraseRange_fresh_iff {p q : Iterator} (h : s.eraseRange p q = some s') (hs : s.Fresh) :
    s'.Fresh ↔ s.EraseOk p q := by
  simp only [eraseRange, bind_eq_bind, bind_eq_some_iff] at h
  obtain ⟨its, hits, hrest⟩ := h
  cases hrest
  have hids : ∀ {c}, c ∈ (s.tree.filter fun e => e.id ∉ its).map MapEntry.id ↔
      c ∈ s.ids ∧ c ∉ its := by
    intro c
    simp only [ids, mem_map, mem_filter, decide_eq_true_eq]
    constructor
    · rintro ⟨e, ⟨he, hne⟩, rfl⟩
      exact ⟨⟨e, he, rfl⟩, hne⟩
    · rintro ⟨⟨e, he, rfl⟩, hne⟩
      exact ⟨e, ⟨he, hne⟩, rfl⟩
  constructor
  · intro hfresh its' hits' c hc hmem
    rw [hits] at hits'
    cases hits'
    by_contra hne
    have hstill := hfresh c ((mem_foldl_filter its s.cache p).mpr ⟨hc, .inr hne⟩)
    exact (hids.mp hstill).2 hmem
  · intro hok c hc
    obtain ⟨hmem, hkept⟩ := (mem_foldl_filter its s.cache p).mp hc
    refine hids.mpr ⟨hs c hmem, ?_⟩
    intro hin
    rcases hkept with rfl | hne
    · cases hin
    · exact hne (hok its hits c hmem hin)

/-- The condition on the step of an operation. -/
def StepOk (s : AddrRangeMap V) : Op V → Prop
  | .eraseRange p q => s.EraseOk p q
  | _ => True

/-- What one step does to the cache. -/
theorem step_fresh_iff {op : Op V} (hs : s.Fresh) (h : s.step m op = some s') :
    s'.Fresh ↔ s.StepOk op := by
  cases op with
  | insert r d =>
    obtain ⟨⟨it, s1⟩, hins, rfl⟩ := map_eq_some_iff.mp h
    exact iff_of_true (insert_fresh hins hs) trivial
  | erase p => exact iff_of_true (erase_fresh h hs) trivial
  | eraseRange p q => exact eraseRange_fresh_iff h hs
  | clear =>
    cases h
    exact iff_of_true (fun c hc => by cases hc) trivial
  | contains r | intersects r =>
    obtain ⟨⟨it, s1⟩, hfind, rfl⟩ := map_eq_some_iff.mp h
    exact iff_of_true ((find_lookedUp hfind).1.fresh hs) trivial

/-! ## Runs -/

/-- **When the cache never goes stale.**  In every run, for every size of the
cache, the cache is fresh in all states the run goes through if and only if
every `erase(p, q)` of the run finds no iterator of its range other than `p` in
the cache. -/
theorem cache_fresh_iff (m : BitVec 32) (ops : List (Op V)) :
    (∀ pre s, pre <+: ops → runSteps (step m) empty pre = some s → s.Fresh) ↔
      ∀ pre p q s, pre ++ [Op.eraseRange p q] <+: ops →
        runSteps (step m) empty pre = some s → s.EraseOk p q := by
  have hempty : (empty : AddrRangeMap V).Fresh := fun c hc => by cases hc
  rw [runSteps_prefix_iff_of_allowed (fun _ _ _ hs (_ : True) h => step_fresh_iff hs h) hempty
    fun _ _ _ _ _ => trivial]
  constructor
  · intro hall pre p q s hpre hrun its hits
    exact hall pre _ s _ hpre hrun (by simp only [step, eraseRange, hits]; rfl) its hits
  · intro hall pre op s s' hpre hrun _
    cases op with
    | eraseRange p q => exact hall pre p q s hpre hrun
    | _ => trivial

/-- Two entries, a lookup of the second one, and `erase(begin(), end())`: the
cache still holds the second one. -/
theorem eraseRange_leaves_stale : ∃ s : AddrRangeMap Unit,
      runSteps (step 1) empty [.insert (.ofBounds 0 16) (), .insert (.ofBounds 16 32) (),
        .contains (.ofBounds 16 17), .eraseRange (some 0) none] = some s ∧ ¬ s.Fresh :=
  ⟨⟨[], [1], 2⟩, by decide +kernel, by decide⟩

end AddrRangeMap
