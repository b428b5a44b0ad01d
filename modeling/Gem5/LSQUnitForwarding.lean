/-
# Store-to-load forwarding is exact

The search of `LSQUnit::read` stops at the youngest older store that overlaps the load
(`searchStores_exact`): it hands over the bytes the store writes if the store has all of
them, and makes the load wait otherwise.  Only without such a store does the load go to
memory.
-/
import Gem5.LSQUnit

open List Option

namespace LSQUnit

variable {u u' : LSQUnit} {request : Request} {outstanding : Bool} {loadIdx sqIt : ℕ}
  {outcome : Outcome}

/-- The loads the search is for: some bytes, and neither load-linked nor transactional. -/
structure PlainLoad (request : Request) (load : DynInst) : Prop where
  size : 0 < request.size
  notLLSC : request.isLLSC = false
  notHTM : request.isHTMCmd = false
  notTransactional : load.htmTransactionUid = none

/-! ## Forwarding -/

/-- The bytes that are copied are those the store writes at the addresses of the load. -/
theorem forward_exact {i : ℕ} (hyoungest : Youngest u request sqIt i)
    (hqualifies : Qualifies request (u.storeQueue i)) (hsize : 0 < request.size)
    (h : u.forward request outstanding loadIdx (u.storeQueue i) = some (outcome, u')) :
    Exact u request loadIdx sqIt outcome u' := by
  simp only [forward, ite_none_left_eq_some, some.injEq] at h
  obtain ⟨hbound, -, -, rfl, rfl⟩ := h
  refine .forward i hyoungest hqualifies _ _ ?_ (by simp [setEntry])
  obtain ⟨hlower, -⟩ := (covers_iff hsize).mp hqualifies.covers
  have hshift : (request.vaddr - (u.storeQueue i).instruction.effAddr).toNat =
      request.vaddr.toNat - (u.storeQueue i).instruction.effAddr.toNat :=
    BitVec.toNat_sub_of_le hlower
  simp only [SQEntry.byteAt]
  by_cases hzeros : (u.storeQueue i).isAllZeros
  · simp only [hzeros, if_true]
    rw [map_const', length_range]
  · simp only [hzeros, Bool.not_false, Bool.true_and, decide_eq_true_eq, hshift] at hbound ⊢
    apply ext_getElem
    · simp only [length_take, length_drop, length_map, length_range, Bool.false_eq_true, if_false]
      omega
    · intro k hk hk'
      rw [length_map, length_range] at hk'
      simp only [Bool.false_eq_true, if_false, getElem_take, getElem_drop,
        getElem_map, getElem_range]
      rw [getD_eq_getElem _ _ (by omega)]
      congr 1
      omega

/-! ## The search -/

theorem searchStores_exact (hload : PlainLoad request (u.loadQueue loadIdx).instruction)
    (hwrap : ∀ i, u.storeWBIt ≤ i → i < sqIt → NoWrap request (u.storeQueue i)) {n : ℕ}
    (hle : u.storeWBIt + n ≤ sqIt) (htop : ∀ j, u.storeWBIt + n ≤ j → ¬ Hit u request sqIt j)
    (h : searchStores request outstanding loadIdx u n = some (outcome, u')) :
    Exact u request loadIdx sqIt outcome u' := by
  induction n with
  | zero =>
    cases h
    refine .memory fun i hi => ?_
    exact htop i hi.inQueue hi
  | succ n ih =>
    have hpass : ¬ Hit u request sqIt (u.storeWBIt + n) →
        searchStores request outstanding loadIdx u n = some (outcome, u') →
          Exact u request loadIdx sqIt outcome u' :=
      fun hnot => ih (by omega) fun j hj =>
        (Nat.eq_or_lt_of_le hj).elim (fun heq => heq ▸ hnot) (htop j)
    rw [searchStores] at h
    simp only [ite_none_left_eq_some] at h
    obtain ⟨-, h⟩ := h
    by_cases hskip : (u.storeQueue (u.storeWBIt + n)).size ≠ 0 ∧
        (u.storeQueue (u.storeWBIt + n)).instruction.strictlyOrdered = false
    · rw [if_pos hskip, bind_eq_some_iff] at h
      obtain ⟨storeReq, hreq, h⟩ := h
      by_cases hmaintenance : storeReq.isCacheMaintenance = true
      · rw [if_pos hmaintenance] at h
        refine hpass (fun hhit => ?_) h
        have hnot := hhit.eligible.cacheMaintenance storeReq hreq
        rw [hmaintenance] at hnot
        cases hnot
      · rw [if_neg hmaintenance, ite_none_left_eq_some] at h
        obtain ⟨-, h⟩ := h
        have heligible : Eligible (u.storeQueue (u.storeWBIt + n)) := by
          refine ⟨hskip.1, hskip.2, ?_⟩
          rw [hreq]
          rintro _ ⟨⟩
          exact Bool.eq_false_iff.mpr hmaintenance
        have hyoungest : Overlaps request (u.storeQueue (u.storeWBIt + n)) →
            Youngest u request sqIt (u.storeWBIt + n) := fun hoverlaps =>
          ⟨⟨Nat.le_add_right _ _, by omega, heligible, hoverlaps⟩, fun j hj => htop j hj⟩
        obtain ⟨hfull, hpartial, hno⟩ := coverage_spec hload.size hload.notLLSC hskip.1 hreq
          (hwrap (u.storeWBIt + n) (Nat.le_add_right _ _) (by omega))
        split at h
        · next hcoverage =>
          obtain ⟨hoverlaps, hqualifies⟩ := hfull hcoverage
          exact forward_exact (hyoungest hoverlaps) hqualifies hload.size h
        · next hcoverage =>
          obtain ⟨hoverlaps, hnot⟩ := hpartial hcoverage
          rw [ite_none_left_eq_some, some.injEq] at h
          obtain ⟨-, rfl, rfl⟩ := h
          refine .reschedule _ (hyoungest hoverlaps) hnot _ ?_ (by simp [reschedule, setEntry])
          unfold stall
          split
          · rfl
          · next hstalled =>
            simp only [Bool.or_eq_true, Bool.not_eq_true', not_or, Bool.not_eq_false] at hstalled
            exact hstalled.1
        · next hcoverage => exact hpass (fun hhit => hno hcoverage hhit.overlaps) h
    · rw [if_neg hskip] at h
      exact hpass (fun hhit => hskip ⟨hhit.eligible.size, hhit.eligible.strictlyOrdered⟩) h

/-! ## The assertions -/

/-- What the queue promises of the stores that are searched: they are older than the load,
not completed, and once they have a size also a request, an address and their data. -/
structure Searchable (load : DynInst) (store : SQEntry) : Prop where
  valid : store.valid = true
  older : store.instruction.seqNum < load.seqNum
  notCompleted : store.completed = false
  request : store.size ≠ 0 → store.request.isSome
  address : store.size ≠ 0 → store.instruction.effAddrValid = true
  data : store.instruction.isAtomic = false → store.isAllZeros = true ∨
    store.size ≤ store.data.length

theorem searchStores_defined (hload : PlainLoad request (u.loadQueue loadIdx).instruction)
    (hwrap : ∀ i, u.storeWBIt ≤ i → i < sqIt → NoWrap request (u.storeQueue i))
    (hqueue : ∀ i, u.storeWBIt ≤ i → i < sqIt →
      Searchable (u.loadQueue loadIdx).instruction (u.storeQueue i)) {n : ℕ}
    (hle : u.storeWBIt + n ≤ sqIt) : (searchStores request outstanding loadIdx u n).isSome := by
  induction n with
  | zero => rfl
  | succ n ih =>
    have hrest := ih (by omega)
    have hstore := hqueue (u.storeWBIt + n) (Nat.le_add_right _ _) (by omega)
    rw [searchStores]
    simp only [hstore.valid, Bool.not_true, Bool.false_or, decide_eq_true_eq,
      if_neg (Nat.not_le.mpr hstore.older)]
    split
    · next hsize =>
      obtain ⟨storeReq, hreq⟩ := isSome_iff_exists.mp (hstore.request hsize.1)
      rw [hreq, bind_some]
      split
      · exact hrest
      · rw [hstore.address hsize.1]
        simp only [Bool.not_true, Bool.false_eq_true, if_false]
        split
        · next hcoverage =>
          have hspec := coverage_spec hload.size hload.notLLSC hsize.1 hreq
            (hwrap (u.storeWBIt + n) (Nat.le_add_right _ _) (by omega))
          obtain ⟨-, hqualifies⟩ := hspec.1 hcoverage
          obtain ⟨hlower, hupper⟩ := (covers_iff hload.size).mp hqualifies.covers
          have hshift : (request.vaddr - (u.storeQueue (u.storeWBIt + n)).instruction.effAddr).toNat
              = request.vaddr.toNat -
                (u.storeQueue (u.storeWBIt + n)).instruction.effAddr.toNat :=
            BitVec.toNat_sub_of_le hlower
          have hbound : ¬ (!(u.storeQueue (u.storeWBIt + n)).isAllZeros && decide
              ((u.storeQueue (u.storeWBIt + n)).data.length <
                (request.vaddr - (u.storeQueue (u.storeWBIt + n)).instruction.effAddr).toNat +
                  request.size)) = true := by
            rw [Bool.and_eq_true, Bool.not_eq_true', decide_eq_true_eq]
            rintro ⟨hzeros, hlt⟩
            rcases hstore.data hqualifies.notAtomic with hall | hlength
            · rw [hzeros] at hall
              cases hall
            · omega
          unfold forward
          simp only [if_neg hbound, hload.notHTM, hload.notTransactional]
          rfl
        · rw [hstore.notCompleted]
          rfl
        · exact hrest
    · exact hrest

/-! ## `read` -/

/-- The loads with which `read` gets to the stores: not held back by a strict order and no
local access. -/
structure Searches (u : LSQUnit) (request : Request) (loadIdx : ℕ) : Prop where
  plain : PlainLoad request (u.loadQueue loadIdx).instruction
  notLocal : request.isLocalAccess = false
  inOrder : request.isStrictlyOrdered = false ∨
    loadIdx = u.loadHead ∧ (u.loadQueue loadIdx).instruction.isAtCommit = true

/-- The queues once the request is in the entry of its load. -/
def withRequest (u : LSQUnit) (request : Request) (loadIdx : ℕ) : LSQUnit :=
  u.setEntry loadIdx ⟨(u.loadQueue loadIdx).instruction, some request⟩

theorem hit_withRequest {i : ℕ} :
    Hit (u.withRequest request loadIdx) request sqIt i ↔ Hit u request sqIt i :=
  ⟨fun h => ⟨h.inQueue, h.older, h.eligible, h.overlaps⟩,
    fun h => ⟨h.inQueue, h.older, h.eligible, h.overlaps⟩⟩

/-- A prefetch goes to memory, and for the others the stores are searched. -/
theorem read_eq_searchStores (hload : Searches u request loadIdx) :
    read request outstanding loadIdx u =
      if (u.loadQueue loadIdx).instruction.isExecuted then none
      else if (u.loadQueue loadIdx).instruction.sqIt < u.storeWBIt then none
      else if (u.loadQueue loadIdx).instruction.isDataPrefetch then
        some (.memory, u.withRequest request loadIdx)
      else searchStores request outstanding loadIdx (u.withRequest request loadIdx)
        ((u.loadQueue loadIdx).instruction.sqIt - u.storeWBIt) := by
  have horder : ¬ (request.isStrictlyOrdered && (decide (loadIdx ≠ u.loadHead) ||
      !(u.loadQueue loadIdx).instruction.isAtCommit)) = true := by
    rcases hload.inOrder with h | ⟨hhead, hcommit⟩
    · rw [h]
      exact Bool.false_ne_true
    · rw [hcommit, decide_eq_false (not_not.mpr hhead)]
      simp
  unfold read
  simp only [hload.notLocal]
  congr 1
  exact if_neg horder

/-- A load that `read` does not abort on is served exactly: by the youngest older store that
overlaps it if that has all its bytes, by waiting if it has only some, and by memory just
when there is no such store.  Where the queue keeps its promises `read` does not abort.  A
data prefetch goes to memory whatever the store queue holds. -/
theorem read_exact (hload : Searches u request loadIdx)
    (hwrap : ∀ i, u.storeWBIt ≤ i → i < (u.loadQueue loadIdx).instruction.sqIt →
      NoWrap request (u.storeQueue i)) :
    ((u.loadQueue loadIdx).instruction.isDataPrefetch = false →
      (∀ outcome u', read request outstanding loadIdx u = some (outcome, u') →
        Exact (u.withRequest request loadIdx) request loadIdx
            (u.loadQueue loadIdx).instruction.sqIt outcome u' ∧
          (outcome = .memory ↔ ∀ i, ¬ Hit u request (u.loadQueue loadIdx).instruction.sqIt i)) ∧
      ((u.loadQueue loadIdx).instruction.isExecuted = false →
        u.storeWBIt ≤ (u.loadQueue loadIdx).instruction.sqIt →
        (∀ i, u.storeWBIt ≤ i → i < (u.loadQueue loadIdx).instruction.sqIt →
          Searchable (u.loadQueue loadIdx).instruction (u.storeQueue i)) →
        (read request outstanding loadIdx u).isSome)) ∧
    ((u.loadQueue loadIdx).instruction.isDataPrefetch = true →
      (u.loadQueue loadIdx).instruction.isExecuted = false →
      u.storeWBIt ≤ (u.loadQueue loadIdx).instruction.sqIt →
      read request outstanding loadIdx u = some (.memory, u.withRequest request loadIdx)) := by
  have hinst : ((u.withRequest request loadIdx).loadQueue loadIdx).instruction =
      (u.loadQueue loadIdx).instruction := by
    simp [withRequest, setEntry]
  have hplain : PlainLoad request ((u.withRequest request loadIdx).loadQueue loadIdx).instruction := by
    rw [hinst]
    exact hload.plain
  rw [read_eq_searchStores hload]
  refine ⟨fun hprefetch => ⟨?_, ?_⟩, fun hprefetch hexecuted hle => ?_⟩
  · intro outcome u' h
    rw [hprefetch, ite_none_left_eq_some, ite_none_left_eq_some] at h
    obtain ⟨-, hle, h⟩ := h
    rw [Nat.not_lt] at hle
    have hexact := searchStores_exact hplain hwrap
      (Nat.add_sub_cancel' hle).le
      (fun j hj hhit => absurd hhit.older (Nat.not_lt.mpr ((Nat.add_sub_cancel' hle).ge.trans hj))) h
    refine ⟨hexact, ?_⟩
    cases hexact with
    | memory hnone => exact iff_of_true rfl fun i hi => hnone i (hit_withRequest.mpr hi)
    | forward i hyoungest | reschedule i hyoungest =>
      exact iff_of_false (by rintro ⟨⟩) fun hnone => hnone i (hit_withRequest.mp hyoungest.toHit)
  · intro hexecuted hle hqueue
    rw [hexecuted, hprefetch, if_neg (Nat.not_lt.mpr hle)]
    refine searchStores_defined hplain hwrap ?_ (Nat.add_sub_cancel' hle).le
    intro i hi hlt
    rw [hinst]
    exact hqueue i hi hlt
  · rw [hexecuted, hprefetch, if_neg (Nat.not_lt.mpr hle)]
    rfl

/-! ## Examples -/

/-- A load or store of no special kind. -/
def plainRequest (vaddr : Addr) (size : ℕ) : Request where
  vaddr := vaddr
  size := size
  isStrictlyOrdered := false
  isLLSC := false
  isLocalAccess := false
  isHTMCmd := false
  isCacheMaintenance := false
  byteEnable := List.replicate size true

def plainInst (seqNum : ℕ) (effAddr : Addr) (isDataPrefetch : Bool) (sqIt : ℕ) : DynInst where
  seqNum := seqNum
  effAddr := effAddr
  effAddrValid := true
  strictlyOrdered := false
  isAtomic := false
  isDataPrefetch := isDataPrefetch
  isExecuted := false
  isIssued := true
  isAtCommit := false
  htmTransactionUid := none
  memData := none
  sqIt := sqIt

/-- A store of the bytes 1 to 8 at `0x1000`, then a load behind it. -/
def oneStore (load : DynInst) : LSQUnit where
  storeQueue := fun _ =>
    { valid := true
      instruction := plainInst 1 0x1000 false 0
      request := some (plainRequest 0x1000 8)
      size := 8
      data := [1, 2, 3, 4, 5, 6, 7, 8]
      isAllZeros := false
      completed := false }
  storeWBIt := 0
  loadQueue := fun _ => ⟨load, none⟩
  loadHead := 0
  stalled := false
  stallingStoreIsn := 0
  stallingLoadIdx := 0

/-- A load of the last four bytes of the store. -/
theorem read_exact_lastBytes :
    ∃ u', read (plainRequest 0x1004 4) false 0 (oneStore (plainInst 2 0x1004 false 1)) =
        some (.forward [5, 6, 7, 8], u') ∧
      Exact ((oneStore (plainInst 2 0x1004 false 1)).withRequest (plainRequest 0x1004 4) 0)
        (plainRequest 0x1004 4) 0 1 (.forward [5, 6, 7, 8]) u' := by
  have hload : Searches (oneStore (plainInst 2 0x1004 false 1)) (plainRequest 0x1004 4) 0 :=
    ⟨⟨by decide, rfl, rfl, rfl⟩, rfl, .inl rfl⟩
  have hwrap : NoWrap (plainRequest 0x1004 4)
      ((oneStore (plainInst 2 0x1004 false 1)).storeQueue 0) := ⟨by decide, by decide⟩
  exact ⟨_, rfl, (((read_exact hload fun _ _ _ => hwrap).1 rfl).1 _ _ rfl).1⟩

/-- A data prefetch of the same bytes goes to memory although the store qualifies. -/
theorem prefetch_not_forwarded : PlainLoad (plainRequest 0x1004 4) (plainInst 2 0x1004 true 1) ∧
    Youngest (oneStore (plainInst 2 0x1004 true 1)) (plainRequest 0x1004 4) 1 0 ∧
    Qualifies (plainRequest 0x1004 4) ((oneStore (plainInst 2 0x1004 true 1)).storeQueue 0) ∧
    Searchable (plainInst 2 0x1004 true 1) ((oneStore (plainInst 2 0x1004 true 1)).storeQueue 0) ∧
    NoWrap (plainRequest 0x1004 4) ((oneStore (plainInst 2 0x1004 true 1)).storeQueue 0) ∧
    (read (plainRequest 0x1004 4) false 0 (oneStore (plainInst 2 0x1004 true 1))).map Prod.fst =
      some .memory := by
  have hcovers : ∀ a, (plainRequest 0x1004 4).Touches a →
      ((oneStore (plainInst 2 0x1004 true 1)).storeQueue 0).Touches a :=
    (covers_iff (by decide)).mpr ⟨by decide, by decide⟩
  refine ⟨⟨by decide, rfl, rfl, rfl⟩, ⟨⟨le_rfl, by decide, ⟨by decide, rfl, ?_⟩, ?_⟩, ?_⟩,
    ⟨rfl, ?_, hcovers⟩, ⟨rfl, by decide, rfl, fun _ => rfl, fun _ => rfl, fun _ => .inr (by decide)⟩,
    ⟨by decide, by decide⟩, by decide +kernel⟩
  · rintro _ ⟨⟩
    rfl
  · exact (overlaps_iff (by decide) (by decide)).mpr ⟨by decide, by decide⟩
  · intro j hj hhit
    exact absurd hhit.older (by omega)
  · rintro _ ⟨⟩
    rfl

end LSQUnit
