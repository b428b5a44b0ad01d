/-
# The store set predictor

`cpu/o3/store_set.cc`.  A table over the PCs (SSIT) says in which store set an instruction
is, a second table (LFST) names the last store that was fetched in each set; `storeList`
has the stores in flight, youngest first.  `checkInst` predicts that an instruction depends
on the last store of its set.

The predictor is observed together with the stores that were inserted and have since
neither been issued nor squashed.  A violation may move a PC to another set in between, and
`issued` looks only at the set the PC is in by then.
-/
import Gem5.Bitfield
import Gem5.Run

open Function List Option

namespace StoreSet

structure Params where
  clearPeriod : ℕ
  ssitSize : ℕ
  lfstSize : ℕ
  ssitSize_pos : 0 < ssitSize
  lfstSize_pos : 0 < lfstSize

/-- `offsetBits` is 2. -/
def calcIndex (P : Params) (pc : Addr) : ℕ :=
  ((pc >>> 2) &&& BitVec.ofNat 64 (P.ssitSize - 1)).toNat

def calcSSID (P : Params) (pc : Addr) : ℕ := (pc ^^^ (pc >>> 10)).toNat % P.lfstSize

end StoreSet

structure StoreSet where
  ssit : ℕ → ℕ
  validSSIT : ℕ → Bool
  lfst : ℕ → ℕ
  validLFST : ℕ → Bool
  storeList : List (ℕ × ℕ)
  /-- An `int`; it stays at most `clearPeriod`, which is 250000 by default. -/
  memOpsPred : ℕ

namespace StoreSet

def init : StoreSet where
  ssit := fun _ => 0
  validSSIT := fun _ => false
  lfst := fun _ => 0
  validLFST := fun _ => false
  storeList := []
  memOpsPred := 0

def setSSIT (index ssid : ℕ) (s : StoreSet) : StoreSet :=
  { s with
    ssit := update s.ssit index ssid
    validSSIT := update s.validSSIT index true }

variable (P : Params)

/-- `none` where an assertion fails. -/
def violation (storePC loadPC : Addr) (s : StoreSet) : Option StoreSet :=
  let loadIndex := calcIndex P loadPC
  let storeIndex := calcIndex P storePC
  if ¬ (loadIndex < P.ssitSize ∧ storeIndex < P.ssitSize) then none
  else
    match s.validSSIT loadIndex, s.validSSIT storeIndex with
    | false, false =>
      let newSet := calcSSID P loadPC
      if newSet < P.lfstSize then
        some ((s.setSSIT loadIndex newSet).setSSIT storeIndex newSet)
      else none
    | true, false =>
      let loadSSID := s.ssit loadIndex
      if loadSSID < P.lfstSize then some (s.setSSIT storeIndex loadSSID) else none
    | false, true => some (s.setSSIT loadIndex (s.ssit storeIndex))
    | true, true =>
      let loadSSID := s.ssit loadIndex
      let storeSSID := s.ssit storeIndex
      if loadSSID < P.lfstSize ∧ storeSSID < P.lfstSize then
        -- the store set with the lower number wins
        if loadSSID < storeSSID then some (s.setSSIT storeIndex loadSSID)
        else some (s.setSSIT loadIndex storeSSID)
      else none

variable (s : StoreSet)

def clear : StoreSet :=
  { s with validSSIT := fun _ => false, validLFST := fun _ => false, storeList := [] }

def checkClear : StoreSet :=
  if P.clearPeriod < s.memOpsPred + 1 then clear { s with memOpsPred := 0 }
  else { s with memOpsPred := s.memOpsPred + 1 }

def insertLoad : StoreSet := s.checkClear P

/-- `storeList[seqNum] = ssid`; the map is ordered by falling sequence numbers. -/
def setStore (seqNum ssid : ℕ) : List (ℕ × ℕ) → List (ℕ × ℕ)
  | [] => [(seqNum, ssid)]
  | x :: l =>
    if x.1 < seqNum then (seqNum, ssid) :: x :: l
    else if x.1 = seqNum then (seqNum, ssid) :: l
    else x :: setStore seqNum ssid l

def insertStore (storePC : Addr) (seqNum : ℕ) (s : StoreSet) : Option StoreSet :=
  let index := calcIndex P storePC
  let s := s.checkClear P
  if ¬ index < P.ssitSize then none
  else if s.validSSIT index then
    let storeSSID := s.ssit index
    if storeSSID < P.lfstSize then
      some
        { s with
          lfst := update s.lfst storeSSID seqNum
          validLFST := update s.validLFST storeSSID true
          storeList := setStore seqNum storeSSID s.storeList }
    else none
  else some s

/-- The store an instruction is predicted to depend on, 0 for none. -/
def checkInst (pc : Addr) (s : StoreSet) : Option ℕ :=
  let index := calcIndex P pc
  if ¬ index < P.ssitSize then none
  else if s.validSSIT index then
    let instSSID := s.ssit index
    if instSSID < P.lfstSize then
      some (if s.validLFST instSSID then s.lfst instSSID else 0)
    else none
  else some 0

def issued (issuedPC : Addr) (seqNum : ℕ) (isStore : Bool) (s : StoreSet) : Option StoreSet :=
  if isStore then
    let index := calcIndex P issuedPC
    if ¬ index < P.ssitSize then none
    else
      let s := { s with storeList := s.storeList.filter fun x => x.1 ≠ seqNum }
      if s.validSSIT index then
        let storeSSID := s.ssit index
        if storeSSID < P.lfstSize then
          if s.validLFST storeSSID && s.lfst storeSSID == seqNum then
            some { s with validLFST := update s.validLFST storeSSID false }
          else some s
        else none
      else some s
  else some s

/-- The loop of `squash`; `none` where it does not go on to the next store. -/
def squashLoop (lfst : ℕ → ℕ) (squashedNum : ℕ) :
    List (ℕ × ℕ) → (ℕ → Bool) → Option (List (ℕ × ℕ) × (ℕ → Bool))
  | [], validLFST => some ([], validLFST)
  | (seqNum, idx) :: l, validLFST =>
    if seqNum ≤ squashedNum then some ((seqNum, idx) :: l, validLFST)
    else if squashedNum < lfst idx then
      squashLoop lfst squashedNum l
        (if validLFST idx then update validLFST idx false else validLFST)
    else none

def squash (squashedNum : ℕ) (s : StoreSet) : Option StoreSet :=
  (squashLoop s.lfst squashedNum s.storeList s.validLFST).map fun result =>
    { s with storeList := result.1, validLFST := result.2 }

/-! ## Runs -/

inductive Action
  | insertStore (storePC : Addr) (seqNum tid : ℕ)
  | insertLoad (loadPC : Addr) (seqNum : ℕ)
  | checkInst (pc : Addr)
  | issued (pc : Addr) (seqNum : ℕ) (isStore : Bool)
  | violation (storePC loadPC : Addr)
  | squash (squashedNum tid : ℕ)

def step : Action → Option StoreSet
  | .insertStore pc seqNum _ => s.insertStore P pc seqNum
  | .insertLoad _ _ => some (s.insertLoad P)
  | .checkInst pc => (s.checkInst P pc).map fun _ => s
  | .issued pc seqNum isStore => s.issued P pc seqNum isStore
  | .violation storePC loadPC => s.violation P storePC loadPC
  | .squash squashedNum _ => s.squash squashedNum

/-- The predictor, the stores that were inserted with their PCs, and those of them that are
neither issued nor squashed. -/
structure Observed where
  set : StoreSet
  inserted : List (Addr × ℕ)
  live : List ℕ

namespace Observed

def init : Observed := ⟨StoreSet.init, [], []⟩

def step (P : Params) (o : Observed) (a : Action) : Option Observed :=
  (o.set.step P a).map fun set =>
    match a with
    | .insertStore pc seqNum _ => ⟨set, (pc, seqNum) :: o.inserted, seqNum :: o.live⟩
    | .issued _ seqNum true => ⟨set, o.inserted, o.live.filter (· ≠ seqNum)⟩
    | .squash squashedNum _ => ⟨set, o.inserted, o.live.filter (· ≤ squashedNum)⟩
    | _ => ⟨set, o.inserted, o.live⟩

/-- Stores are inserted with increasing sequence numbers and issued with their own. -/
def Usage (o : Observed) : Action → Prop
  | .insertStore _ seqNum _ => ∀ x ∈ o.inserted, x.2 < seqNum
  | .issued pc seqNum true => (pc, seqNum) ∈ o.inserted
  | _ => True

/-- The entry of a PC is held by the last store of its set if that was inserted through it. -/
def Held (P : Params) (o : Observed) (index : ℕ) : Prop :=
  o.set.validLFST (o.set.ssit index) = true ∧
    ∃ x ∈ o.inserted, calcIndex P x.1 = index ∧ x.2 = o.set.lfst (o.set.ssit index)

/-- No violation moves an entry that is held to another set. -/
def MovesNoHeld (P : Params) (o : Observed) : Action → Prop
  | .violation storePC loadPC =>
    o.set.validSSIT (calcIndex P loadPC) = true → o.set.validSSIT (calcIndex P storePC) = true →
      (o.set.ssit (calcIndex P loadPC) < o.set.ssit (calcIndex P storePC) →
        ¬ Held P o (calcIndex P storePC)) ∧
      (o.set.ssit (calcIndex P storePC) < o.set.ssit (calcIndex P loadPC) →
        ¬ Held P o (calcIndex P loadPC))
  | _ => True

instance (o : Observed) : DecidablePred o.Usage
  | .insertStore _ seqNum _ => inferInstanceAs (Decidable (∀ x ∈ o.inserted, x.2 < seqNum))
  | .issued pc seqNum true => inferInstanceAs (Decidable ((pc, seqNum) ∈ o.inserted))
  | .issued _ _ false => isTrue trivial
  | .insertLoad _ _ => isTrue trivial
  | .checkInst _ => isTrue trivial
  | .violation _ _ => isTrue trivial
  | .squash _ _ => isTrue trivial

instance (P : Params) (o : Observed) (index : ℕ) : Decidable (Held P o index) :=
  inferInstanceAs (Decidable (_ ∧ _))

instance (P : Params) (o : Observed) : DecidablePred (o.MovesNoHeld P)
  | .violation _ _ => inferInstanceAs (Decidable (_ → _ → _ ∧ _))
  | .insertStore _ _ _ => isTrue trivial
  | .issued _ _ _ => isTrue trivial
  | .insertLoad _ _ => isTrue trivial
  | .checkInst _ => isTrue trivial
  | .squash _ _ => isTrue trivial

end Observed

/-! ## The invariant -/

theorem calcIndex_lt (pc : Addr) : calcIndex P pc < P.ssitSize := by
  have hle : calcIndex P pc ≤ P.ssitSize - 1 := by
    exact Nat.and_le_right.trans (Nat.mod_le _ _)
  have hpos := P.ssitSize_pos
  omega

theorem calcSSID_lt (pc : Addr) : calcSSID P pc < P.lfstSize :=
  Nat.mod_lt _ P.lfstSize_pos

/-- The last store of a set with a valid entry is live, listed, and was inserted through a
PC that is in the set. -/
structure Tracked (P : Params) (o : Observed) (ssid : ℕ) : Prop where
  live : o.set.lfst ssid ∈ o.live
  listed : (o.set.lfst ssid, ssid) ∈ o.set.storeList
  holder : ∃ pc, (pc, o.set.lfst ssid) ∈ o.inserted ∧ o.set.validSSIT (calcIndex P pc) = true ∧
    o.set.ssit (calcIndex P pc) = ssid

/-- The stores are listed youngest first, and none is younger than the last one of its set. -/
structure Ordered (P : Params) (s : StoreSet) : Prop where
  ssid_lt : ∀ i, s.validSSIT i = true → s.ssit i < P.lfstSize
  sorted : s.storeList.Pairwise fun x y => y.1 < x.1
  le_lfst : ∀ x ∈ s.storeList, x.1 ≤ s.lfst x.2

structure Inv (P : Params) (o : Observed) : Prop where
  ssid_lt : ∀ i, o.set.validSSIT i = true → o.set.ssit i < P.lfstSize
  sorted : o.set.storeList.Pairwise fun x y => y.1 < x.1
  le_lfst : ∀ x ∈ o.set.storeList, x.1 ≤ o.set.lfst x.2
  listed : ∀ x ∈ o.set.storeList, ∃ pc, (pc, x.1) ∈ o.inserted
  unique : ∀ pc pc' seqNum, (pc, seqNum) ∈ o.inserted → (pc', seqNum) ∈ o.inserted → pc = pc'
  tracked : ∀ ssid, o.set.validLFST ssid = true → Tracked P o ssid

section Steps

variable {P : Params} {s : StoreSet} {o : Observed} {seqNum : ℕ} {pc : Addr} {storePC loadPC : Addr}

theorem Inv.ordered (h : Inv P o) : Ordered P o.set := ⟨h.ssid_lt, h.sorted, h.le_lfst⟩

theorem inv_init : Inv P Observed.init where
  ssid_lt := by simp [Observed.init, init]
  sorted := .nil
  le_lfst := by simp [Observed.init, init]
  listed := by simp [Observed.init, init]
  unique := by simp [Observed.init]
  tracked := by simp [Observed.init, init]

variable {l : List (ℕ × ℕ)} {index ssid : ℕ}

/-- A store with a new sequence number becomes the first of the list. -/
theorem setStore_eq_cons {seqNum ssid : ℕ} (h : ∀ x ∈ l, x.1 < seqNum) :
    setStore seqNum ssid l = (seqNum, ssid) :: l := by
  cases l with
  | nil => rfl
  | cons x l => rw [setStore, if_pos (h x mem_cons_self)]

/-- The last store of a set. -/
def setLast (ssid seqNum : ℕ) (s : StoreSet) : StoreSet :=
  { s with
    lfst := update s.lfst ssid seqNum
    validLFST := update s.validLFST ssid true
    storeList := setStore seqNum ssid s.storeList }

namespace Ordered

variable (h : Ordered P s)

include h

theorem checkClear : Ordered P (s.checkClear P) ∧
    ∀ x ∈ (s.checkClear P).storeList, x ∈ s.storeList := by
  unfold StoreSet.checkClear
  split
  · exact ⟨⟨by simp [clear], .nil, by simp [clear]⟩, by simp [clear]⟩
  · exact ⟨⟨h.ssid_lt, h.sorted, h.le_lfst⟩, fun _ => id⟩

theorem setLast (ssid : ℕ) (hyoung : ∀ x ∈ s.storeList, x.1 < seqNum) :
    Ordered P (s.setLast ssid seqNum) := by
  unfold StoreSet.setLast
  rw [setStore_eq_cons hyoung]
  refine ⟨h.ssid_lt, pairwise_cons.mpr ⟨hyoung, h.sorted⟩, forall_mem_cons.mpr ⟨?_, ?_⟩⟩
  · simp
  · intro x hx
    by_cases hset : x.2 = ssid
    · simpa only [hset, update_self] using (hyoung x hx).le
    · simpa only [update_of_ne hset] using h.le_lfst x hx

/-- Stores leave. -/
theorem keep (p : ℕ → Bool) (validLFST : ℕ → Bool) :
    Ordered P { s with storeList := s.storeList.filter fun x => p x.1, validLFST } :=
  ⟨h.ssid_lt, h.sorted.sublist filter_sublist, fun x hx => h.le_lfst x (mem_of_mem_filter hx)⟩

theorem setSSIT (hlt : ssid < P.lfstSize) : Ordered P (s.setSSIT index ssid) := by
  refine ⟨?_, h.sorted, h.le_lfst⟩
  intro i hi
  by_cases heq : i = index
  · rw [heq]
    simpa [StoreSet.setSSIT] using hlt
  · simp only [StoreSet.setSSIT, update_of_ne heq] at hi ⊢
    exact h.ssid_lt i hi

theorem insertStore (pc : Addr) (seqNum : ℕ) : s.insertStore P pc seqNum = some
    (if (s.checkClear P).validSSIT (calcIndex P pc) = true
      then (s.checkClear P).setLast ((s.checkClear P).ssit (calcIndex P pc)) seqNum
      else s.checkClear P) := by
  unfold StoreSet.insertStore
  simp only [calcIndex_lt, not_true_eq_false, if_false]
  by_cases hvalid : (s.checkClear P).validSSIT (calcIndex P pc) = true
  · rw [if_pos hvalid, if_pos hvalid, if_pos (h.checkClear.1.ssid_lt _ hvalid)]
    rfl
  · rw [if_neg hvalid, if_neg hvalid]

/-- The set of the PC has no last store any more, if it was the issued one. -/
theorem issued (pc : Addr) (seqNum : ℕ) : ∃ validLFST, s.issued P pc seqNum true =
      some { s with storeList := s.storeList.filter fun x => x.1 ≠ seqNum, validLFST } ∧
    ∀ ssid, validLFST ssid = true → s.validLFST ssid = true ∧
      ¬ (s.validSSIT (calcIndex P pc) = true ∧ s.ssit (calcIndex P pc) = ssid ∧
        s.lfst ssid = seqNum) := by
  unfold StoreSet.issued
  simp only [calcIndex_lt, not_true_eq_false, if_false, if_true]
  by_cases hvalid : s.validSSIT (calcIndex P pc) = true
  · rw [if_pos hvalid, if_pos (h.ssid_lt _ hvalid)]
    by_cases hlast : s.validLFST (s.ssit (calcIndex P pc)) = true ∧
        s.lfst (s.ssit (calcIndex P pc)) = seqNum
    · rw [if_pos (by simp [hlast])]
      refine ⟨_, rfl, fun ssid hssid => ?_⟩
      by_cases heq : ssid = s.ssit (calcIndex P pc)
      · rw [heq, update_self] at hssid
        cases hssid
      · rw [update_of_ne heq] at hssid
        exact ⟨hssid, fun hset => heq hset.2.1.symm⟩
    · rw [if_neg (by simpa using hlast)]
      refine ⟨_, rfl, fun ssid hssid => ⟨hssid, ?_⟩⟩
      rintro ⟨-, rfl, hseq⟩
      exact hlast ⟨hssid, hseq⟩
  · rw [if_neg hvalid]
    exact ⟨_, rfl, fun ssid hssid => ⟨hssid, fun hset => hvalid hset.1⟩⟩

theorem checkInst (pc : Addr) : ∃ seqNum, s.checkInst P pc = some seqNum ∧
    (seqNum = 0 ∨ ∃ ssid, s.validLFST ssid = true ∧ seqNum = s.lfst ssid) := by
  unfold StoreSet.checkInst
  simp only [calcIndex_lt]
  by_cases hvalid : s.validSSIT (calcIndex P pc) = true
  · rw [if_pos hvalid, if_pos (h.ssid_lt _ hvalid)]
    refine ⟨_, rfl, ?_⟩
    split
    · next hlast => exact .inr ⟨_, hlast, rfl⟩
    · exact .inl rfl
  · rw [if_neg hvalid]
    exact ⟨0, rfl, .inl rfl⟩

/-- What holds after a violation, if `I` is kept when a PC gets its old set, or one in place of
a set that it is `free` to leave. -/
theorem violation {I : StoreSet → Prop} (free : ℕ → Prop) (hI : I s)
    (hset : ∀ {s' index ssid}, I s' → ssid < P.lfstSize →
      (s'.validSSIT index = true → s'.ssit index = ssid ∨ s' = s ∧ free index) →
      I (s'.setSSIT index ssid))
    (hmoves : s.validSSIT (calcIndex P loadPC) = true → s.validSSIT (calcIndex P storePC) = true →
      (s.ssit (calcIndex P loadPC) < s.ssit (calcIndex P storePC) → free (calcIndex P storePC)) ∧
      (s.ssit (calcIndex P storePC) < s.ssit (calcIndex P loadPC) → free (calcIndex P loadPC))) :
    ∃ s', s.violation P storePC loadPC = some s' ∧ I s' := by
  unfold StoreSet.violation
  simp only [calcIndex_lt, and_self, not_true_eq_false, if_false, calcSSID_lt]
  cases hload : s.validSSIT (calcIndex P loadPC) <;>
    cases hstore : s.validSSIT (calcIndex P storePC)
  · refine ⟨_, rfl, hset (hset hI (calcSSID_lt P loadPC) ?_) (calcSSID_lt P loadPC) ?_⟩
    · simp [hload]
    · intro hvalid
      by_cases heq : calcIndex P storePC = calcIndex P loadPC
      · exact .inl (by simp [StoreSet.setSSIT, heq])
      · simp [StoreSet.setSSIT, update_of_ne heq, hstore] at hvalid
  · exact ⟨_, rfl, hset hI (h.ssid_lt _ hstore) (by simp [hload])⟩
  · exact ⟨_, by rw [if_pos (h.ssid_lt _ hload)], hset hI (h.ssid_lt _ hload) (by simp [hstore])⟩
  · obtain ⟨hmoveStore, hmoveLoad⟩ := hmoves hload hstore
    simp only [h.ssid_lt _ hload, h.ssid_lt _ hstore, and_self, if_true]
    split
    · next hlt =>
      exact ⟨_, rfl, hset hI (h.ssid_lt _ hload) fun _ => .inr ⟨rfl, hmoveStore hlt⟩⟩
    · next hnot =>
      refine ⟨_, rfl, hset hI (h.ssid_lt _ hstore) fun _ => ?_⟩
      rcases Nat.eq_or_lt_of_le (Nat.le_of_not_lt hnot) with heq | hlt
      · exact .inl heq.symm
      · exact .inr ⟨rfl, hmoveLoad hlt⟩

end Ordered

/-- Counting down to the next clear. -/
theorem Inv.checkClear (h : Inv P o) : Inv P { o with set := o.set.checkClear P } := by
  obtain ⟨⟨hlt, hsorted, hle⟩, hsub⟩ := h.ordered.checkClear
  refine ⟨hlt, hsorted, hle, fun x hx => h.listed x (hsub x hx), h.unique, ?_⟩
  unfold StoreSet.checkClear
  split
  · simp [clear]
  · intro ssid hssid
    have ht := h.tracked ssid hssid
    exact ⟨ht.live, ht.listed, ht.holder⟩

/-- Another store is inserted. -/
theorem Inv.insert (h : Inv P o) (hnew : ∀ x ∈ o.inserted, x.2 < seqNum) :
    Inv P ⟨o.set, (pc, seqNum) :: o.inserted, seqNum :: o.live⟩ where
  ssid_lt := h.ssid_lt
  sorted := h.sorted
  le_lfst := h.le_lfst
  listed := fun x hx => (h.listed x hx).imp fun _ => mem_cons_of_mem _
  unique := by
    intro pc1 pc2 n h1 h2
    rw [mem_cons, Prod.mk.injEq] at h1 h2
    rcases h1 with ⟨rfl, rfl⟩ | h1 <;> rcases h2 with ⟨rfl, h2⟩ | h2
    · rfl
    · exact absurd (hnew _ h2) (lt_irrefl _)
    · exact absurd (hnew _ h1) (by rw [h2]; exact lt_irrefl _)
    · exact h.unique pc1 pc2 n h1 h2
  tracked := by
    intro ssid hssid
    obtain ⟨hlive, hlisted, pc', hpc', hvalid, heq⟩ := h.tracked ssid hssid
    exact ⟨mem_cons_of_mem _ hlive, hlisted, pc', mem_cons_of_mem _ hpc', hvalid, heq⟩

/-- The youngest store becomes the last one of the set of its PC. -/
theorem Inv.setLast (h : Inv P o) (hin : (pc, seqNum) ∈ o.inserted) (hlive : seqNum ∈ o.live)
    (hvalid : o.set.validSSIT (calcIndex P pc) = true)
    (hyoung : ∀ x ∈ o.set.storeList, x.1 < seqNum) :
    Inv P { o with set := o.set.setLast (o.set.ssit (calcIndex P pc)) seqNum } := by
  obtain ⟨hlt, hsorted, hle⟩ := h.ordered.setLast (o.set.ssit (calcIndex P pc)) hyoung
  unfold StoreSet.setLast at *
  rw [setStore_eq_cons hyoung] at *
  refine ⟨hlt, hsorted, hle, forall_mem_cons.mpr ⟨⟨pc, hin⟩, h.listed⟩, h.unique, ?_⟩
  · intro ssid hssid
    by_cases hset : ssid = o.set.ssit (calcIndex P pc)
    · refine ⟨?_, ?_, pc, ?_, hvalid, hset.symm⟩ <;>
        simp [hset, hin, hlive]
    · simp only [update_of_ne hset] at hssid
      have ht := h.tracked ssid hssid
      refine ⟨?_, ?_, ?_⟩ <;> simp only [update_of_ne hset]
      · exact ht.live
      · exact mem_cons_of_mem _ ht.listed
      · exact ht.holder

theorem Inv.insertStore (h : Inv P o) (hnew : ∀ x ∈ o.inserted, x.2 < seqNum) :
    ∃ set, o.set.insertStore P pc seqNum = some set ∧
      Inv P ⟨set, (pc, seqNum) :: o.inserted, seqNum :: o.live⟩ := by
  have hinv : Inv P ⟨o.set.checkClear P, (pc, seqNum) :: o.inserted, seqNum :: o.live⟩ :=
    h.checkClear.insert hnew
  have hyoung : ∀ x ∈ (o.set.checkClear P).storeList, x.1 < seqNum := by
    intro x hx
    obtain ⟨pc', hpc'⟩ := h.checkClear.listed x hx
    exact hnew _ hpc'
  refine ⟨_, h.ordered.insertStore pc seqNum, ?_⟩
  split
  · next hvalid => exact hinv.setLast mem_cons_self mem_cons_self hvalid hyoung
  · exact hinv

/-- Stores leave, and the sets whose last store leaves have none. -/
theorem Inv.keep (h : Inv P o) (p : ℕ → Bool) {validLFST : ℕ → Bool}
    (hvalid : ∀ ssid, validLFST ssid = true →
      o.set.validLFST ssid = true ∧ p (o.set.lfst ssid) = true) :
    Inv P ⟨{ o.set with storeList := o.set.storeList.filter fun x => p x.1, validLFST },
      o.inserted, o.live.filter p⟩ := by
  obtain ⟨hlt, hsorted, hle⟩ := h.ordered.keep p validLFST
  refine ⟨hlt, hsorted, hle, fun x hx => h.listed x (mem_of_mem_filter hx), h.unique, ?_⟩
  · intro ssid hssid
    obtain ⟨hssid', hp⟩ := hvalid ssid hssid
    have ht := h.tracked ssid hssid'
    exact ⟨mem_filter.mpr ⟨ht.live, hp⟩, mem_filter.mpr ⟨ht.listed, hp⟩, ht.holder⟩

/-- An issued store is found through its own PC. -/
theorem Inv.issued (h : Inv P o) (hown : (pc, seqNum) ∈ o.inserted) :
    ∃ set, o.set.issued P pc seqNum true = some set ∧
      Inv P ⟨set, o.inserted, o.live.filter (· ≠ seqNum)⟩ := by
  obtain ⟨validLFST, hset, hvalid⟩ := h.ordered.issued pc seqNum
  refine ⟨_, hset, h.keep (· ≠ seqNum) fun ssid hssid => ?_⟩
  obtain ⟨hold, hnot⟩ := hvalid ssid hssid
  refine ⟨hold, decide_eq_true fun heq => hnot ?_⟩
  -- a set whose last store this is can only be the set of the PC
  obtain ⟨pc', hpc', hin⟩ := (h.tracked ssid hold).holder
  rw [heq] at hpc'
  rw [h.unique pc pc' seqNum hown hpc']
  exact ⟨hin.1, hin.2, heq⟩

/-- The loop ends and clears the sets of the stores it takes from the list. -/
theorem squashLoop_spec {lfst : ℕ → ℕ} (squashedNum : ℕ)
    (validLFST : ℕ → Bool) (hsorted : l.Pairwise fun x y => y.1 < x.1)
    (hle : ∀ x ∈ l, x.1 ≤ lfst x.2) : ∃ validLFST', squashLoop lfst squashedNum l validLFST =
        some (l.filter (·.1 ≤ squashedNum), validLFST') ∧ ∀ ssid, validLFST' ssid = true ↔
        validLFST ssid = true ∧ ∀ x ∈ l, squashedNum < x.1 → x.2 ≠ ssid := by
  induction l generalizing validLFST with
  | nil => exact ⟨validLFST, rfl, by simp⟩
  | cons x l ih =>
    rw [pairwise_cons] at hsorted
    by_cases hx : x.1 ≤ squashedNum
    · have hall : ∀ y ∈ x :: l, y.1 ≤ squashedNum := by
        intro y hy
        rcases mem_cons.mp hy with rfl | hy
        · exact hx
        · exact (hsorted.1 y hy).le.trans hx
      refine ⟨validLFST, ?_, ?_⟩
      · rw [squashLoop, if_pos hx, filter_eq_self.mpr fun y hy => decide_eq_true (hall y hy)]
      · intro ssid
        refine ⟨fun hssid => ⟨hssid, fun y hy hlt => ?_⟩, And.left⟩
        exact absurd (hall y hy) (Nat.not_le.mpr hlt)
    · have hlfst : squashedNum < lfst x.2 :=
        (Nat.not_le.mp hx).trans_le (hle x mem_cons_self)
      obtain ⟨validLFST', hloop, hvalid⟩ := ih
        (if validLFST x.2 then update validLFST x.2 false else validLFST) hsorted.2
        fun y hy => hle y (mem_cons_of_mem _ hy)
      refine ⟨validLFST', ?_, ?_⟩
      · rw [squashLoop, if_neg hx, if_pos hlfst, hloop, filter_cons_of_neg (by simpa using hx)]
      · intro ssid
        have hupdate : (if validLFST x.2 then update validLFST x.2 false else validLFST)
            ssid = true ↔ validLFST ssid = true ∧ x.2 ≠ ssid := by
          by_cases hssid : ssid = x.2
          · split <;> simp_all
          · have hne : x.2 ≠ ssid := Ne.symm hssid
            split <;> simp [update_of_ne hssid, hne]
        rw [hvalid ssid, hupdate, forall_mem_cons]
        constructor
        · rintro ⟨⟨hssid, hne⟩, hall⟩
          exact ⟨hssid, fun _ => hne, hall⟩
        · rintro ⟨hssid, hne, hall⟩
          exact ⟨⟨hssid, hne (Nat.not_le.mp hx)⟩, hall⟩

theorem Inv.squash (h : Inv P o) (squashedNum : ℕ) : ∃ set, o.set.squash squashedNum = some set ∧
      Inv P ⟨set, o.inserted, o.live.filter (· ≤ squashedNum)⟩ := by
  obtain ⟨validLFST, hloop, hvalid⟩ := squashLoop_spec squashedNum o.set.validLFST h.sorted
    h.le_lfst
  refine ⟨_, by rw [StoreSet.squash, hloop, map_some],
    h.keep (· ≤ squashedNum) fun ssid hssid => ?_⟩
  obtain ⟨hvalid', hkept⟩ := (hvalid ssid).mp hssid
  exact ⟨hvalid', decide_eq_true (Nat.le_of_not_lt fun hlt =>
    hkept _ (h.tracked ssid hvalid').listed hlt rfl)⟩

/-- A PC gets a set: its old one, or its entry was not held. -/
theorem Inv.setSSIT (h : Inv P o) (hlt : ssid < P.lfstSize)
    (hfree : o.set.validSSIT index = true → o.set.ssit index = ssid ∨ ¬ Observed.Held P o index) :
    Inv P { o with set := o.set.setSSIT index ssid } := by
  refine ⟨(h.ordered.setSSIT hlt).ssid_lt, h.sorted, h.le_lfst, h.listed, h.unique, ?_⟩
  · intro ssid' hssid'
    have ht := h.tracked ssid' hssid'
    obtain ⟨pc, hpc, hvalid, hin⟩ := ht.holder
    refine ⟨ht.live, ht.listed, pc, hpc, ?_⟩
    by_cases heq : calcIndex P pc = index
    · rw [heq] at hvalid hin
      simp only [StoreSet.setSSIT, heq, update_self, true_and]
      rcases hfree hvalid with hsame | hnot
      · rw [← hsame, hin]
      · refine absurd ⟨?_, (pc, o.set.lfst ssid'), hpc, heq, ?_⟩ hnot
        · rw [hin]
          exact hssid'
        · rw [hin]
    · simp only [StoreSet.setSSIT, update_of_ne heq]
      exact ⟨hvalid, hin⟩

theorem Inv.violation (h : Inv P o) (hmoves : o.MovesNoHeld P (.violation storePC loadPC)) :
    ∃ set, o.set.violation P storePC loadPC = some set ∧ Inv P { o with set := set } := by
  refine h.ordered.violation (fun i => ¬ Observed.Held P o i) h ?_ hmoves
  intro set index ssid hinv hlt hfree
  refine hinv.setSSIT hlt fun hvalid => (hfree hvalid).imp_right ?_
  rintro ⟨rfl, hnot⟩
  exact hnot

theorem Inv.checkInst (h : Inv P o) (pc : Addr) :
    ∃ seqNum, o.set.checkInst P pc = some seqNum ∧ (seqNum = 0 ∨ seqNum ∈ o.live) := by
  obtain ⟨seqNum, hcheck, hnone | ⟨ssid, hvalid, rfl⟩⟩ := h.ordered.checkInst pc
  · exact ⟨seqNum, hcheck, .inl hnone⟩
  · exact ⟨_, hcheck, .inr (h.tracked ssid hvalid).live⟩

theorem Inv.step (h : Inv P o) (a : Action) (husage : o.Usage a) (hmoves : o.MovesNoHeld P a) :
    ∃ o', o.step P a = some o' ∧ Inv P o' := by
  cases a with
  | insertStore pc seqNum tid =>
    obtain ⟨set, hset, hinv⟩ := h.insertStore husage
    exact ⟨_, by rw [Observed.step, StoreSet.step, hset, map_some], hinv⟩
  | insertLoad pc seqNum => exact ⟨_, rfl, h.checkClear⟩
  | checkInst pc =>
    obtain ⟨seqNum, hcheck, -⟩ := h.checkInst pc
    exact ⟨_, by rw [Observed.step, StoreSet.step, hcheck, map_some, map_some], h⟩
  | issued pc seqNum isStore =>
    cases isStore with
    | false => exact ⟨_, rfl, h⟩
    | true =>
      obtain ⟨set, hset, hinv⟩ := h.issued husage
      exact ⟨_, by rw [Observed.step, StoreSet.step, hset, map_some], hinv⟩
  | violation storePC loadPC =>
    obtain ⟨set, hset, hinv⟩ := h.violation hmoves
    exact ⟨_, by rw [Observed.step, StoreSet.step, hset, map_some], hinv⟩
  | squash squashedNum tid =>
    obtain ⟨set, hset, hinv⟩ := h.squash squashedNum
    exact ⟨_, by rw [Observed.step, StoreSet.step, hset, map_some], hinv⟩

end Steps

/-! ## Predictions -/

/-- In every run that moves no held entry, a prediction is 0 or a store that has been
inserted and has since neither been issued nor squashed. -/
theorem checkInst_live {as : List Action}
    (h : AllowedSteps (Observed.step P) (fun o a => o.Usage a ∧ o.MovesNoHeld P a)
      Observed.init as) : ∃ o, runSteps (Observed.step P) Observed.init as = some o ∧
      ∀ pc, ∃ seqNum, o.set.checkInst P pc = some seqNum ∧ (seqNum = 0 ∨ seqNum ∈ o.live) := by
  obtain ⟨o, hrun, hinv⟩ := AllowedSteps.run
    (fun o a (ho : Inv P o) ha => ho.step a ha.1 ha.2) inv_init h
  exact ⟨o, hrun, hinv.checkInst⟩

/-- Tables of 16 entries. -/
def smallParams : Params := ⟨250000, 16, 16, by decide, by decide⟩

/-- A store through PC 4 is predicted for the load at PC 12 until it issues. -/
theorem checkInst_live_oneStore :
    ∃ o, runSteps (Observed.step smallParams) Observed.init
        [.violation 4 12, .insertStore 4 1 0] = some o ∧
      ∀ pc, ∃ seqNum, o.set.checkInst smallParams pc = some seqNum ∧
        (seqNum = 0 ∨ seqNum ∈ o.live) :=
  checkInst_live smallParams (by decide +kernel)

/-- The store of PC 4 is inserted in set 12, then a violation moves the PC to set 8; when
the store issues, set 12 keeps it. -/
def movedStore : List Action :=
  [.violation 4 12, .violation 16 8, .insertStore 4 1 0, .violation 4 8, .issued 4 1 true]

/-- The load at PC 12 is predicted to depend on a store that has issued. -/
theorem movedStore_not_live :
    AllowedSteps (Observed.step smallParams) Observed.Usage Observed.init movedStore ∧
    ∃ o, runSteps (Observed.step smallParams) Observed.init movedStore = some o ∧
      o.set.checkInst smallParams 12 = some 1 ∧ 1 ∉ o.live := by
  exact ⟨by decide +kernel, _, rfl, rfl, not_mem_nil⟩

/-! ## Squashes -/

/-- Stores are inserted with sequence numbers above the last one, and after a squash above the
squashed one. -/
def Rises (last : Option ℕ) : List Action → Prop
  | [] => True
  | .insertStore _ seqNum _ :: as => (∀ n ∈ last, n < seqNum) ∧ Rises (some seqNum) as
  | .squash squashedNum _ :: as => Rises (some squashedNum) as
  | _ :: as => Rises last as

theorem Ordered.squash {P : Params} {s : StoreSet} (h : Ordered P s) (squashedNum : ℕ) :
    ∃ s', s.squash squashedNum = some s' ∧ Ordered P s' ∧
      ∀ x ∈ s'.storeList, x.1 ≤ squashedNum := by
  obtain ⟨validLFST, hloop, -⟩ := squashLoop_spec squashedNum s.validLFST h.sorted h.le_lfst
  refine ⟨_, by rw [StoreSet.squash, hloop, map_some], h.keep (· ≤ squashedNum) _, ?_⟩
  exact fun x hx => of_decide_eq_true (mem_filter.mp hx).2

/-- In a run no step fails, and no listed store is above the last sequence number. -/
theorem Ordered.run {P : Params} {as : List Action} : ∀ {s : StoreSet} {last : Option ℕ},
    Rises last as → Ordered P s → (∀ x ∈ s.storeList, ∃ n ∈ last, x.1 ≤ n) →
    ∃ s', runSteps (step P) s as = some s' ∧ Ordered P s' := by
  induction as with
  | nil => exact fun _ h _ => ⟨_, rfl, h⟩
  | cons a as ih =>
    intro s last hrise h hlast
    obtain ⟨hclear, hsub⟩ := h.checkClear
    have hnext : ∀ {s1 last1}, s.step P a = some s1 → Rises last1 as → Ordered P s1 →
        (∀ x ∈ s1.storeList, ∃ n ∈ last1, x.1 ≤ n) →
        ∃ s', runSteps (step P) s (a :: as) = some s' ∧ Ordered P s' := by
      intro s1 last1 hstep hrise1 h1 hlast1
      rw [runSteps_cons, hstep]
      exact ih hrise1 h1 hlast1
    cases a with
    | insertStore pc seqNum tid =>
      have hyoung : ∀ x ∈ (s.checkClear P).storeList, x.1 < seqNum := by
        intro x hx
        obtain ⟨n, hn, hle⟩ := hlast x (hsub x hx)
        exact hle.trans_lt (hrise.1 n hn)
      have hle : ∀ x ∈ (s.checkClear P).storeList, ∃ n ∈ some seqNum, x.1 ≤ n :=
        fun x hx => ⟨_, rfl, (hyoung x hx).le⟩
      refine hnext (h.insertStore pc seqNum) hrise.2 ?_ ?_
      · split
        · exact hclear.setLast _ hyoung
        · exact hclear
      · split
        · unfold StoreSet.setLast
          rw [setStore_eq_cons hyoung]
          exact forall_mem_cons.mpr ⟨⟨_, rfl, le_rfl⟩, hle⟩
        · exact hle
    | insertLoad pc seqNum => exact hnext rfl hrise hclear fun x hx => hlast x (hsub x hx)
    | checkInst pc =>
      obtain ⟨seqNum, hcheck, -⟩ := h.checkInst pc
      exact hnext (by rw [step, hcheck, map_some]) hrise h hlast
    | issued pc seqNum isStore =>
      cases isStore with
      | false => exact hnext rfl hrise h hlast
      | true =>
        obtain ⟨validLFST, hset, -⟩ := h.issued pc seqNum
        exact hnext hset hrise (h.keep (· ≠ seqNum) validLFST) fun x hx =>
          hlast x (mem_of_mem_filter hx)
    | violation storePC loadPC =>
      obtain ⟨s1, hset, h1, hlast1⟩ := h.violation
        (I := fun s => Ordered P s ∧ ∀ x ∈ s.storeList, ∃ n ∈ last, x.1 ≤ n)
        (fun _ => True) ⟨h, hlast⟩ (fun hs hlt _ => ⟨hs.1.setSSIT hlt, hs.2⟩)
        fun _ _ => ⟨fun _ => trivial, fun _ => trivial⟩
      exact hnext hset hrise h1 hlast1
    | squash squashedNum tid =>
      obtain ⟨s1, hset, h1, hle⟩ := h.squash squashedNum
      exact hnext hset hrise h1 fun x hx => ⟨_, rfl, hle x hx⟩

/-- **Squashes end and are complete.**  In every run whose sequence numbers rise between
squashes and start above the squashed one, no step fails, and a squash leaves no store
above its number. -/
theorem squash_complete {as : List Action} (h : Rises none as) :
    ∃ s, runSteps (step P) init as = some s ∧ ∀ squashedNum,
      ∃ s', s.squash squashedNum = some s' ∧ ∀ x ∈ s'.storeList, x.1 ≤ squashedNum := by
  obtain ⟨s, hrun, hs⟩ := Ordered.run (s := init) h
    ⟨by simp [init], .nil, by simp [init]⟩ (by simp [init])
  exact ⟨s, hrun, fun squashedNum => (hs.squash squashedNum).imp fun _ h => ⟨h.1, h.2.2⟩⟩

/-- Store 5 is squashed, and store 4 comes after it. -/
theorem squash_complete_reused : ∃ s, runSteps (step smallParams) init
      [.violation 4 12, .insertStore 4 5 0, .squash 3 0, .insertStore 4 4 0] = some s ∧
    ∀ squashedNum, ∃ s', s.squash squashedNum = some s' ∧ ∀ x ∈ s'.storeList, x.1 ≤ squashedNum :=
  squash_complete smallParams (by simp [Rises])

end StoreSet
