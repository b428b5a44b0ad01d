/-
# The loop predictor

`cpu/pred/loop_predictor.cc`.  An entry of the table counts the iterations of a loop, once for
the committed branches (`currentIter`) and once speculatively (`currentIterSpec`).  A
prediction looks for the tag of its branch in one set (`getLoop`) and moves the speculative
counter of the entry it hits (`specLoopUpdate`); a squash writes the `currentIter` of the
branch's record back to it.

The record is given its `currentIter` by the constructor only, so a squash writes 0.
-/
import Gem5.Bitfield

open Function

namespace LoopPredictor

structure Params where
  logSizeLoopPred : ℕ
  loopTableConfidenceBits : ℕ
  loopTableTagBits : ℕ
  loopTableIterBits : ℕ
  logLoopTableAssoc : ℕ
  instShiftAmt : ℕ
  useDirectionBit : Bool
  useSpeculation : Bool
  useHashing : Bool

structure LoopEntry where
  numIter : BitVec 16
  currentIter : BitVec 16
  currentIterSpec : BitVec 16
  confidence : BitVec 8
  tag : BitVec 16
  dir : Bool

structure BranchInfo where
  loopTag : BitVec 16
  currentIter : BitVec 16
  loopPred : Bool
  loopPredValid : Bool
  loopPredUsed : Bool
  loopIndex : ℕ
  loopIndexB : ℕ
  loopHit : ℤ

/-- The constructor; it leaves `loopPredUsed` uninitialised. -/
def makeBranchInfo : BranchInfo := ⟨0, 0, false, false, false, 0, 0, 0⟩

structure Table where
  ltable : ℕ → LoopEntry
  loopUseCounter : ℤ

variable (P : Params)

def Params.loopSetMask : Addr := mask (P.logSizeLoopPred - P.logLoopTableAssoc)

def lindex (pcIn : Addr) : ℕ :=
  let pc := pcIn >>> P.instShiftAmt
  let pc := if P.useHashing then pc ^^^ pcIn else pc
  ((pc &&& P.loopSetMask) <<< P.logLoopTableAssoc).toNat

def finallindex (index lowPcBits way : ℕ) : ℕ :=
  (if P.useHashing then index ^^^ ((lowPcBits >>> way) <<< P.logLoopTableAssoc) else index) + way

/-- The entry a record stands for, if its branch hit one. -/
def BranchInfo.entry (bi : BranchInfo) : Option ℕ :=
  if bi.loopHit ≥ 0 then some (finallindex P bi.loopIndex bi.loopIndexB bi.loopHit.toNat) else none

/-- The part of `getLoop` before the search. -/
def address (pc : Addr) (bi : BranchInfo) : BranchInfo :=
  let bi := { bi with loopHit := -1, loopPredValid := false, loopIndex := lindex P pc }
  if P.useHashing then
    let pcShift := P.logSizeLoopPred - P.logLoopTableAssoc
    { bi with
      loopIndexB := ((pc >>> pcShift) &&& P.loopSetMask).toNat
      loopTag := ((pc >>> pcShift) ^^^ (pc >>> (pcShift + P.loopTableTagBits))).setWidth 16 &&&
        (mask P.loopTableTagBits).setWidth 16 }
  else
    let pcShift := P.instShiftAmt + P.logSizeLoopPred - P.logLoopTableAssoc
    { bi with loopTag := ((pc >>> pcShift) &&& mask P.loopTableTagBits).setWidth 16 }

namespace Table

variable (t : Table)

/-- The way of the set that has the tag. -/
def findWay (bi : BranchInfo) : Option ℕ :=
  (List.range (2 ^ P.logLoopTableAssoc)).find? fun i =>
    (t.ltable (finallindex P bi.loopIndex bi.loopIndexB i)).tag == bi.loopTag

def calcConf (index : ℕ) : Bool :=
  (t.ltable index).confidence == BitVec.ofNat 8 (2 ^ P.loopTableConfidenceBits - 1)

def getLoop (pc : Addr) (bi : BranchInfo) (speculative : Bool) : BranchInfo × Bool :=
  let bi := address P pc bi
  match t.findWay P bi with
  | none => (bi, false)
  | some i =>
    let idx := finallindex P bi.loopIndex bi.loopIndexB i
    let e := t.ltable idx
    let iter := if speculative then e.currentIterSpec else e.currentIter
    ({ bi with loopHit := i, loopPredValid := t.calcConf P idx },
      if iter.toNat + 1 = e.numIter.toNat then (if P.useDirectionBit then !e.dir else false)
      else (if P.useDirectionBit then e.dir else true))

def setSpec (idx : ℕ) (iter : BitVec 16) : Table :=
  { t with ltable := update t.ltable idx { t.ltable idx with currentIterSpec := iter } }

def specLoopUpdate (taken : Bool) (bi : BranchInfo) : Table :=
  match bi.entry P with
  | none => t
  | some index =>
    if taken ≠ (t.ltable index).dir then t.setSpec index 0
    else t.setSpec index
      (((t.ltable index).currentIterSpec + 1) &&& (mask P.loopTableIterBits).setWidth 16)

/-- The table, the record and the direction after a prediction. -/
def loopPredict (branchPc : Addr) (condBranch : Bool) (bi : BranchInfo) (prevPredTaken : Bool) :
    Table × BranchInfo × Bool :=
  if condBranch then
    let (bi, loopPred) := t.getLoop P branchPc bi P.useSpeculation
    let used := decide (t.loopUseCounter ≥ 0) && bi.loopPredValid
    let predTaken := if used then loopPred else prevPredTaken
    let bi := { bi with loopPred, loopPredUsed := if used then true else bi.loopPredUsed }
    (if P.useSpeculation then t.specLoopUpdate P predTaken bi else t, bi, predTaken)
  else (t, bi, prevPredTaken)

/-- `squash`, and `squashLoop`, which has the same body. -/
def squash (bi : BranchInfo) : Table :=
  match bi.entry P with
  | none => t
  | some idx => t.setSpec idx bi.currentIter

end Table

/-! ## Predictions and their squash -/

/-- A call of `loopPredict` with a new record. -/
structure Call where
  branchPc : Addr
  condBranch : Bool
  prevPredTaken : Bool

variable {P} {t t' : Table}

/-- The record of a call. -/
def record (P : Params) (t : Table) (c : Call) : BranchInfo :=
  (t.loopPredict P c.branchPc c.condBranch makeBranchInfo c.prevPredTaken).2.1

/-- The entry that the prediction and the squash of a branch touch.  An unconditional branch
keeps the record of the constructor, which stands for the first entry. -/
def touched (P : Params) (t : Table) (c : Call) : Option ℕ := (record P t c).entry P

/-- The predictions in program order; the records are kept youngest first. -/
def predictAll (P : Params) (t : Table) : List Call → Table × List BranchInfo
  | [] => (t, [])
  | c :: cs =>
    let (t', records) := predictAll P
      (t.loopPredict P c.branchPc c.condBranch makeBranchInfo c.prevPredTaken).1 cs
    (t', records ++ [record P t c])

def squashAll (P : Params) (t : Table) (records : List BranchInfo) : Table :=
  records.foldl (fun t bi => t.squash P bi) t

def SameTags (t t' : Table) : Prop := ∀ idx, (t.ltable idx).tag = (t'.ltable idx).tag

theorem sameTags_setSpec (idx : ℕ) (iter : BitVec 16) : SameTags (t.setSpec idx iter) t := by
  intro j
  simp only [Table.setSpec, update_apply]
  split
  · subst j
    rfl
  · rfl

theorem sameTags_loopPredict (c : Call) :
    SameTags (t.loopPredict P c.branchPc c.condBranch makeBranchInfo c.prevPredTaken).1 t := by
  have hspec : ∀ taken bi, SameTags (t.specLoopUpdate P taken bi) t := by
    intro taken bi
    unfold Table.specLoopUpdate
    split
    · exact fun _ => rfl
    · split <;> exact sameTags_setSpec _ _
  unfold Table.loopPredict
  split
  · dsimp only
    split
    · exact hspec _ _
    · exact fun _ => rfl
  · exact fun _ => rfl

/-- A record saves no count, and its entry depends on the tags only. -/
theorem record_eq (c : Call) : (record P t c).currentIter = 0 ∧ touched P t c =
    if c.condBranch then (t.findWay P (address P c.branchPc makeBranchInfo)).map
      (finallindex P (address P c.branchPc makeBranchInfo).loopIndex
        (address P c.branchPc makeBranchInfo).loopIndexB)
    else some (finallindex P 0 0 0) := by
  have haddress : (address P c.branchPc makeBranchInfo).currentIter = 0 ∧
      (address P c.branchPc makeBranchInfo).loopHit = -1 := by
    unfold address
    split <;> exact ⟨rfl, rfl⟩
  unfold touched record Table.loopPredict
  cases c.condBranch with
  | false => exact ⟨rfl, rfl⟩
  | true =>
    cases hway : t.findWay P (address P c.branchPc makeBranchInfo) with
    | none => simp [Table.getLoop, hway, BranchInfo.entry, haddress]
    | some way => simp [Table.getLoop, hway, BranchInfo.entry, haddress]

theorem touched_congr (h : SameTags t t') (c : Call) : touched P t c = touched P t' c := by
  have hfind : ∀ bi, t.findWay P bi = t'.findWay P bi := by
    intro bi
    simp only [Table.findWay, h _]
  rw [(record_eq c).2, (record_eq c).2, hfind]

/-- **The predictions**: no record saves a count, and their entries can be read off the table
before the first one. -/
theorem predictAll_spec (cs : List Call) : (∀ bi ∈ (predictAll P t cs).2, bi.currentIter = 0) ∧
      ∀ idx, (∃ bi ∈ (predictAll P t cs).2, bi.entry P = some idx) ↔
        ∃ c ∈ cs, touched P t c = some idx := by
  induction cs generalizing t with
  | nil => simp [predictAll]
  | cons c cs ih =>
    have htouched := touched_congr (P := P) (sameTags_loopPredict (P := P) (t := t) c)
    obtain ⟨hzero, hentries⟩ :=
      ih (t := (t.loopPredict P c.branchPc c.condBranch makeBranchInfo c.prevPredTaken).1)
    simp only [htouched] at hentries
    refine ⟨fun bi hbi => ?_, fun idx => ?_⟩
    · rcases List.mem_append.mp hbi with hbi | hbi
      · exact hzero bi hbi
      · rw [List.mem_singleton.mp hbi]
        exact (record_eq c).1
    · simp [predictAll, hentries, touched, or_comm]

/-- **The squashes** write 0 to the entries of the records. -/
theorem squashAll_spec {records : List BranchInfo} (h : ∀ bi ∈ records, bi.currentIter = 0)
    (idx : ℕ) : ((squashAll P t records).ltable idx).currentIterSpec =
      if ∃ bi ∈ records, bi.entry P = some idx then 0 else (t.ltable idx).currentIterSpec := by
  induction records generalizing t with
  | nil => simp [squashAll]
  | cons bi records ih =>
    have hstep : ((t.squash P bi).ltable idx).currentIterSpec =
        if bi.entry P = some idx then 0 else (t.ltable idx).currentIterSpec := by
      unfold Table.squash
      cases bi.entry P with
      | none => simp
      | some j =>
        obtain rfl | hj := eq_or_ne idx j
        · simp [Table.setSpec, h bi List.mem_cons_self]
        · simp [Table.setSpec, hj, hj.symm]
    refine (ih fun b hb => h b (List.mem_cons_of_mem bi hb)).trans ?_
    rw [hstep]
    by_cases hrest : ∃ b ∈ records, b.entry P = some idx
    · rw [if_pos hrest, if_pos (hrest.imp fun b hb => ⟨List.mem_cons_of_mem bi hb.1, hb.2⟩)]
    · simp [hrest]

/-- **Squashes restore the touched counters just when these were 0** in the table before the
predictions. -/
theorem squashAll_restores_iff (P : Params) (t : Table) (cs : List Call) :
    (∀ c ∈ cs, ∀ idx ∈ touched P t c,
      ((squashAll P (predictAll P t cs).1 (predictAll P t cs).2).ltable idx).currentIterSpec =
        (t.ltable idx).currentIterSpec) ↔
    ∀ c ∈ cs, ∀ idx ∈ touched P t c, (t.ltable idx).currentIterSpec = 0 := by
  obtain ⟨hzero, hentries⟩ := predictAll_spec (t := t) cs
  refine forall₂_congr fun c hc => forall₂_congr fun idx hidx => ?_
  rw [squashAll_spec hzero, if_pos ((hentries idx).mpr ⟨c, hc, hidx⟩)]
  exact eq_comm

/-- A table of one entry whose loop is in its third iteration. -/
def oneLoop : Params × Table :=
  (⟨0, 2, 4, 4, 0, 2, true, true, false⟩, ⟨fun _ => ⟨5, 2, 2, 3, 0, true⟩, 0⟩)

/-- One prediction and its squash: the count 2 is lost. -/
theorem squash_forgets_count :
    oneLoop.1.useSpeculation = true ∧ touched oneLoop.1 oneLoop.2 ⟨0, true, true⟩ = some 0 ∧
    ((squashAll oneLoop.1 (predictAll oneLoop.1 oneLoop.2 [⟨0, true, true⟩]).1
      (predictAll oneLoop.1 oneLoop.2 [⟨0, true, true⟩]).2).ltable 0).currentIterSpec ≠
      (oneLoop.2.ltable 0).currentIterSpec := by
  decide +kernel

end LoopPredictor
