/-
# Squashes of TAGE branches by the prediction unit

`cpu/pred/bpred_unit.cc` and `cpu/pred/tage.cc`.  The unit keeps a record of every predicted
branch, the youngest in front.  `squash(squashed_sn, tid)`, which a trap calls, removes the
records younger than `squashed_sn` and hands each to the predictor's own `squash`.

`TAGE::squash` deletes the `BranchInfo` and leaves the histories alone: only the update of a
mispredicted branch goes back to them.
-/
import Gem5.TAGEHistory

open CyclicFold BitVec

namespace TAGE

/-- The record of a branch; `bpHistory` is null once it is deleted. -/
structure PredictorHistory (P : Params) where
  seqNum : ℕ
  bpHistory : Option (BranchInfo P)

structure BPredUnit (P : Params) where
  predHist : List (PredictorHistory P)
  threadHistory : ThreadHistory P

/-- A branch with the direction the unit predicts for it. -/
structure Predicted where
  seqNum : ℕ
  pc : Addr
  predTaken : Bool

variable {P : Params}

/-- `TAGE::squash`. -/
def deleteBranchInfo (t : ThreadHistory P) (_bpHistory : Option (BranchInfo P)) :
    ThreadHistory P × Option (BranchInfo P) :=
  (t, none)

namespace BPredUnit

def init (P : Params) : BPredUnit P := ⟨[], ThreadHistory.init P⟩

/-- The speculative update of `predict`, and the new record. -/
def predict (u : BPredUnit P) (b : Predicted) : Option (BPredUnit P) :=
  (u.threadHistory.updateHistories b.pc b.predTaken ⟨0, 0, fun _ _ => 0⟩ true).map
    fun (bi, t) => ⟨⟨b.seqNum, some bi⟩ :: u.predHist, t⟩

/-- The loop of `squash`, with `squashHistory` for the record in front. -/
def squashLoop (squashedSn : ℕ) (t : ThreadHistory P) : List (PredictorHistory P) → BPredUnit P
  | [] => ⟨[], t⟩
  | hist :: rest =>
    if hist.seqNum > squashedSn then squashLoop squashedSn (deleteBranchInfo t hist.bpHistory).1 rest
    else ⟨hist :: rest, t⟩

def squash (u : BPredUnit P) (squashedSn : ℕ) : BPredUnit P :=
  squashLoop squashedSn u.threadHistory u.predHist

/-- The unit after a sequence of branches, the youngest in front. -/
def predictAll (P : Params) : List Predicted → Option (BPredUnit P)
  | [] => some (init P)
  | b :: bs => (predictAll P bs).bind fun u => u.predict b

end BPredUnit

/-- What the tables are indexed with: the last `maxHist` directions, the path history and the
folded histories. -/
structure SameHistories (t t' : ThreadHistory P) : Prop where
  globalHistory : ∀ i < P.maxHist,
    t.globalHistory (t.ptGhist + i) = t'.globalHistory (t'.ptGhist + i)
  pathHist : t.pathHist = t'.pathHist
  comp : t.comp = t'.comp

/-- The bits that the branches have shifted in, the youngest first, and 0 before. -/
def shifted (bit : Predicted → Bool) (bs : List Predicted) (i : ℕ) : Bool :=
  (bs.map bit).getD i false

def Params.pathbit (P : Params) (b : Predicted) : Bool := b.pc.getLsbD P.instShiftAmt

/-- Two sequences of branches show the same directions and path bits. -/
def SameBits (P : Params) (bs kept : List Predicted) : Prop :=
  (∀ i < P.maxHist, shifted (·.predTaken) bs i = shifted (·.predTaken) kept i) ∧
    ∀ i < P.pathHistBits, shifted P.pathbit bs i = shifted P.pathbit kept i

/-! ## The path history -/

/-- The path history takes in a bit and drops the oldest. -/
theorem getLsbD_pathHist (pathHist : BitVec 32) (pc : Addr) (shift : ℕ) {n i : ℕ} (hi : i < 32) :
    (((pathHist <<< 1) + ((pc >>> shift) &&& 1).setWidth 32) &&& (mask n).setWidth 32).getLsbD i =
      (push (pc.getLsbD shift) pathHist.getLsbD i && decide (i < n)) := by
  have hbit : ((pc >>> shift) &&& 1).setWidth 32 =
      (ofBool (pc.getLsbD shift)).setWidth 32 := by
    rw [show (1 : Addr) = 1#64 from rfl, and_one_eq_setWidth_ofBool_getLsbD, getLsbD_ushiftRight]
    cases pc.getLsbD shift <;> rfl
  have hdisjoint : (pathHist <<< 1) &&& (ofBool (pc.getLsbD shift)).setWidth 32 = 0#32 := by
    refine eq_of_getLsbD_eq fun j hj => ?_
    cases j <;> simp
  have hmask : ((mask n).setWidth 32).getLsbD i = decide (i < n) := by
    rw [getLsbD_setWidth, getLsbD_mask _ _ (by omega), decide_eq_true hi, Bool.true_and]
  rw [hbit, add_eq_or_of_and_eq_zero _ _ hdisjoint, getLsbD_and, getLsbD_or, getLsbD_setWidth,
    getLsbD_ofBool, hmask]
  cases i <;> simp [push, hi, -getLsbD_eq_getElem]

theorem pathHist_updateHistories {t t' : ThreadHistory P} {pc : Addr} {taken : Bool}
    {bi bi' : BranchInfo P} (hspec : P.speculativeHistUpdate = true)
    (h : t.updateHistories pc taken bi true = some (bi', t')) :
    t'.pathHist = ((t.pathHist <<< 1) + ((pc >>> P.instShiftAmt) &&& 1).setWidth 32) &&&
      (mask P.pathHistBits).setWidth 32 := by
  have hfolded : ∀ {t t' : ThreadHistory P}, t.updateFolded = some t' → t'.pathHist = t.pathHist := by
    intro t t' hsome
    unfold ThreadHistory.updateFolded at hsome
    split at hsome
    · cases hsome
      rfl
    · cases hsome
  have hghist : (t.updateGHist taken).pathHist = t.pathHist := by
    unfold ThreadHistory.updateGHist
    split <;> rfl
  rw [ThreadHistory.updateHistories, if_neg (by simp [hspec]), Option.bind_eq_some_iff] at h
  obtain ⟨t1, h1, hsome⟩ := h
  split at hsome
  · cases hsome
    rw [hfolded h1, hghist]
  · cases hsome

/-! ## Runs of predictions -/

/-- The histories hold the bits of the branches. -/
structure Holds (u : BPredUnit P) (bs : List Predicted) : Prop where
  observed : ∃ o : Observed P, Inv o ∧ o.hist = u.threadHistory ∧
    outcomes o.branches = shifted (·.predTaken) bs
  pathHist : ∀ i < 32, u.threadHistory.pathHist.getLsbD i =
    (shifted P.pathbit bs i && decide (i < P.pathHistBits))
  seqNums : u.predHist.map (·.seqNum) = bs.map (·.seqNum)

theorem Holds.predict (hP : P.Sound) {u : BPredUnit P} {bs : List Predicted} (h : Holds u bs)
    (b : Predicted) : ∃ u', u.predict b = some u' ∧ Holds u' (b :: bs) := by
  obtain ⟨o, hinv, hhist, houtcomes⟩ := h.observed
  obtain ⟨o', hstep, hinv'⟩ := hinv.update hP b.pc b.predTaken
  rw [Observed.step, Option.map_eq_some_iff] at hstep
  obtain ⟨⟨bi, t⟩, hupdate, rfl⟩ := hstep
  rw [hhist] at hupdate
  refine ⟨⟨⟨b.seqNum, some bi⟩ :: u.predHist, t⟩, by rw [BPredUnit.predict, hupdate]; rfl,
    ⟨⟨_, hinv', rfl, ?_⟩, fun i hi => ?_, congrArg _ h.seqNums⟩⟩
  · rw [outcomes_cons, houtcomes]
    funext i
    cases i <;> rfl
  · rw [pathHist_updateHistories hP.speculative hupdate, getLsbD_pathHist _ _ _ hi]
    cases i with
    | zero => rfl
    | succ i =>
      simp only [push, h.pathHist i (by omega), Bool.and_assoc]
      congr 1
      rw [Bool.eq_iff_iff]
      simp only [Bool.and_eq_true, decide_eq_true_eq]
      omega

theorem holds_predictAll (hP : P.Sound) (bs : List Predicted) :
    ∃ u, BPredUnit.predictAll P bs = some u ∧ Holds u bs := by
  induction bs with
  | nil =>
    exact ⟨_, rfl, ⟨Observed.init P, inv_init P, rfl, rfl⟩,
      fun i _ => by simp [BPredUnit.init, ThreadHistory.init, shifted], rfl⟩
  | cons b bs ih =>
    obtain ⟨u, hrun, hu⟩ := ih
    obtain ⟨u', hnext, hu'⟩ := hu.predict hP b
    exact ⟨u', by rw [BPredUnit.predictAll, hrun, Option.bind_some, hnext], hu'⟩

/-! ## Squashes -/

/-- The records of the younger branches go, the histories stay. -/
theorem squashLoop_spec (squashedSn : ℕ) (t : ThreadHistory P) (predHist : List (PredictorHistory P)) :
    (BPredUnit.squashLoop squashedSn t predHist).threadHistory = t ∧
      (BPredUnit.squashLoop squashedSn t predHist).predHist =
        predHist.dropWhile fun hist => squashedSn < hist.seqNum := by
  induction predHist with
  | nil => exact ⟨rfl, rfl⟩
  | cons hist rest ih =>
    rw [BPredUnit.squashLoop]
    split
    · simp [deleteBranchInfo, *]
    · simp [*]

theorem fold_congr {w C n : ℕ} {o o' : ℕ → Bool} (h : ∀ i < n, o i = o' i) :
    fold w C o n = fold w C o' n := by
  induction n with
  | zero => rfl
  | succ n ih => rw [fold, fold, ih fun i hi => h i (by omega), h n (by omega)]

/-- Units have the same histories just when their branches have shifted in the same bits. -/
theorem Holds.sameHistories_iff (hP : P.Sound) (hbits : P.pathHistBits ≤ 32) {u v : BPredUnit P}
    {bs kept : List Predicted} (hu : Holds u bs) (hv : Holds v kept) :
    SameHistories u.threadHistory v.threadHistory ↔ SameBits P bs kept := by
  obtain ⟨o, hinv, hhist, hout⟩ := hu.observed
  obtain ⟨o', hinv', hhist', hout'⟩ := hv.observed
  have hdirs : ∀ i < P.maxHist, (u.threadHistory.globalHistory (u.threadHistory.ptGhist + i) =
      v.threadHistory.globalHistory (v.threadHistory.ptGhist + i) ↔
      shifted (·.predTaken) bs i = shifted (·.predTaken) kept i) := by
    intro i hi
    rw [← hhist, ← hhist', hinv.current i hi, hinv'.current i hi, hout, hout']
  constructor
  · intro hsame
    refine ⟨fun i hi => (hdirs i hi).mp (hsame.globalHistory i hi), fun i hi => ?_⟩
    have hpath := hu.pathHist i (by omega)
    rw [hsame.pathHist, hv.pathHist i (by omega)] at hpath
    simpa [hi] using hpath.symm
  · rintro ⟨hdir, hpath⟩
    refine ⟨fun i hi => (hdirs i hi).mpr (hdir i hi), ?_, ?_⟩
    · refine eq_of_getLsbD_eq fun i hi => ?_
      rw [hu.pathHist i hi, hv.pathHist i hi]
      by_cases hlt : i < P.pathHistBits
      · rw [hpath i hlt]
      · simp [hlt]
    · funext i kind
      rw [← hhist, ← hhist', hinv.comp, hinv'.comp, hout, hout']
      exact fold_congr fun j hj => hdir j (hj.trans_le (hP.histLength_le i))

/-- **A squash undoes the histories of the removed branches just when these have shifted in
what was there before**: the bits of all branches read like those of the remaining ones. -/
theorem squash_undoes_iff (hP : P.Sound) (hbits : P.pathHistBits ≤ 32) (squashedSn : ℕ)
    (bs : List Predicted) : ∃ u v, BPredUnit.predictAll P bs = some u ∧
      BPredUnit.predictAll P (bs.dropWhile fun b => squashedSn < b.seqNum) = some v ∧
      (u.squash squashedSn).predHist.map (·.seqNum) = v.predHist.map (·.seqNum) ∧
      (SameHistories (u.squash squashedSn).threadHistory v.threadHistory ↔
        SameBits P bs (bs.dropWhile fun b => squashedSn < b.seqNum)) := by
  obtain ⟨u, hrun, hu⟩ := holds_predictAll hP bs
  obtain ⟨v, hrun', hv⟩ := holds_predictAll hP (bs.dropWhile fun b => squashedSn < b.seqNum)
  obtain ⟨hhist, hpred⟩ := squashLoop_spec squashedSn u.threadHistory u.predHist
  refine ⟨u, v, hrun, hrun', ?_, ?_⟩
  · have hseq := congrArg (List.dropWhile (squashedSn < ·)) hu.seqNums
    rw [List.dropWhile_map, List.dropWhile_map] at hseq
    rw [BPredUnit.squash, hpred, hv.seqNums]
    exact hseq
  · rw [BPredUnit.squash, hhist]
    exact hu.sameHistories_iff hP hbits hv

/-- The youngest of the taken branches `bs` goes, and the others leave the same histories. -/
theorem squash_undoes_taken :
    let bs : List Predicted := [⟨4, 0, true⟩, ⟨3, 0, true⟩, ⟨2, 0, true⟩, ⟨1, 0, true⟩]
    ∃ u v, BPredUnit.predictAll small bs = some u ∧ BPredUnit.predictAll small bs.tail = some v ∧
      SameHistories (u.squash 3).threadHistory v.threadHistory := by
  obtain ⟨u, v, hu, hv, -, hsame⟩ := squash_undoes_iff small_sound (by decide) 3
    [⟨4, 0, true⟩, ⟨3, 0, true⟩, ⟨2, 0, true⟩, ⟨1, 0, true⟩]
  exact ⟨u, v, hu, hv, hsame.mpr ⟨by decide, by decide⟩⟩

/-- A taken branch stays in the global history after it has been removed. -/
theorem squash_keeps_taken : ∃ u v, BPredUnit.predictAll small [⟨1, 0, true⟩] = some u ∧
    BPredUnit.predictAll small [] = some v ∧ (u.squash 0).predHist = [] ∧
    ¬ SameHistories (u.squash 0).threadHistory v.threadHistory :=
  ⟨_, _, rfl, rfl, rfl, fun h => absurd (h.globalHistory 0 (by decide)) (by decide +kernel)⟩

end TAGE
