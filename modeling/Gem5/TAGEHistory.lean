/-
# The branch histories of TAGE

`cpu/pred/tage_base.cc`.  The outcomes of the branches of a thread are kept in a buffer that
grows downwards; at its lower end the last `maxHist` outcomes are copied to the upper end
(`updateGHist`).  For every table three folded histories are updated along with it.  A
branch saves the pointer and the folded histories before its own outcome went in, and `squash`
goes back to them.

The histories are observed with the surviving branches.
-/
import Gem5.CyclicFold
import Gem5.Bitfield
import Gem5.Run

open Function List BitVec
open CyclicFold

namespace TAGE

/-- The three folded histories of a table. -/
inductive Kind
  | index
  | tag0
  | tag1
  deriving DecidableEq

instance : Fintype Kind := ⟨{.index, .tag0, .tag1}, by rintro (_ | _ | _) <;> decide⟩

structure Params where
  nHistoryTables : ℕ
  histBufferSize : ℕ
  maxHist : ℕ
  /-- An assertion of `init`. -/
  fits : maxHist * 2 < histBufferSize
  histLengths : Fin nHistoryTables → ℕ
  logTagTableSizes : Fin nHistoryTables → ℕ
  tagTableTagWidths : Fin nHistoryTables → ℕ
  pathHistBits : ℕ
  instShiftAmt : ℕ
  speculativeHistUpdate : Bool

variable (P : Params)

/-- `initFoldedHistories`. -/
def Params.compLength (i : Fin P.nHistoryTables) : Kind → ℕ
  | .index => P.logTagTableSizes i
  | .tag0 => P.tagTableTagWidths i
  | .tag1 => P.tagTableTagWidths i - 1

/-- `FoldedHistory::update`: the new outcome, and the one that leaves the history.  The
shift by `compLength` is defined for the width of `comp` only. -/
def foldedUpdate (origLength compLength : ℕ) (comp : BitVec 32) (first last : Bool) :
    Option (BitVec 32) :=
  if compLength < 32 then
    let outpoint := origLength % compLength
    let comp := (comp <<< 1) ||| (BitVec.ofBool first).setWidth 32
    let comp := comp ^^^ ((BitVec.ofBool last).setWidth 32 <<< outpoint)
    let comp := comp ^^^ (comp >>> compLength)
    some (comp &&& (mask compLength).setWidth 32)
  else none

/-- The folded histories of a thread. -/
abbrev Folded (P : Params) := Fin P.nHistoryTables → Kind → BitVec 32

/-- What a branch saves. -/
structure BranchInfo where
  pathHist : BitVec 32
  ptGhist : ℕ
  comp : Folded P

structure ThreadHistory where
  pathHist : BitVec 32
  globalHistory : ℕ → Bool
  gHist : ℕ
  ptGhist : ℕ
  comp : Folded P

variable {P}

namespace ThreadHistory

def init (P : Params) : ThreadHistory P := ⟨0, fun _ => false, 0, 0, fun _ _ => 0⟩

/-- The copy loop of a roll-over. -/
def rollOver (P : Params) (tab : ℕ → Bool) : ℕ → Bool :=
  (List.range P.maxHist).foldl
    (fun tab i => update tab (P.histBufferSize - P.maxHist + i) (tab i)) tab

variable (t : ThreadHistory P)

def updateGHist (dir : Bool) : ThreadHistory P :=
  let t :=
    if t.ptGhist = 0 then
      { t with
        globalHistory := rollOver P t.globalHistory
        ptGhist := P.histBufferSize - P.maxHist
        gHist := P.histBufferSize - P.maxHist }
    else t
  { t with
    ptGhist := t.ptGhist - 1
    gHist := t.gHist - 1
    globalHistory := update t.globalHistory (t.gHist - 1) dir }

/-- The folded histories are updated from `gHist`, inside of the buffer. -/
def updateFolded : Option (ThreadHistory P) :=
  if ∀ i kind, t.gHist + P.histLengths i < P.histBufferSize ∧ (foldedUpdate (P.histLengths i)
      (P.compLength i kind) (t.comp i kind) (t.globalHistory t.gHist)
      (t.globalHistory (t.gHist + P.histLengths i))).isSome then
    some { t with comp := fun i kind => (foldedUpdate (P.histLengths i) (P.compLength i kind)
      (t.comp i kind) (t.globalHistory t.gHist)
      (t.globalHistory (t.gHist + P.histLengths i))).getD 0 }
  else none

/-- `updateHistories`, which also fills the `BranchInfo` if it is speculative. -/
def updateHistories (branchPc : Addr) (taken : Bool) (bi : BranchInfo P)
    (speculative : Bool) : Option (BranchInfo P × ThreadHistory P) :=
  if speculative ≠ P.speculativeHistUpdate then some (bi, t)
  else
    let pathbit := ((branchPc >>> P.instShiftAmt) &&& 1).setWidth 32
    let t := t.updateGHist taken
    let pathHist := ((t.pathHist <<< 1) + pathbit) &&& (mask P.pathHistBits).setWidth 32
    let t := { t with pathHist }
    let bi := if speculative then ⟨t.pathHist, t.ptGhist, t.comp⟩ else bi
    t.updateFolded.bind fun t => if t.gHist = t.ptGhist then some (bi, t) else none

def squash (taken : Bool) (bi : BranchInfo P) : Option (ThreadHistory P) :=
  if !P.speculativeHistUpdate then some t
  else
    updateFolded
      { pathHist := bi.pathHist
        ptGhist := bi.ptGhist
        gHist := bi.ptGhist
        globalHistory := update t.globalHistory bi.ptGhist taken
        comp := bi.comp }

end ThreadHistory

/-! ## Observed histories -/

/-- A surviving branch: what it saved, its direction, and the number of its update. -/
structure Branch (P : Params) where
  info : BranchInfo P
  taken : Bool
  born : ℕ

/-- The histories, the surviving branches from the youngest to the oldest, and the number
of updates so far. -/
structure Observed (P : Params) where
  hist : ThreadHistory P
  branches : List (Branch P)
  updates : ℕ

inductive Action
  | update (branchPc : Addr) (taken : Bool)
  | squash (branch : ℕ) (taken : Bool)

/-- The directions of the branches, and 0 before the first. -/
def outcomes (branches : List (Branch P)) (i : ℕ) : Bool := (branches.map (·.taken)).getD i false

namespace Observed

def init (P : Params) : Observed P := ⟨ThreadHistory.init P, [], 0⟩

/-- A new branch, or a squash to a branch that discards the younger ones. -/
def step (o : Observed P) : Action → Option (Observed P)
  | .update branchPc taken =>
    (o.hist.updateHistories branchPc taken ⟨0, 0, fun _ _ => 0⟩ true).map fun (bi, hist) =>
      ⟨hist, ⟨bi, taken, o.updates + 1⟩ :: o.branches, o.updates + 1⟩
  | .squash branch taken =>
    match o.branches.drop branch with
    | [] => none
    | b :: older => (o.hist.squash taken b.info).map fun hist =>
      ⟨hist, { b with taken } :: older, o.updates⟩

/-- A squash goes to a surviving branch that fewer than `bound` updates have followed. -/
def Allowed (bound : ℕ) (o : Observed P) : Action → Prop
  | .update _ _ => True
  | .squash branch _ => ∃ b ∈ o.branches[branch]?, o.updates - b.born < bound

instance (bound : ℕ) (o : Observed P) : (a : Action) → Decidable (o.Allowed bound a)
  | .update _ _ => isTrue trivial
  | .squash branch _ => inferInstanceAs (Decidable (∃ b ∈ o.branches[branch]?, _))

end Observed

/-! ## Folded histories -/

/-- The bits of a folded history after the new outcome has come in and the old one has left. -/
theorem getLsbD_shifted (comp : BitVec 32) (first last : Bool) (out : ℕ) {j : ℕ} (hj : j < 32) :
    (((comp <<< 1) ||| (BitVec.ofBool first).setWidth 32) ^^^
        ((BitVec.ofBool last).setWidth 32 <<< out)).getLsbD j =
      ((if j = 0 then first else comp.getLsbD (j - 1)) ^^ (last && decide (out = j))) := by
  rw [getLsbD_xor, getLsbD_or, getLsbD_shiftLeft, getLsbD_shiftLeft, getLsbD_setWidth,
    getLsbD_setWidth, getLsbD_ofBool]
  congr 1
  · cases j with
    | zero => simp
    | succ j => simp [hj]
  · by_cases hlt : j < out
    · simp [hlt, show out ≠ j by omega]
    by_cases heq : out = j
    · simp [heq, hj]
    · simp [heq, show j - out ≠ 0 by omega]

/-- **A folded history follows its window.** -/
theorem foldedUpdate_fold {L C : ℕ} (hL : 0 < L) (hC : 0 < C) (hC32 : C < 32) (o : ℕ → Bool)
    (b : Bool) : foldedUpdate L C (fold 32 C o L) b (o (L - 1)) = some (fold 32 C (push b o) L) := by
  have hout := Nat.mod_lt L hC
  rw [foldedUpdate, if_pos hC32, Option.some.injEq]
  refine eq_of_getLsbD_eq fun j hj => ?_
  rw [getLsbD_and, getLsbD_setWidth, getLsbD_mask _ _ (by omega)]
  by_cases hjC : j < C
  · rw [getLsbD_fold_push (by omega) hjC hL, getLsbD_xor, getLsbD_ushiftRight,
      getLsbD_shifted _ _ _ _ hj]
    -- the bit that leaves the top comes back in at the bottom
    have hcarry : (((fold 32 C o L <<< 1) ||| (ofBool b).setWidth 32) ^^^
        ((ofBool (o (L - 1))).setWidth 32 <<< (L % C))).getLsbD (C + j) =
        (decide (j = 0) && (fold 32 C o L).getLsbD (C - 1)) := by
      by_cases hrange : C + j < 32
      · rw [getLsbD_shifted _ _ _ _ hrange, if_neg (by omega),
          decide_eq_false (show L % C ≠ C + j by omega), Bool.and_false]
        cases j with
        | zero => simp
        | succ j => rw [getLsbD_fold_of_le hC (by omega)]; simp
      · rw [getLsbD_of_ge _ _ (by omega), decide_eq_false (by omega), Bool.false_and]
    rw [hcarry]
    cases j with
    | zero =>
      simp only [before, if_true, decide_true, Bool.true_and, Bool.and_true, hj, hjC]
      rw [Bool.xor_assoc, Bool.xor_comm (o (L - 1) && _)]
    | succ j =>
      simp [before, hj, hjC]
  · rw [getLsbD_fold_of_le hC (by omega), decide_eq_false hjC, Bool.and_false, Bool.and_false]

/-! ## The buffer -/

/-- The cells a roll-over fills. -/
theorem rollOver_apply (P : Params) (tab : ℕ → Bool) (j : ℕ) :
    ThreadHistory.rollOver P tab j =
      if P.histBufferSize - P.maxHist ≤ j ∧ j < P.histBufferSize then
        tab (j - (P.histBufferSize - P.maxHist)) else tab j := by
  have hfits := P.fits
  -- the copied cells lie below the ones that are filled
  have hloop : ∀ n ≤ P.maxHist, ∀ j, (range n).foldl
      (fun tab i => update tab (P.histBufferSize - P.maxHist + i) (tab i)) tab j =
      if P.histBufferSize - P.maxHist ≤ j ∧ j < P.histBufferSize - P.maxHist + n then
        tab (j - (P.histBufferSize - P.maxHist)) else tab j := by
    intro n hn
    induction n with
    | zero => intro j; rw [range_zero, foldl_nil, if_neg (by omega)]
    | succ n ih =>
      intro j
      rw [range_succ, foldl_append, foldl_cons, foldl_nil]
      by_cases heq : j = P.histBufferSize - P.maxHist + n
      · rw [heq, update_self, ih (by omega), if_neg (by omega), if_pos (by omega),
          Nat.add_sub_cancel_left]
      · rw [update_of_ne heq, ih (by omega)]
        exact if_congr (by omega) rfl rfl
  rw [ThreadHistory.rollOver, hloop _ le_rfl]
  exact if_congr (by omega) rfl rfl

/-- The place of the youngest outcome when `n` branches survive. -/
def place (P : Params) (n : ℕ) : ℕ :=
  (P.histBufferSize - P.maxHist - n % (P.histBufferSize - P.maxHist)) %
    (P.histBufferSize - P.maxHist)

theorem place_lt (P : Params) (n : ℕ) : place P n < P.histBufferSize - P.maxHist :=
  Nat.mod_lt _ (by have := P.fits; omega)

/-- A counter that goes down around a circle. -/
theorem countdown_succ {K : ℕ} (hpos : 0 < K) (n : ℕ) :
    (K - (n + 1) % K) % K = if (K - n % K) % K = 0 then K - 1 else (K - n % K) % K - 1 := by
  have hplace : ∀ r, r < K → (K - r) % K = if r = 0 then 0 else K - r := by
    intro r hr
    split
    · subst r
      simp
    · exact Nat.mod_eq_of_lt (by omega)
  have hlt := Nat.mod_lt n hpos
  rw [← Nat.mod_add_mod]
  generalize n % K = r at hlt
  rw [hplace r hlt]
  by_cases hlast : r + 1 = K
  · rw [hlast, Nat.mod_self, hplace 0 hpos]
    split_ifs <;> omega
  · rw [Nat.mod_eq_of_lt (show r + 1 < K by omega), hplace (r + 1) (by omega),
      if_neg (Nat.succ_ne_zero r)]
    split_ifs <;> omega

/-- The place moves down by one, or to the upper end. -/
theorem place_succ (P : Params) (n : ℕ) :
    place P (n + 1) =
      if place P n = 0 then P.histBufferSize - P.maxHist - 1 else place P n - 1 :=
  countdown_succ (by have := P.fits; omega) n

theorem place_add (P : Params) (n : ℕ) {d : ℕ} (hd : d < P.histBufferSize - P.maxHist) :
    place P (n + d) = if d ≤ place P n then place P n - d
      else P.histBufferSize - P.maxHist - (d - place P n) := by
  induction d with
  | zero => simp
  | succ d ih =>
    rw [← Nat.add_assoc, place_succ, ih (by omega)]
    split_ifs <;> omega

/-- A later place is not among the cells of a branch that is not too old. -/
theorem place_add_avoids (P : Params) {n d i : ℕ} (hd : 0 < d)
    (hbound : d < P.histBufferSize - 2 * P.maxHist) (hi : i < P.maxHist) :
    place P n + (i + 1) ≠ place P (n + d) := by
  rw [place_add P n (by omega)]
  split <;> omega

/-! ## The invariant -/

theorem outcomes_cons (b : Branch P) (branches : List (Branch P)) :
    outcomes (b :: branches) = push b.taken (outcomes branches) := by
  funext i
  cases i <;> rfl

/-- What is known of a surviving branch. -/
structure Saved (o : Observed P) (k : ℕ) (b : Branch P) : Prop where
  ptGhist : b.info.ptGhist = place P ((o.branches.drop (k + 1)).length + 1)
  comp : ∀ i kind, b.info.comp i kind =
    fold 32 (P.compLength i kind) (outcomes (o.branches.drop (k + 1))) (P.histLengths i)
  born_le : b.born ≤ o.updates
  /-- The younger branches are among the updates since. -/
  depth : k ≤ o.updates - b.born
  /-- The outcomes before the branch are still in the buffer. -/
  cells : o.updates - b.born < P.histBufferSize - 2 * P.maxHist → ∀ i < P.maxHist,
    o.hist.globalHistory (place P ((o.branches.drop (k + 1)).length + 1) + (i + 1)) =
      outcomes (o.branches.drop (k + 1)) i

structure Inv (o : Observed P) : Prop where
  gHist : o.hist.gHist = o.hist.ptGhist
  ptGhist : o.hist.ptGhist = place P o.branches.length
  current : ∀ i < P.maxHist,
    o.hist.globalHistory (o.hist.ptGhist + i) = outcomes o.branches i
  comp : ∀ i kind, o.hist.comp i kind =
    fold 32 (P.compLength i kind) (outcomes o.branches) (P.histLengths i)
  saved : ∀ k b, o.branches[k]? = some b → Saved o k b

/-- History lengths up to `maxHist`, folded to a width that `comp` can be shifted by. -/
structure Params.Sound (P : Params) : Prop where
  speculative : P.speculativeHistUpdate = true
  histLength_pos : ∀ i, 1 ≤ P.histLengths i
  histLength_le : ∀ i, P.histLengths i ≤ P.maxHist
  compLength_pos : ∀ i kind, 1 ≤ P.compLength i kind
  compLength_lt : ∀ i kind, P.compLength i kind < 32

/-- The folded histories take in a new outcome. -/
theorem updateFolded_eq (hP : P.Sound) {t : ThreadHistory P} {older : ℕ → Bool} {b : Bool}
    (hrange : t.gHist < P.histBufferSize - P.maxHist) (hfirst : t.globalHistory t.gHist = b)
    (hcells : ∀ i < P.maxHist, t.globalHistory (t.gHist + (i + 1)) = older i)
    (hcomp : ∀ i kind, t.comp i kind = fold 32 (P.compLength i kind) older (P.histLengths i)) :
    t.updateFolded = some { t with
      comp := fun i kind => fold 32 (P.compLength i kind) (push b older) (P.histLengths i) } := by
  have hupdate : ∀ i kind, foldedUpdate (P.histLengths i) (P.compLength i kind) (t.comp i kind)
      (t.globalHistory t.gHist) (t.globalHistory (t.gHist + P.histLengths i)) =
      some (fold 32 (P.compLength i kind) (push b older) (P.histLengths i)) := by
    intro i kind
    have hpos := hP.histLength_pos i
    have hle := hP.histLength_le i
    have hlast : t.globalHistory (t.gHist + P.histLengths i) = older (P.histLengths i - 1) := by
      rw [← hcells _ (by omega)]
      congr 1
      omega
    rw [hfirst, hlast, hcomp]
    exact foldedUpdate_fold hpos (hP.compLength_pos i kind) (hP.compLength_lt i kind) older b
  rw [ThreadHistory.updateFolded, if_pos]
  · simp [hupdate]
  · intro i kind
    have hle := hP.histLength_le i
    exact ⟨by omega, by rw [hupdate]; rfl⟩

theorem fold_false (w C n : ℕ) : fold w C (fun _ => false) n = 0 := by
  induction n with
  | zero => rfl
  | succ n ih => simp [fold, ih]

theorem inv_init (P : Params) : Inv (Observed.init P) := by
  refine ⟨rfl, ?_, fun _ _ => rfl, ?_, fun k b h => ?_⟩
  · simp [Observed.init, ThreadHistory.init, place]
  · exact fun i kind => (fold_false 32 _ _).symm
  · simp [Observed.init] at h

/-! ## Updates -/

variable {o : Observed P} {k : ℕ} {b : Branch P}

/-- The buffer after `updateGHist`: the new outcome, with those before it above. -/
theorem updateGHist_spec (h : Inv o) (dir : Bool) :
    (o.hist.updateGHist dir).ptGhist = place P (o.branches.length + 1) ∧
      (o.hist.updateGHist dir).gHist = place P (o.branches.length + 1) ∧
      (o.hist.updateGHist dir).comp = o.hist.comp ∧
      (o.hist.updateGHist dir).globalHistory (place P (o.branches.length + 1)) = dir ∧
      (∀ i < P.maxHist, (o.hist.updateGHist dir).globalHistory
        (place P (o.branches.length + 1) + (i + 1)) = outcomes o.branches i) ∧
      ∀ j, j ≠ place P (o.branches.length + 1) →
        (place P o.branches.length = 0 → j < P.histBufferSize - P.maxHist) →
        (o.hist.updateGHist dir).globalHistory j = o.hist.globalHistory j := by
  have hfits := P.fits
  have hpt := h.ptGhist
  have hg := h.gHist
  rw [place_succ, ThreadHistory.updateGHist]
  by_cases hroll : place P o.branches.length = 0
  · simp only [hpt, hroll, if_true]
    refine ⟨trivial, trivial, trivial, update_self .., ?_, ?_⟩
    · intro i hi
      rw [update_of_ne (by omega), rollOver_apply, if_pos (by omega), ← h.current i hi, hpt]
      congr 1
      omega
    · intro j hj hbelow
      rw [update_of_ne hj, rollOver_apply, if_neg (by have := hbelow trivial; omega)]
  · simp only [hpt, hg, if_neg hroll]
    refine ⟨trivial, trivial, trivial, update_self .., ?_, ?_⟩
    · intro i hi
      rw [update_of_ne (by omega), ← h.current i hi]
      congr 1
      omega
    · intro j hj _
      rw [update_of_ne hj]

/-- A speculative update saves the old folded histories and takes in the outcome. -/
theorem updateHistories_spec (hP : P.Sound) (h : Inv o) (branchPc : Addr) (taken : Bool)
    (bi : BranchInfo P) : ∃ hist, o.hist.updateHistories branchPc taken bi true =
        some (⟨hist.pathHist, hist.ptGhist, o.hist.comp⟩, hist) ∧
      hist.ptGhist = place P (o.branches.length + 1) ∧ hist.gHist = hist.ptGhist ∧
      hist.globalHistory = (o.hist.updateGHist taken).globalHistory ∧ ∀ i kind, hist.comp i kind =
        fold 32 (P.compLength i kind) (push taken (outcomes o.branches)) (P.histLengths i) := by
  obtain ⟨hpt, hg, hcomp, hdir, hcells, -⟩ := updateGHist_spec h taken
  let t : ThreadHistory P := { o.hist.updateGHist taken with
    pathHist := (((o.hist.updateGHist taken).pathHist <<< 1) +
      ((branchPc >>> P.instShiftAmt) &&& 1).setWidth 32) &&& (mask P.pathHistBits).setWidth 32 }
  have hgt : t.gHist = place P (o.branches.length + 1) := hg
  have hfolded : t.updateFolded = some { t with
      comp := fun i kind =>
        fold 32 (P.compLength i kind) (push taken (outcomes o.branches)) (P.histLengths i) } := by
    refine updateFolded_eq hP ?_ ?_ ?_ ?_
    · rw [hgt]
      exact place_lt P _
    · rw [hgt]
      exact hdir
    · rw [hgt]
      exact hcells
    · intro i kind
      rw [← h.comp i kind, ← hcomp]
  refine ⟨{ t with
    comp := fun i kind =>
      fold 32 (P.compLength i kind) (push taken (outcomes o.branches)) (P.histLengths i) },
    ?_, hpt, hg.trans hpt.symm, rfl, fun i kind => rfl⟩
  rw [ThreadHistory.updateHistories, if_neg (by rw [hP.speculative]; simp)]
  change (t.updateFolded.bind fun t => if t.gHist = t.ptGhist then some (_, t) else none) = _
  rw [hfolded, Option.bind_some, if_pos (hg.trans hpt.symm)]
  simp only [hcomp]
  rfl

/-- An update keeps the cells of a branch that stays within the bound. -/
theorem Saved.update (h : Inv o) (dir : Bool) {k n i : ℕ} (hlen : o.branches.length = n + k)
    (hbound : k + 1 < P.histBufferSize - 2 * P.maxHist) (hi : i < P.maxHist) :
    (o.hist.updateGHist dir).globalHistory (place P n + (i + 1)) =
      o.hist.globalHistory (place P n + (i + 1)) := by
  obtain ⟨-, -, -, -, -, hkeep⟩ := updateGHist_spec h dir
  refine hkeep _ ?_ fun hroll => ?_
  · rw [hlen]
    exact place_add_avoids P (Nat.succ_pos k) hbound hi
  · -- at a roll-over the branch lies `k` cells above the lower end
    rw [hlen, place_add P n (by omega)] at hroll
    split at hroll <;> omega

theorem length_drop_succ {branches : List (Branch P)}
    (hb : branches[k]? = some b) : branches.length = (branches.drop (k + 1)).length + 1 + k := by
  have hlt : k < branches.length := (List.getElem?_eq_some_iff.mp hb).1
  rw [length_drop]
  omega

theorem Inv.update (hP : P.Sound) (h : Inv o) (branchPc : Addr) (taken : Bool) :
    ∃ o', o.step (.update branchPc taken) = some o' ∧ Inv o' := by
  obtain ⟨hist, hstep, hpt, hg, htab, hcomp⟩ :=
    updateHistories_spec hP h branchPc taken ⟨0, 0, fun _ _ => 0⟩
  obtain ⟨-, -, -, hdir, hcells, -⟩ := updateGHist_spec h taken
  refine ⟨_, by rw [Observed.step, hstep]; rfl, ?_⟩
  refine
    { gHist := hg, ptGhist := hpt
      current := fun i hi => ?_
      comp := fun i kind => by rw [hcomp i kind, outcomes_cons]
      saved := fun k b hb => ?_ }
  · simp only [htab, hpt]
    cases i with
    | zero => exact hdir
    | succ i => exact hcells i (by omega)
  · cases k with
    | zero =>
      cases hb
      refine ⟨hpt, h.comp, le_rfl, Nat.zero_le _, fun _ i hi => ?_⟩
      simp only [htab]
      exact hcells i hi
    | succ k =>
      obtain ⟨hptb, hcompb, hborn, hdepth, hold⟩ := h.saved k b hb
      refine ⟨hptb, hcompb, Nat.le_succ_of_le hborn, ?_, fun hage i hi => ?_⟩
      · change k + 1 ≤ o.updates + 1 - b.born
        omega
      · change o.updates + 1 - b.born < _ at hage
        simp only [htab]
        exact (Saved.update h taken (length_drop_succ hb) (by omega) hi).trans
          (hold (by omega) i hi)

/-! ## Squashes -/

/-- A squash goes back to the outcomes before the branch, and takes in its direction. -/
theorem squash_spec (hP : P.Sound) (hb : Saved o k b)
    (hage : o.updates - b.born < P.histBufferSize - 2 * P.maxHist) (taken : Bool) :
    o.hist.squash taken b.info = some
      { pathHist := b.info.pathHist
        ptGhist := b.info.ptGhist
        gHist := b.info.ptGhist
        globalHistory := update o.hist.globalHistory b.info.ptGhist taken
        comp := fun i kind => fold 32 (P.compLength i kind)
          (push taken (outcomes (o.branches.drop (k + 1)))) (P.histLengths i) } := by
  rw [ThreadHistory.squash, if_neg (by simp [hP.speculative])]
  refine updateFolded_eq hP ?_ (update_self ..) ?_ hb.comp
  · change b.info.ptGhist < _
    rw [hb.ptGhist]
    exact place_lt P _
  · intro i hi
    change update _ _ _ (b.info.ptGhist + (i + 1)) = _
    rw [update_of_ne (by omega), hb.ptGhist]
    exact hb.cells hage i hi

theorem Inv.squash (hP : P.Sound) (h : Inv o) {taken : Bool}
    (hallowed : o.Allowed (P.histBufferSize - 2 * P.maxHist) (.squash k taken)) :
    ∃ o', o.step (.squash k taken) = some o' ∧ Inv o' := by
  obtain ⟨b, hb, hage⟩ := hallowed
  have hsaved := h.saved k b hb
  have hdrop : o.branches.drop k = b :: o.branches.drop (k + 1) := by
    obtain ⟨hk, rfl⟩ := List.getElem?_eq_some_iff.mp hb
    exact drop_eq_getElem_cons hk
  refine ⟨_, by rw [Observed.step, hdrop]; simp only; rw [squash_spec hP hsaved hage]; rfl, ?_⟩
  refine
    { gHist := rfl, ptGhist := hsaved.ptGhist
      current := fun i hi => ?_
      comp := fun i kind => by rw [outcomes_cons]
      saved := fun j c hc => ?_ }
  · cases i with
    | zero => exact update_self ..
    | succ i =>
      apply (update_of_ne (by simp) ..).trans
      simp only [hsaved.ptGhist]
      exact hsaved.cells hage i (by omega)
  · cases j with
    | zero =>
      cases hc
      refine ⟨hsaved.ptGhist, hsaved.comp, hsaved.born_le, Nat.zero_le _, fun _ i hi => ?_⟩
      refine (update_of_ne ?_ ..).trans (hsaved.cells hage i hi)
      change place P ((o.branches.drop (k + 1)).length + 1) + (i + 1) ≠ b.info.ptGhist
      rw [hsaved.ptGhist]
      omega
    | succ j =>
      change (o.branches.drop (k + 1))[j]? = some c at hc
      have holder := length_drop_succ hc
      rw [getElem?_drop] at hc
      have hc' := h.saved _ c hc
      have hsame : o.branches.drop (k + 1 + j + 1) = (o.branches.drop (k + 1)).drop (j + 1) := by
        rw [drop_drop, Nat.add_assoc]
      obtain ⟨hptc, hcompc, hborn, hdepth, hold⟩ := hc'
      rw [hsame] at hptc hold
      refine ⟨hptc, hsame ▸ hcompc, hborn, ?_, fun hagec i hi => ?_⟩
      · change j + 1 ≤ o.updates - c.born
        omega
      · change o.updates - c.born < _ at hagec
        refine (update_of_ne ?_ ..).trans (hold hagec i hi)
        rw [hsaved.ptGhist, holder, show ∀ n, n + 1 + j + 1 = n + 1 + (j + 1) from fun _ => rfl]
        exact place_add_avoids P (Nat.succ_pos j) (by omega) hi

theorem Inv.step (hP : P.Sound) (h : Inv o) (a : Action)
    (ha : o.Allowed (P.histBufferSize - 2 * P.maxHist) a) : ∃ o', o.step a = some o' ∧ Inv o' := by
  cases a with
  | update branchPc taken => exact h.update hP branchPc taken
  | squash k taken => exact h.squash hP ha

/-- **Histories are repaired.**  After every run of updates and squashes to branches
that fewer than `histBufferSize - 2 * maxHist` updates have followed, the buffer holds the
directions of the surviving branches, and every folded history is folded from them. -/
theorem history_repaired (hP : P.Sound) {as : List Action}
    (hallowed : AllowedSteps Observed.step
      (Observed.Allowed (P.histBufferSize - 2 * P.maxHist)) (Observed.init P) as) :
    ∃ o, runSteps Observed.step (Observed.init P) as = some o ∧ (∀ i kind, o.hist.comp i kind =
        fold 32 (P.compLength i kind) (outcomes o.branches) (P.histLengths i)) ∧
      ∀ i < P.maxHist, o.hist.globalHistory (o.hist.ptGhist + i) = outcomes o.branches i := by
  obtain ⟨o, hrun, hinv⟩ := AllowedSteps.run (fun _ a h ha => Inv.step hP h a ha) (inv_init P)
    hallowed
  exact ⟨o, hrun, hinv.comp, hinv.current⟩

/-- Two tables with histories of 2 and 3 outcomes, in a buffer of 8. -/
def small : Params :=
  { nHistoryTables := 2, histBufferSize := 8, maxHist := 3, fits := by decide
    histLengths := fun i => i + 2, logTagTableSizes := fun _ => 2, tagTableTagWidths := fun _ => 3
    pathHistBits := 4, instShiftAmt := 2, speculativeHistUpdate := true }

theorem small_sound : small.Sound := ⟨rfl, by decide, by decide, by decide, by decide⟩

/-- The sixth update rolls over, and the fifth branch is squashed after it. -/
theorem history_repaired_rollOver : ∃ o, runSteps Observed.step (Observed.init small)
      [.update 4 true, .update 8 false, .update 12 true, .update 16 true, .update 20 true,
        .update 24 false, .squash 1 false] = some o ∧ (∀ i kind, o.hist.comp i kind =
      fold 32 (small.compLength i kind) (outcomes o.branches) (small.histLengths i)) ∧
    ∀ i < small.maxHist, o.hist.globalHistory (o.hist.ptGhist + i) = outcomes o.branches i :=
  history_repaired small_sound (by decide +kernel)

/-- One table with a history of 1 outcome folded to `width` bits, in a buffer of 3. -/
def tight (width : ℕ) : Params :=
  { nHistoryTables := 1, histBufferSize := 3, maxHist := 1, fits := by decide
    histLengths := fun _ => 1, logTagTableSizes := fun _ => width, tagTableTagWidths := fun _ => 2
    pathHistBits := 4, instShiftAmt := 2, speculativeHistUpdate := true }

/-- When `histBufferSize - 2 * maxHist` updates have followed a branch, the outcome before it
may be overwritten; and a folded history of 32 bits has no defined update. -/
theorem tight_not_repaired : ((tight 1).Sound ∧
      AllowedSteps Observed.step (Observed.Allowed (3 - 2 * 1 + 1)) (Observed.init (tight 1))
        [.update 4 true, .update 8 false, .update 12 false, .squash 1 false] ∧
      ∃ o, runSteps Observed.step (Observed.init (tight 1))
          [.update 4 true, .update 8 false, .update 12 false, .squash 1 false] = some o ∧
        o.hist.comp (0 : Fin 1) .index ≠ fold 32 1 (outcomes o.branches) 1) ∧
    (Observed.init (tight 32)).step (.update 4 true) = none := by
  refine ⟨⟨⟨rfl, by decide, by decide, by decide, by decide⟩, by decide +kernel, ?_⟩, ?_⟩
  · exact ⟨_, rfl, by decide +kernel⟩
  · rfl

end TAGE
