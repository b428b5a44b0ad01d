/-
# Physical memory protection

`arch/riscv/pmp.cc`.  An entry of the table has a configuration byte, the raw value of its
address register and the range decoded from these; in top-of-range mode the range starts at the
address register of the entry before.  A write to a register is refused when the entry is
locked, a write to an address register also when the next entry is locked and in top-of-range mode.

`pmpCheck` asks the first active entry that has both ends of the access.
-/
import Gem5.AddrRange

open Function List BitVec

namespace PMP

/-- The address matching modes. -/
inductive PmpAmatch
  | off
  | tor
  | na4
  | napot
  deriving DecidableEq

inductive Mode
  | read
  | write
  | execute
  deriving DecidableEq

inductive PrivilegeMode
  | prvU
  | prvS
  | prvM
  deriving DecidableEq

inductive ExceptionCode
  | loadAccess
  | storeAccess
  | instAccess

def pmpRead : BitVec 8 := 1 <<< 0

def pmpWrite : BitVec 8 := 1 <<< 1

def pmpExec : BitVec 8 := 1 <<< 2

def pmpAMask : BitVec 8 := 3 <<< 3

def pmpLock : BitVec 8 := 1 <<< 7

def pmpGetAField (cfg : BitVec 8) : PmpAmatch :=
  match ((cfg >>> 3) &&& 3).toNat with
  | 0 => .off
  | 1 => .tor
  | 2 => .na4
  | _ => .napot

structure PmpEntry where
  pmpAddr : AddrRange
  rawAddr : Addr
  pmpCfg : BitVec 8

/-- The unit; `pmpTable` has `pmpEntries` entries. -/
structure Unit (pmpEntries : ℕ) where
  pmpTable : Fin pmpEntries → PmpEntry
  numRules : ℕ
  hasLockEntry : Bool
  /-- What `1ULL << n` gives from 64 on, where it is undefined: any value. -/
  wideShift : Addr

/-- The range of a naturally aligned power of two. -/
def pmpDecodeNapot (wideShift pmpaddr : Addr) : AddrRange :=
  if pmpaddr = -1 then .ofBounds 0 (-1)
  else
    let t1 := ctz64 (~~~ pmpaddr)
    let range : Addr := if t1 + 3 < 64 then 1 <<< (t1 + 3) else wideShift
    let base := mbits pmpaddr 63 t1 <<< 2
    .ofBounds base (base + range)

/-- The range of an entry: the `switch` of `pmpUpdateRule`. -/
def decode (wideShift : Addr) (thisCfg : BitVec 8) (prevAddr thisAddr : Addr) : AddrRange :=
  match pmpGetAField thisCfg with
  | .off => .ofBounds 0 0
  | .tor => .ofBounds (prevAddr <<< 2) (thisAddr <<< 2)
  | .na4 => .ofBounds (thisAddr <<< 2) ((thisAddr <<< 2) + 4)
  | .napot => pmpDecodeNapot wideShift thisAddr

variable {pmpEntries : ℕ}

/-- The constructor. -/
def init (pmpEntries : ℕ) (wideShift : Addr) : Unit pmpEntries :=
  ⟨fun _ => ⟨.ofBounds 0 0, 0, 0⟩, 0, false, wideShift⟩

namespace Unit

variable (m : Unit pmpEntries) (i : Fin pmpEntries)

def active : Bool := pmpGetAField (m.pmpTable i).pmpCfg != .off

def locked : Bool := (m.pmpTable i).pmpCfg &&& pmpLock != 0

def prevAddr : Addr :=
  if 1 ≤ i.val then (m.pmpTable ⟨i - 1, by omega⟩).rawAddr else 0

def decoded : AddrRange :=
  decode m.wideShift (m.pmpTable i).pmpCfg (m.prevAddr i) (m.pmpTable i).rawAddr

def pmpUpdateRule : Unit pmpEntries :=
  { m with
    pmpTable := update m.pmpTable i { m.pmpTable i with pmpAddr := m.decoded i }
    numRules := (List.finRange pmpEntries).countP m.active
    hasLockEntry := (List.finRange pmpEntries).any m.locked }

def setCfg (cfg : BitVec 8) : Unit pmpEntries :=
  { m with pmpTable := update m.pmpTable i { m.pmpTable i with pmpCfg := cfg } }

def pmpUpdateCfg (pmpIndex : ℕ) (thisCfg : BitVec 8) : Bool × Unit pmpEntries :=
  if h : pmpIndex < pmpEntries then
    if m.locked ⟨pmpIndex, h⟩ then (false, m)
    else (true, (m.setCfg ⟨pmpIndex, h⟩ thisCfg).pmpUpdateRule ⟨pmpIndex, h⟩)
  else (false, m)

def setRawAddr (addr : Addr) : Unit pmpEntries :=
  { m with pmpTable := update m.pmpTable i { m.pmpTable i with rawAddr := addr } }

/-- The next entry is locked and starts at this one's address register. -/
def nextLocked : Bool :=
  if h : i.val + 1 < pmpEntries then
    m.locked ⟨i + 1, h⟩ && pmpGetAField (m.pmpTable ⟨i + 1, h⟩).pmpCfg == .tor
  else false

def pmpUpdateAddr (pmpIndex : ℕ) (thisAddr : Addr) : Bool × Unit pmpEntries :=
  if h : pmpIndex < pmpEntries then
    if m.locked ⟨pmpIndex, h⟩ then (false, m)
    else if m.nextLocked ⟨pmpIndex, h⟩ then (false, m)
    else (true, (List.finRange pmpEntries).foldl pmpUpdateRule (m.setRawAddr ⟨pmpIndex, h⟩ thisAddr))
  else (false, m)

def pmpReset : Unit pmpEntries :=
  (List.finRange pmpEntries).foldl
    (fun m i => (m.setCfg i ((m.pmpTable i).pmpCfg &&& ~~~ (pmpAMask ||| pmpLock))).pmpUpdateRule i) m

def shouldCheckPMP (pmode : PrivilegeMode) : Bool :=
  m.numRules != 0 && (pmode != .prvM || m.hasLockEntry)

end Unit

/-- What `pmpCheck` reads of a request; a page table walk has no `vaddr`. -/
structure Request where
  paddr : Addr
  size : ℕ
  vaddr : Option Addr
  /-- All of its bytes have an address. -/
  fits : paddr.toNat + size ≤ 2 ^ 64

structure AddressFault where
  vaddr : Addr
  code : ExceptionCode

def createAddrfault (vaddr : Addr) (mode : Mode) : AddressFault :=
  ⟨vaddr, match mode with
    | .read => .loadAccess
    | .write => .storeAccess
    | .execute => .instAccess⟩

/-- The permission an entry gives. -/
def allows (thisCfg : BitVec 8) (mode : Mode) (pmode : PrivilegeMode) : Bool :=
  if pmode = .prvM ∧ pmpLock &&& thisCfg = 0 then true
  else if mode = .read ∧ pmpRead &&& thisCfg ≠ 0 then true
  else if mode = .write ∧ pmpWrite &&& thisCfg ≠ 0 then true
  else if mode = .execute ∧ pmpExec &&& thisCfg ≠ 0 then true
  else false

namespace Unit

variable (m : Unit pmpEntries) (req : Request) (mode : Mode) (pmode : PrivilegeMode)

/-- An entry that has both ends of the access. -/
def hasEnds (i : Fin pmpEntries) : Bool :=
  (m.pmpTable i).pmpAddr.contains req.paddr &&
    (m.pmpTable i).pmpAddr.contains (req.paddr + BitVec.ofNat 64 req.size - 1)

/-- The loop over the entries; `matchIndex` is the last one that had both ends. -/
def checkLoop (fault : AddressFault) :
    List (Fin pmpEntries) → Option (Fin pmpEntries) → Option AddressFault
  | [], _ => if pmode = .prvM then none else some fault
  | i :: rest, matchIndex =>
    match if m.hasEnds req i then some i else matchIndex with
    | none => checkLoop fault rest none
    | some k =>
      if m.active k then if allows (m.pmpTable k).pmpCfg mode pmode then none else some fault
      else checkLoop fault rest (some k)

/-- `none` is `NoFault`. -/
def pmpCheck (vaddr : Addr) : Option AddressFault :=
  if m.shouldCheckPMP pmode then
    m.checkLoop req mode pmode (createAddrfault (req.vaddr.getD vaddr) mode)
      (List.finRange pmpEntries) none
  else none

end Unit

/-! ## Register writes and resets -/

inductive Action
  | updateCfg (pmpIndex : ℕ) (thisCfg : BitVec 8)
  | updateAddr (pmpIndex : ℕ) (thisAddr : Addr)
  | reset

section

variable (m : Unit pmpEntries)

def step : Action → Unit pmpEntries
  | .updateCfg pmpIndex thisCfg => (m.pmpUpdateCfg pmpIndex thisCfg).2
  | .updateAddr pmpIndex thisAddr => (m.pmpUpdateAddr pmpIndex thisAddr).2
  | .reset => m.pmpReset

def run (as : List Action) : Unit pmpEntries := as.foldl step m

/-- `numRules` and `hasLockEntry` are those of the configurations. -/
def Summed : Prop :=
  m.numRules = (List.finRange pmpEntries).countP m.active ∧
    m.hasLockEntry = (List.finRange pmpEntries).any m.locked

end

/-- The ranges and the summaries are those of the registers. -/
structure Fresh (m : Unit pmpEntries) : Prop where
  pmpAddr : ∀ i, (m.pmpTable i).pmpAddr = m.decoded i
  summed : Summed m

variable {m m' : Unit pmpEntries} {i j : Fin pmpEntries}

/-- The registers of two units agree. -/
def SameRegs (m m' : Unit pmpEntries) : Prop :=
  ∀ i, (m.pmpTable i).pmpCfg = (m'.pmpTable i).pmpCfg ∧
    (m.pmpTable i).rawAddr = (m'.pmpTable i).rawAddr ∧ m.wideShift = m'.wideShift

theorem SameRegs.trans {m'' : Unit pmpEntries} (h : SameRegs m m') (h' : SameRegs m' m'') :
    SameRegs m m'' :=
  fun i => ⟨(h i).1.trans (h' i).1, (h i).2.1.trans (h' i).2.1, (h i).2.2.trans (h' i).2.2⟩

theorem SameRegs.decoded (h : SameRegs m m') (i : Fin pmpEntries) : m.decoded i = m'.decoded i := by
  simp only [Unit.decoded, Unit.prevAddr, (h _).1, (h _).2.1, (h i).2.2]

/-- A write that keeps a part of its entry keeps that part of the table. -/
theorem proj_update {β : Type*} (f : PmpEntry → β) {t : Fin pmpEntries → PmpEntry}
    {i : Fin pmpEntries} {e : PmpEntry} (h : f e = f (t i)) (j : Fin pmpEntries) :
    f (update t i e j) = f (t j) := by
  rw [apply_update fun _ => f, h, update_eq_self]

theorem sameRegs_updateRule (i : Fin pmpEntries) : SameRegs (m.pmpUpdateRule i) m :=
  fun j => ⟨proj_update PmpEntry.pmpCfg (by rfl) j, proj_update PmpEntry.rawAddr (by rfl) j, rfl⟩

/-- After its rule an entry is decoded; the ranges of the others are left alone. -/
theorem pmpAddr_updateRule (i j : Fin pmpEntries) : ((m.pmpUpdateRule i).pmpTable j).pmpAddr =
    if j = i then m.decoded i else (m.pmpTable j).pmpAddr := by
  simp only [Unit.pmpUpdateRule, update_apply, apply_ite PmpEntry.pmpAddr]

/-- A rule brings the summaries up to date. -/
theorem summed_updateRule (i : Fin pmpEntries) : Summed (m.pmpUpdateRule i) := by
  unfold Summed Unit.active Unit.locked
  simp only [(sameRegs_updateRule i _).1]
  exact ⟨rfl, rfl⟩

/-- The rules of a list of entries. -/
theorem foldl_updateRule (h : Summed m) (l : List (Fin pmpEntries)) :
    SameRegs (l.foldl Unit.pmpUpdateRule m) m ∧ Summed (l.foldl Unit.pmpUpdateRule m) ∧
      ∀ j, ((l.foldl Unit.pmpUpdateRule m).pmpTable j).pmpAddr =
        if j ∈ l then m.decoded j else (m.pmpTable j).pmpAddr := by
  induction l using reverseRecOn with
  | nil => exact ⟨fun _ => ⟨rfl, rfl, rfl⟩, h, fun _ => rfl⟩
  | append_singleton l i ih =>
    obtain ⟨hregs, -, hranges⟩ := ih
    rw [foldl_concat]
    refine ⟨(sameRegs_updateRule i).trans hregs, summed_updateRule i, fun j => ?_⟩
    rw [pmpAddr_updateRule, hranges, hregs.decoded]
    by_cases h : j = i <;> simp [h]

/-! ## Configuration writes -/

theorem pmpTable_setCfg (h : j ≠ i) (cfg : BitVec 8) : (m.setCfg i cfg).pmpTable j = m.pmpTable j :=
  update_of_ne h ..

/-- No other range depends on a configuration. -/
theorem decoded_setCfg (h : j ≠ i) (cfg : BitVec 8) : (m.setCfg i cfg).decoded j = m.decoded j := by
  have hraw : ∀ k, ((m.setCfg i cfg).pmpTable k).rawAddr = (m.pmpTable k).rawAddr :=
    proj_update PmpEntry.rawAddr rfl
  simp only [Unit.decoded, Unit.prevAddr, hraw, pmpTable_setCfg h]
  rfl

theorem Fresh.setCfg (h : Fresh m) (i : Fin pmpEntries) (cfg : BitVec 8) :
    Fresh ((m.setCfg i cfg).pmpUpdateRule i) := by
  refine ⟨fun j => ?_, summed_updateRule i⟩
  rw [pmpAddr_updateRule, (sameRegs_updateRule i).decoded]
  by_cases hj : j = i
  · rw [if_pos hj, hj]
  · rw [if_neg hj, decoded_setCfg hj, pmpTable_setCfg hj, h.pmpAddr j]

/-! ## Address writes -/

theorem cfg_setRawAddr (i j : Fin pmpEntries) (addr : Addr) :
    ((m.setRawAddr i addr).pmpTable j).pmpCfg = (m.pmpTable j).pmpCfg :=
  proj_update PmpEntry.pmpCfg (by rfl) j

theorem Fresh.summed_setRawAddr (h : Fresh m) (i : Fin pmpEntries) (addr : Addr) :
    Summed (m.setRawAddr i addr) := by
  unfold Summed Unit.active Unit.locked
  simp only [cfg_setRawAddr]
  exact h.summed

/-- All entries are decoded again. -/
theorem Fresh.setRawAddr (h : Fresh m) (i : Fin pmpEntries) (addr : Addr) :
    Fresh ((List.finRange pmpEntries).foldl Unit.pmpUpdateRule (m.setRawAddr i addr)) := by
  obtain ⟨hregs, hsummed, hranges⟩ :=
    foldl_updateRule (h.summed_setRawAddr i addr) (finRange pmpEntries)
  refine ⟨fun j => ?_, hsummed⟩
  rw [hranges, if_pos (mem_finRange j), hregs.decoded]

/-- A range that does not start at the entry before, or whose entry before is another one,
does not depend on an address register that is not its own. -/
theorem decoded_setRawAddr (hne : j ≠ i) (addr : Addr)
    (hprev : i.val + 1 = j.val → pmpGetAField (m.pmpTable j).pmpCfg ≠ .tor) :
    (m.setRawAddr i addr).decoded j = m.decoded j := by
  have hother : ∀ k ≠ i, (m.setRawAddr i addr).pmpTable k = m.pmpTable k := fun k hk =>
    update_of_ne hk ..
  unfold Unit.decoded
  rw [hother j hne]
  by_cases hnext : i.val + 1 = j.val
  · have htor := hprev hnext
    unfold decode
    split <;> first | rfl | contradiction
  · have hsame : (m.setRawAddr i addr).prevAddr j = m.prevAddr j := by
      unfold Unit.prevAddr
      split
      · rw [hother]
        intro heq
        have hval := congrArg Fin.val heq
        simp only at hval
        omega
      · rfl
    rw [hsame]
    rfl

/-! ## Runs -/

theorem fresh_init (pmpEntries : ℕ) (wideShift : Addr) : Fresh (init pmpEntries wideShift) := by
  have hoff : pmpGetAField 0#8 = .off := by decide
  refine ⟨fun i => ?_, ?_, ?_⟩
  · simp [Unit.decoded, decode, init, hoff]
  · exact (countP_eq_zero.mpr fun i _ => by simp [Unit.active, init, hoff]).symm
  · simp [Unit.locked, init]

theorem Fresh.step (h : Fresh m) (a : Action) : Fresh (step m a) := by
  cases a with
  | updateCfg pmpIndex thisCfg =>
    simp only [PMP.step, Unit.pmpUpdateCfg]
    split_ifs
    · exact h
    · exact h.setCfg _ _
    · exact h
  | updateAddr pmpIndex thisAddr =>
    simp only [PMP.step, Unit.pmpUpdateAddr]
    split_ifs
    · exact h
    · exact h
    · exact h.setRawAddr _ _
    · exact h
  | reset =>
    have hfold : ∀ (l : List (Fin pmpEntries)) (m : Unit pmpEntries), Fresh m → Fresh (l.foldl
        (fun m i => (m.setCfg i ((m.pmpTable i).pmpCfg &&& ~~~ (pmpAMask ||| pmpLock))).pmpUpdateRule
          i) m) := by
      intro l
      induction l with
      | nil => exact fun _ h => h
      | cons i l ih => exact fun m h => ih _ (h.setCfg i _)
    exact hfold _ m h

theorem Fresh.run (h : Fresh m) (as : List Action) : Fresh (run m as) := by
  induction as generalizing m with
  | nil => exact h
  | cons a as ih => exact ih (h.step a)

/-- Neither kind of write changes a locked entry. -/
theorem Fresh.keeps_locked (h : Fresh m) (hlock : m.locked i = true)
    {a : Action} (ha : a ≠ .reset) : ((PMP.step m a).pmpTable i).pmpCfg = (m.pmpTable i).pmpCfg ∧
      ((PMP.step m a).pmpTable i).pmpAddr = (m.pmpTable i).pmpAddr := by
  cases a with
  | updateCfg pmpIndex thisCfg =>
    simp only [PMP.step, Unit.pmpUpdateCfg]
    split_ifs with hrange hrefused
    · exact ⟨rfl, rfl⟩
    · have hne : i ≠ ⟨pmpIndex, hrange⟩ := fun heq => hrefused (heq ▸ hlock)
      rw [pmpAddr_updateRule, if_neg hne, (sameRegs_updateRule _ i).1, pmpTable_setCfg hne]
      exact ⟨rfl, rfl⟩
    · exact ⟨rfl, rfl⟩
  | updateAddr pmpIndex thisAddr =>
    simp only [PMP.step, Unit.pmpUpdateAddr]
    split_ifs with hrange hrefused hnext
    · exact ⟨rfl, rfl⟩
    · exact ⟨rfl, rfl⟩
    · have hne : i ≠ ⟨pmpIndex, hrange⟩ := fun heq => hrefused (heq ▸ hlock)
      obtain ⟨hregs, -, hranges⟩ := foldl_updateRule
        (h.summed_setRawAddr ⟨pmpIndex, hrange⟩ thisAddr) (finRange pmpEntries)
      refine ⟨(hregs i).1.trans (cfg_setRawAddr ..), ?_⟩
      rw [hranges, if_pos (mem_finRange i), decoded_setRawAddr hne, h.pmpAddr i]
      -- the write before a locked top-of-range entry would have been refused
      intro hval htor
      have hlt : pmpIndex + 1 < pmpEntries := hval ▸ i.isLt
      have heq : (⟨pmpIndex + 1, hlt⟩ : Fin pmpEntries) = i := Fin.ext hval
      apply hnext
      rw [Unit.nextLocked, dif_pos hlt]
      simp [heq, hlock, htor]
    · exact ⟨rfl, rfl⟩
  | reset => exact absurd rfl ha

theorem Fresh.run_keeps_locked (h : Fresh m) (hlock : m.locked i = true)
    {as : List Action} (has : ∀ a ∈ as, a ≠ .reset) :
    ((PMP.run m as).pmpTable i).pmpCfg = (m.pmpTable i).pmpCfg ∧
      ((PMP.run m as).pmpTable i).pmpAddr = (m.pmpTable i).pmpAddr := by
  induction as generalizing m with
  | nil => exact ⟨rfl, rfl⟩
  | cons a as ih =>
    obtain ⟨hcfg, haddr⟩ := h.keeps_locked hlock (has a mem_cons_self)
    have hlock' : (PMP.step m a).locked i = true := by rwa [Unit.locked, hcfg]
    obtain ⟨hcfg', haddr'⟩ := ih (h.step a) hlock' fun b hb => has b (mem_cons_of_mem a hb)
    exact ⟨hcfg'.trans hcfg, haddr'.trans haddr⟩

/-- **Ranges are never stale and locked entries never change.**  After any sequence of writes
and resets every range is the decoded one, and an entry that is locked keeps its configuration
and its range until the next reset. -/
theorem locked_immutable (pmpEntries : ℕ) (wideShift : Addr) (as : List Action) :
    let m := run (init pmpEntries wideShift) as
    (∀ i, (m.pmpTable i).pmpAddr = m.decoded i) ∧
    ∀ i, m.locked i = true → ∀ bs, (∀ a ∈ bs, a ≠ .reset) →
      ((run m bs).pmpTable i).pmpCfg = (m.pmpTable i).pmpCfg ∧
        ((run m bs).pmpTable i).pmpAddr = (m.pmpTable i).pmpAddr := by
  have hfresh := (fresh_init pmpEntries wideShift).run as
  exact ⟨hfresh.pmpAddr, fun i hlock bs hbs => hfresh.run_keeps_locked hlock hbs⟩

/-- A locked top-of-range entry, and writes to it and to the address register before it. -/
theorem locked_immutable_tor :
    ((run (init 2 0) [.updateAddr 1 8, .updateCfg 1 0x88#8, .updateAddr 0 4,
      .updateCfg 1 0#8]).pmpTable 1).pmpAddr =
      ((run (init 2 0) [.updateAddr 1 8, .updateCfg 1 0x88#8]).pmpTable 1).pmpAddr :=
  ((locked_immutable 2 0 [.updateAddr 1 8, .updateCfg 1 0x88#8]).2 1 (by decide)
    [.updateAddr 0 4, .updateCfg 1 0#8] (by simp)).2

/-! ## Checks -/

variable {req : Request} {mode : Mode} {pmode : PrivilegeMode}

section

variable (m : Unit pmpEntries)

/-- The first active entry that has a byte. -/
def Unit.firstMatch (a : Addr) : Option (Fin pmpEntries) :=
  (List.finRange pmpEntries).find? fun i => m.active i && (m.pmpTable i).pmpAddr.contains a

/-- The first active entry that has both ends of an access. -/
def Unit.deciding (req : Request) : Option (Fin pmpEntries) :=
  (List.finRange pmpEntries).find? fun i => m.active i && m.hasEnds req i

/-- What an entry permits, and M mode where there is none. -/
def Unit.permits (mode : Mode) (pmode : PrivilegeMode) : Option (Fin pmpEntries) → Bool
  | none => pmode = .prvM
  | some i => allows (m.pmpTable i).pmpCfg mode pmode

/-- The bytes of an access that passes are permitted by their first entries. -/
def Sound (req : Request) (mode : Mode) (pmode : PrivilegeMode) : Prop :=
  ∀ vaddr, m.pmpCheck req mode pmode vaddr = none →
    ∀ k < req.size, m.permits mode pmode (m.firstMatch (req.paddr + BitVec.ofNat 64 k)) = true

/-- No entry that has a part of the access only, and is the first to have some byte of it,
forbids it, unless the entry that decides forbids it as well. -/
def NoOverride (req : Request) (mode : Mode) (pmode : PrivilegeMode) : Prop :=
  ∀ k < req.size, ∀ i, m.firstMatch (req.paddr + BitVec.ofNat 64 k) = some i →
    m.hasEnds req i = false → allows (m.pmpTable i).pmpCfg mode pmode = false →
    m.permits mode pmode (m.deciding req) = false

end

theorem contains_ofBounds (lo hi a : Addr) :
    (AddrRange.ofBounds lo hi).contains a = decide (lo ≤ a ∧ a < hi) := by
  simp [AddrRange.contains, AddrRange.ofBounds, AddrRange.selLoop]

/-- Decoded ranges are intervals, and empty for inactive entries. -/
theorem Fresh.contains (h : Fresh m) (i : Fin pmpEntries) : ∃ lo hi : Addr,
    (m.active i = false → hi = 0) ∧
      ∀ a, (m.pmpTable i).pmpAddr.contains a = decide (lo ≤ a ∧ a < hi) := by
  rw [h.pmpAddr i]
  unfold Unit.decoded decode Unit.active pmpDecodeNapot
  split
  · exact ⟨0, 0, fun _ => rfl, contains_ofBounds _ _⟩
  · exact ⟨_, _, fun hoff => by simp [*] at hoff, contains_ofBounds _ _⟩
  · exact ⟨_, _, fun hoff => by simp [*] at hoff, contains_ofBounds _ _⟩
  · split
    · exact ⟨_, _, fun hoff => by simp [*] at hoff, contains_ofBounds _ _⟩
    · exact ⟨_, _, fun hoff => by simp [*] at hoff, contains_ofBounds _ _⟩

/-- An inactive entry never has both ends, so the loop stops at the entry that decides. -/
theorem Fresh.checkLoop_eq_none_iff (h : Fresh m) {fault : AddressFault}
    (l : List (Fin pmpEntries)) : m.checkLoop req mode pmode fault l none = none ↔
      m.permits mode pmode (l.find? fun i => m.active i && m.hasEnds req i) = true := by
  induction l with
  | nil => simp [Unit.checkLoop, Unit.permits]
  | cons i l ih =>
    have hactive : m.hasEnds req i = true → m.active i = true := by
      intro hends
      obtain ⟨lo, hi, hempty, hcontains⟩ := h.contains i
      by_contra hoff
      rw [Bool.not_eq_true] at hoff
      simp [Unit.hasEnds, hcontains, hempty hoff] at hends
    rw [Unit.checkLoop, find?_cons]
    cases hends : m.hasEnds req i with
    | false => simpa using ih
    | true => simp [hactive hends, Unit.permits]

theorem Fresh.pmpCheck_eq_none_iff (h : Fresh m) (hrule : ∃ i, m.active i = true) {vaddr : Addr} :
    m.pmpCheck req mode pmode vaddr = none ↔ m.permits mode pmode (m.deciding req) = true := by
  unfold Unit.pmpCheck
  split
  · exact h.checkLoop_eq_none_iff _
  · rename_i hskip
    -- M mode, and no entry is locked
    have hrules : m.numRules ≠ 0 := by
      rw [h.summed.1]
      obtain ⟨i, hi⟩ := hrule
      exact (countP_pos_iff.mpr ⟨i, mem_finRange i, hi⟩).ne'
    have hskip' : pmode = .prvM ∧ m.hasLockEntry = false := by
      simpa [Unit.shouldCheckPMP, hrules] using hskip
    have hunlocked : ∀ i, pmpLock &&& (m.pmpTable i).pmpCfg = 0 := by
      intro i
      have hany := h.summed.2.symm.trans hskip'.2
      rw [any_eq_false] at hany
      rw [BitVec.and_comm]
      simpa [Unit.locked] using hany i (mem_finRange i)
    apply iff_of_true rfl
    cases m.deciding req with
    | none => simp [Unit.permits, hskip'.1]
    | some i => simp [Unit.permits, allows, hskip'.1, hunlocked]

/-- **The shortcut agrees with the entries**, after any writes and resets. -/
theorem run_pmpCheck_eq_none_iff (wideShift : Addr) (as : List Action) (vaddr : Addr) :
    let m : Unit pmpEntries := run (init pmpEntries wideShift) as
    m.pmpCheck req mode pmode vaddr = none ↔
      (∀ i, m.active i = false) ∨ m.permits mode pmode (m.deciding req) = true := by
  intro m
  have h : Fresh m := (fresh_init pmpEntries wideShift).run as
  by_cases hrule : ∃ i, m.active i = true
  · rw [h.pmpCheck_eq_none_iff hrule, or_iff_right (by simpa using hrule)]
  · simp_all [Unit.pmpCheck, Unit.shouldCheckPMP, h.summed.1]

/-- Two first elements that also have each other's property are the same. -/
theorem find?_unique {α : Type*} {p q : α → Bool} {l : List α} {a b : α}
    (ha : l.find? p = some a) (hb : l.find? q = some b) (hpb : p b) (hqa : q a) : a = b := by
  induction l with
  | nil => cases ha
  | cons c l ih =>
    rw [find?_cons] at ha hb
    split at ha <;> split at hb <;> simp_all

/-- An interval that has both ends of an access has its bytes. -/
theorem Fresh.contains_byte (h : Fresh m) (hends : m.hasEnds req i = true)
    {k : ℕ} (hk : k < req.size) :
    (m.pmpTable i).pmpAddr.contains (req.paddr + BitVec.ofNat 64 k) = true := by
  obtain ⟨lo, hi, -, hcontains⟩ := h.contains i
  have hfits := req.fits
  have hone : (1 : Addr).toNat = 1 := rfl
  simp only [Unit.hasEnds, hcontains, Bool.and_eq_true, decide_eq_true_eq, le_def,
    lt_def, toNat_sub, toNat_add, toNat_ofNat] at hends ⊢
  omega

/-- Below the entry that decides, the first entry of a byte has a part of the access only. -/
theorem Fresh.permits_byte (h : Fresh m) (hpass : m.permits mode pmode (m.deciding req) = true)
    {k : ℕ} (hk : k < req.size)
    (hpart : ∀ i, m.firstMatch (req.paddr + BitVec.ofNat 64 k) = some i →
      m.hasEnds req i = false → allows (m.pmpTable i).pmpCfg mode pmode = true) :
    m.permits mode pmode (m.firstMatch (req.paddr + BitVec.ofNat 64 k)) = true := by
  have hbyte : ∀ {j}, m.deciding req = some j →
      (m.active j && (m.pmpTable j).pmpAddr.contains (req.paddr + BitVec.ofNat 64 k)) = true := by
    intro j hdec
    obtain ⟨hactive, hends⟩ : m.active j = true ∧ m.hasEnds req j = true := by
      simpa using find?_some hdec
    rw [hactive, h.contains_byte hends hk]
    rfl
  cases hfirst : m.firstMatch (req.paddr + BitVec.ofNat 64 k) with
  | none =>
    cases hdec : m.deciding req with
    | none => rwa [hdec] at hpass
    | some j => exact absurd (hbyte hdec) (find?_eq_none.mp hfirst j (mem_finRange j))
  | some i =>
    cases hends : m.hasEnds req i with
    | false => exact hpart i hfirst hends
    | true =>
      have hi : m.active i = true := by
        have hi := find?_some hfirst
        simp only [Bool.and_eq_true] at hi
        exact hi.1
      cases hdec : m.deciding req with
      | none =>
        have hnone := find?_eq_none.mp hdec i (mem_finRange i)
        simp [hi, hends] at hnone
      | some j =>
        have heq : i = j := find?_unique hfirst hdec (hbyte hdec) (by simp [hi, hends])
        rwa [hdec, ← heq] at hpass

/-- **Every byte is protected, up to entries that have a part of the access.**  In every table
with an active rule that writes and resets lead to, the bytes of an access that passes are
permitted by their first entries just when no entry is overridden. -/
theorem pmpCheck_sound_iff (wideShift : Addr) (as : List Action)
    (hrule : ∃ i, (run (init pmpEntries wideShift) as).active i = true) (req : Request)
    (mode : Mode) (pmode : PrivilegeMode) :
    Sound (run (init pmpEntries wideShift) as) req mode pmode ↔
      NoOverride (run (init pmpEntries wideShift) as) req mode pmode := by
  have hfresh := (fresh_init pmpEntries wideShift).run as
  generalize run (init pmpEntries wideShift) as = m at hfresh hrule
  constructor
  · intro hsound k hk i hfirst _ hforbid
    by_contra hpermits
    have hpass : m.pmpCheck req mode pmode 0 = none :=
      (hfresh.pmpCheck_eq_none_iff hrule).mpr (by simpa using hpermits)
    have hbyte := hsound 0 hpass k hk
    rw [hfirst] at hbyte
    exact absurd (hbyte.symm.trans hforbid) (by simp)
  · intro hcond vaddr hpass k hk
    rw [hfresh.pmpCheck_eq_none_iff hrule] at hpass
    refine hfresh.permits_byte hpass hk fun i hfirst hends => ?_
    by_contra hforbid
    have hnot := hcond k hk i hfirst hends (by simpa using hforbid)
    exact absurd (hpass.symm.trans hnot) (by simp)

/-- Entry 0 has the first four bytes and forbids reads, entry 1 has eight bytes and permits them. -/
def overlapping : List Action := [.updateCfg 0 0x10#8, .updateCfg 1 0x19#8]

/-- A read inside of entry 0 is refused. -/
theorem pmpCheck_sound_inside : Sound (run (init 2 0) overlapping) ⟨0, 4, none, by decide⟩ .read .prvS :=
  (pmpCheck_sound_iff 0 overlapping ⟨0, by decide⟩ _ .read .prvS).mpr
    (by unfold NoOverride; decide)

/-- A read of all eight bytes passes. -/
theorem pmpCheck_overrides : (∃ i, (run (init 2 0) overlapping).active i = true) ∧
    ¬ Sound (run (init 2 0) overlapping) ⟨0, 8, none, by decide⟩ .read .prvS :=
  ⟨⟨0, by decide⟩, fun h => absurd (h 0 (by decide) 0 (by decide)) (by decide)⟩

end PMP
