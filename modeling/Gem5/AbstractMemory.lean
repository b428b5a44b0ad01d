/-
# Load-linked and store-conditional in memory

`mem/abstract_mem.cc`: a memory keeps a list of reservations, at most one for each context,
by the address of the 16 byte granule that its load-linked was to.  A store removes the
reservations of the granule of its first byte.
-/
import Gem5.Run

open List
open Option hiding any_eq_true

namespace AbstractMemory

/-- `LockedAddr::mask`: the granule of an address. -/
def mask (paddr : ℕ) : ℕ := paddr / 16 * 16

structure LockedAddr where
  addr : ℕ
  contextId : ℕ
  deriving DecidableEq

/-- What a packet asks for.  A read or write with a context is a load-linked or a
store-conditional; a conditional swap has the value to compare with. -/
inductive Cmd
  | read (llsc : Option ℕ)
  | write (llsc : Option ℕ)
  | swap (cond : Option ℕ)
  | atomic (op : (ℕ → UInt8) → ℕ → UInt8)
  /-- Invalidations and cleanings. -/
  | maintain
  /-- A cache responds, or a clean block is evicted. -/
  | ignored

structure Packet where
  cmd : Cmd
  /-- Both `pkt->getAddr()` and `req->getPaddr()`. -/
  addr : ℕ
  size : ℕ
  data : ℕ → UInt8 := fun _ => 0
  byteEnable : ℕ → Bool := fun _ => true

structure Params where
  start : ℕ
  endAddr : ℕ
  writeable : Bool

structure State where
  lockedAddrList : List LockedAddr := []
  mem : ℕ → UInt8 := fun _ => 0

namespace Packet

variable (pkt : Packet)

/-- Only plain writes are masked. -/
def byteEnabled (i : ℕ) : Bool :=
  match pkt.cmd with
  | .write none => pkt.byteEnable i
  | _ => true

/-- `writeData`, into the memory at the address of the packet. -/
def writeData (mem : ℕ → UInt8) : ℕ → UInt8 := fun a =>
  if pkt.addr ≤ a ∧ a < pkt.addr + pkt.size ∧ pkt.byteEnabled (a - pkt.addr) = true then
    pkt.data (a - pkt.addr)
  else mem a

/-- Whether a swap overwrites the memory; a conditional one must have 8 or 4 bytes. -/
def overwriteMem (mem : ℕ → UInt8) : Option ℕ → Option Bool
  | none => some true
  | some value =>
    if pkt.size = 8 ∨ pkt.size = 4 then
      some (decide (∀ i < pkt.size, (mem (pkt.addr + i)).toNat = value / 256 ^ i % 256))
    else none

end Packet

/-- The first record of the context gets the address, if there is one. -/
def relock (c paddr : ℕ) : List LockedAddr → Option (List LockedAddr)
  | [] => none
  | l :: ls =>
    if l.contextId = c then some ({ l with addr := paddr } :: ls) else (relock c paddr ls).map (l :: ·)

def trackLoadLocked (locks : List LockedAddr) (c paddr : ℕ) : List LockedAddr :=
  (relock c (mask paddr) locks).getD (⟨mask paddr, c⟩ :: locks)

/-- `checkLockedAddrList`: whether the store is allowed, and the reservations left. -/
def checkLockedAddrList (locks : List LockedAddr) (llsc : Option ℕ) (paddr : ℕ) :
    Bool × List LockedAddr :=
  let allowStore :=
    match llsc with
    | none => true
    | some c => locks.any fun l => l.addr == mask paddr && l.contextId == c
  (allowStore, if allowStore then locks.filter (·.addr ≠ mask paddr) else locks)

variable (P : Params)

def writeOK (locks : List LockedAddr) (llsc : Option ℕ) (paddr : ℕ) : Bool × List LockedAddr :=
  if !P.writeable then (false, locks)
  else if locks = [] then (llsc.isNone, locks)
  else checkLockedAddrList locks llsc paddr

variable (pkt : Packet)

/-- The assertion that the packet is inside the range of the memory. -/
def Params.Contains : Prop :=
  P.start ≤ pkt.addr ∧ pkt.addr + pkt.size ≤ P.endAddr

instance (P : Params) (pkt : Packet) : Decidable (P.Contains pkt) := inferInstanceAs (Decidable (_ ∧ _))

/-- `access`, and whether it wrote the memory. -/
def access (s : State) (pkt : Packet) : Option (State × Bool) :=
  match pkt.cmd with
  | .ignored => some (s, false)
  | cmd =>
    if P.Contains pkt then
      match cmd with
      | .swap cond =>
        (pkt.overwriteMem s.mem cond).map fun overwrite =>
          (if overwrite then { s with mem := pkt.writeData s.mem } else s, overwrite)
      | .atomic op => some ({ s with mem := { pkt with data := op s.mem }.writeData s.mem }, true)
      | .read (some c) =>
        some ({ s with lockedAddrList := trackLoadLocked s.lockedAddrList c pkt.addr }, false)
      | .write llsc =>
        let (ok, locks) := writeOK P s.lockedAddrList llsc pkt.addr
        some (⟨locks, if ok then pkt.writeData s.mem else s.mem⟩, ok)
      | _ => some (s, false)
    else none

/-! ## The law -/

/-- An access, and whether it wrote. -/
structure Access where
  pkt : Packet
  wrote : Bool

/-- A byte of the granule is among those the packet may write. -/
def Packet.Covers (g : ℕ) : Prop :=
  ∃ i < pkt.size, pkt.byteEnabled i = true ∧ mask (pkt.addr + i) = g

instance (pkt : Packet) (g : ℕ) : Decidable (pkt.Covers g) :=
  inferInstanceAs (Decidable (∃ i < pkt.size, _))

def Access.LoadLinked (c g : ℕ) (a : Access) : Prop :=
  a.pkt.cmd = .read (some c) ∧ mask a.pkt.addr = g

/-- A byte of the granule was written. -/
def Access.Writes (g : ℕ) (a : Access) : Prop := a.wrote = true ∧ a.pkt.Covers g

/-- The last load-linked of the context was to the granule, which was not written since. -/
def Reserved (c g : ℕ) (log : List Access) : Prop :=
  Since (Access.LoadLinked c g) (fun a => (∃ g', a.LoadLinked c g') ∨ a.Writes g) log

structure Observed where
  state : State := {}
  log : List Access := []

def step (o : Observed) (pkt : Packet) : Option Observed :=
  (access P o.state pkt).map fun (s, wrote) => ⟨s, o.log ++ [⟨pkt, wrote⟩]⟩

def Packet.isStore : Bool := pkt.cmd matches .write _

def Packet.modifies : Bool := pkt.cmd matches .write _ | .swap _ | .atomic _

/-- Of the reserved granules, a store covers that of its address and no other one, and a swap
or an atomic access covers none.  This is asked also of a store-conditional that fails and
of a conditional swap that does not write. -/
def Tracked (s : State) (pkt : Packet) : Prop :=
  ∀ l ∈ s.lockedAddrList, pkt.modifies = true →
    (pkt.Covers l.addr ↔ pkt.isStore = true ∧ mask pkt.addr = l.addr)

instance (s : State) (pkt : Packet) : Decidable (Tracked s pkt) :=
  inferInstanceAs (Decidable (∀ l ∈ s.lockedAddrList, _))

/-- The list holds the reservations, one for each context. -/
structure Inv (o : Observed) : Prop where
  contexts : (o.state.lockedAddrList.map LockedAddr.contextId).Nodup
  reserved : ∀ c g, ⟨g, c⟩ ∈ o.state.lockedAddrList ↔ Reserved c g o.log

section

variable {P : Params} {o : Observed} {pkt : Packet} {locks locks' : List LockedAddr} {c g : ℕ}

theorem relock_eq_none (h : relock c g locks = none) : ∀ l ∈ locks, l.contextId ≠ c := by
  induction locks with
  | nil => simp
  | cons l ls ih =>
    unfold relock at h
    split at h
    · cases h
    case isFalse hl => exact forall_mem_cons.mpr ⟨hl, ih (map_eq_none_iff.mp h)⟩

theorem relock_eq_some (hnd : (locks.map LockedAddr.contextId).Nodup)
    (h : relock c g locks = some locks') :
    locks'.map LockedAddr.contextId = locks.map LockedAddr.contextId ∧
      ∀ l, l ∈ locks' ↔ l = ⟨g, c⟩ ∨ l ∈ locks ∧ l.contextId ≠ c := by
  induction locks generalizing locks' with
  | nil => cases h
  | cons x xs ih =>
    obtain ⟨hx, hnd⟩ := nodup_cons.mp hnd
    unfold relock at h
    split at h
    case isTrue hc =>
      cases h
      subst hc
      refine ⟨rfl, fun l => ?_⟩
      have hxs : l ∈ xs → l.contextId ≠ x.contextId := fun hl heq => hx (heq ▸ mem_map_of_mem hl)
      rw [mem_cons, mem_cons]
      constructor
      · rintro (rfl | hl)
        · exact .inl rfl
        · exact .inr ⟨.inr hl, hxs hl⟩
      · rintro (rfl | ⟨rfl | hl, hne⟩)
        · exact .inl rfl
        · exact absurd rfl hne
        · exact .inr hl
    case isFalse hc =>
      obtain ⟨ys, hys, rfl⟩ := map_eq_some_iff.mp h
      obtain ⟨hmap, hmem⟩ := ih hnd hys
      refine ⟨by rw [map_cons, map_cons, hmap], fun l => ?_⟩
      rw [mem_cons, mem_cons, hmem]
      constructor
      · rintro (rfl | rfl | ⟨hl, hne⟩)
        · exact .inr ⟨.inl rfl, hc⟩
        · exact .inl rfl
        · exact .inr ⟨.inr hl, hne⟩
      · rintro (rfl | ⟨rfl | hl, hne⟩)
        · exact .inr (.inl rfl)
        · exact .inl rfl
        · exact .inr (.inr ⟨hl, hne⟩)

/-- A load-linked replaces the reservation of its context. -/
theorem trackLoadLocked_spec (hnd : (locks.map LockedAddr.contextId).Nodup) (paddr : ℕ) :
    ((trackLoadLocked locks c paddr).map LockedAddr.contextId).Nodup ∧
      ∀ l, l ∈ trackLoadLocked locks c paddr ↔ l = ⟨mask paddr, c⟩ ∨ l ∈ locks ∧ l.contextId ≠ c := by
  unfold trackLoadLocked
  cases h : relock c (mask paddr) locks with
  | none =>
    have hfresh := relock_eq_none h
    refine ⟨nodup_cons.mpr ⟨?_, hnd⟩, fun l => ?_⟩
    · intro hmem
      obtain ⟨l, hl, hlc⟩ := mem_map.mp hmem
      exact hfresh l hl hlc
    · rw [getD_none, mem_cons]
      exact or_congr_right ⟨fun hl => ⟨hl, hfresh l hl⟩, And.left⟩
  | some locks' =>
    obtain ⟨hmap, hmem⟩ := relock_eq_some hnd h
    exact ⟨by rw [getD_some, hmap]; exact hnd, hmem⟩

/-- A store is allowed if it is not conditional, or its granule is reserved. -/
theorem writeOK_eq (hP : P.writeable = true) (llsc : Option ℕ) (paddr : ℕ) :
    writeOK P locks llsc paddr = checkLockedAddrList locks llsc paddr := by
  unfold writeOK
  rw [hP, Bool.not_true, if_neg Bool.false_ne_true]
  split
  case isTrue hnil =>
    subst hnil
    cases llsc <;> simp [checkLockedAddrList]
  case isFalse => rfl

theorem reserved_concat {a : Access} {log : List Access} : Reserved c g (log ++ [a]) ↔
    a.LoadLinked c g ∨ Reserved c g log ∧ ¬ ((∃ g', a.LoadLinked c g') ∨ a.Writes g) :=
  since_concat

/-- Accesses that are no load-linked and write no reserved granule. -/
theorem Inv.quiet (h : Inv o) {s : State} {wrote : Bool}
    (hlocks : s.lockedAddrList = o.state.lockedAddrList) (hread : ∀ c, pkt.cmd ≠ .read (some c))
    (hwrites : wrote = true → ∀ l ∈ o.state.lockedAddrList, ¬ pkt.Covers l.addr) :
    Inv ⟨s, o.log ++ [⟨pkt, wrote⟩]⟩ where
  contexts := hlocks ▸ h.contexts
  reserved c g := by
    rw [reserved_concat, hlocks, h.reserved]
    constructor
    · intro hres
      refine .inr ⟨hres, ?_⟩
      rintro (⟨g', hll, -⟩ | ⟨hwrote, hcovers⟩)
      · exact hread c hll
      · exact hwrites hwrote _ ((h.reserved c g).mpr hres) hcovers
    · rintro (⟨hll, -⟩ | ⟨hres, -⟩)
      · exact absurd hll (hread c)
      · exact hres

theorem Inv.loadLinked (h : Inv o) (hcmd : pkt.cmd = .read (some c)) :
    Inv ⟨{ o.state with lockedAddrList := trackLoadLocked o.state.lockedAddrList c pkt.addr },
      o.log ++ [⟨pkt, false⟩]⟩ := by
  obtain ⟨hnd, hmem⟩ := trackLoadLocked_spec h.contexts pkt.addr
  refine ⟨hnd, fun c' g => ?_⟩
  have hll : ∀ g', (⟨pkt, false⟩ : Access).LoadLinked c' g' ↔ c' = c ∧ g' = mask pkt.addr := by
    simp [Access.LoadLinked, hcmd, eq_comm]
  have hany : (∃ g', (⟨pkt, false⟩ : Access).LoadLinked c' g') ↔ c' = c := by simp [hll]
  rw [reserved_concat, hmem, h.reserved, hll, LockedAddr.mk.injEq]
  simp only [Access.Writes]
  tauto

theorem Inv.store (h : Inv o) (hP : P.writeable = true) {llsc : Option ℕ} (hcmd : pkt.cmd = .write llsc)
    (htracked : Tracked o.state pkt) {ok : Bool}
    (hok : writeOK P o.state.lockedAddrList llsc pkt.addr = (ok, locks)) (mem : ℕ → UInt8) :
    Inv ⟨⟨locks, mem⟩, o.log ++ [⟨pkt, ok⟩]⟩ := by
  rw [writeOK_eq hP] at hok
  obtain ⟨hallow, hlocks⟩ := Prod.mk.inj hok
  have hread : ∀ c, pkt.cmd ≠ .read (some c) := by simp [hcmd]
  rw [hallow] at hlocks
  cases ok with
  | false => exact h.quiet hlocks.symm hread nofun
  | true =>
    rw [if_pos rfl] at hlocks
    subst hlocks
    refine ⟨(filter_sublist.map _).nodup h.contexts, fun c g => ?_⟩
    rw [reserved_concat, mem_filter, ← h.reserved]
    have hcovers : ⟨g, c⟩ ∈ o.state.lockedAddrList → (pkt.Covers g ↔ mask pkt.addr = g) := by
      intro hl
      simpa [Packet.modifies, Packet.isStore, hcmd] using htracked _ hl
    simp only [Access.LoadLinked, hcmd, reduceCtorEq, false_and, exists_false, false_or,
      Access.Writes, true_and, decide_eq_true_eq]
    refine and_congr_right fun hl => ?_
    rw [hcovers hl, eq_comm]

theorem Inv.step (h : Inv o) (hP : P.writeable = true) (htracked : Tracked o.state pkt)
    {o' : Observed} (hstep : step P o pkt = some o') : Inv o' := by
  obtain ⟨⟨s, wrote⟩, haccess, rfl⟩ := map_eq_some_iff.mp hstep
  unfold access at haccess
  cases hcmd : pkt.cmd with
  | ignored =>
    simp only [hcmd, some.injEq] at haccess
    obtain ⟨rfl, rfl⟩ := haccess
    exact h.quiet rfl (by simp [hcmd]) nofun
  | maintain =>
    simp only [hcmd, ite_none_right_eq_some, some.injEq] at haccess
    obtain ⟨-, rfl, rfl⟩ := haccess
    exact h.quiet rfl (by simp [hcmd]) nofun
  | swap cond =>
    simp only [hcmd, ite_none_right_eq_some, map_eq_some_iff] at haccess
    obtain ⟨-, overwrite, -, rfl, rfl⟩ := haccess
    refine h.quiet ?_ (by simp [hcmd]) fun _ l hl =>
      by simpa [Packet.modifies, Packet.isStore, hcmd] using htracked l hl
    split <;> rfl
  | atomic op =>
    simp only [hcmd, ite_none_right_eq_some, some.injEq] at haccess
    obtain ⟨-, rfl, rfl⟩ := haccess
    exact h.quiet rfl (by simp [hcmd]) fun _ l hl =>
      by simpa [Packet.modifies, Packet.isStore, hcmd] using htracked l hl
  | read llsc =>
    cases llsc with
    | none =>
      simp only [hcmd, ite_none_right_eq_some, some.injEq] at haccess
      obtain ⟨-, rfl, rfl⟩ := haccess
      exact h.quiet rfl (by simp [hcmd]) nofun
    | some c =>
      simp only [hcmd, ite_none_right_eq_some, some.injEq] at haccess
      obtain ⟨-, rfl, rfl⟩ := haccess
      exact h.loadLinked hcmd
  | write llsc =>
    simp only [hcmd, ite_none_right_eq_some, some.injEq] at haccess
    obtain ⟨-, rfl, rfl⟩ := haccess
    exact h.store hP hcmd htracked rfl _

theorem inv_init : Inv {} := ⟨nodup_nil, fun c g => by simp [Reserved, not_since_nil]⟩

/-- A store-conditional succeeds, and writes, exactly if its context has the reservation. -/
theorem access_storeConditional (hP : P.writeable = true) (hcmd : pkt.cmd = .write (some c))
    (hin : P.Contains pkt) (s : State) : ∃ s' wrote, access P s pkt = some (s', wrote) ∧
      (wrote = true ↔ ⟨mask pkt.addr, c⟩ ∈ s.lockedAddrList) ∧
      (wrote = true → s'.mem = pkt.writeData s.mem) ∧ (wrote = false → s' = s) := by
  have haccess : access P s pkt =
      some (⟨(checkLockedAddrList s.lockedAddrList (some c) pkt.addr).2,
          if (checkLockedAddrList s.lockedAddrList (some c) pkt.addr).1 then pkt.writeData s.mem
          else s.mem⟩,
        (checkLockedAddrList s.lockedAddrList (some c) pkt.addr).1) := by
    simp only [access, hcmd, if_pos hin, writeOK_eq hP]
  refine ⟨_, _, haccess, ?_, fun hwrote => if_pos hwrote, fun hwrote => ?_⟩
  · simp only [checkLockedAddrList, any_eq_true, Bool.and_eq_true, beq_iff_eq]
    constructor
    · rintro ⟨⟨g, c'⟩, hl, rfl, rfl⟩
      exact hl
    · exact fun hl => ⟨_, hl, rfl, rfl⟩
  · rw [hwrote]
    have hlocks : (checkLockedAddrList s.lockedAddrList (some c) pkt.addr).2 = s.lockedAddrList :=
      if_neg (ne_true_of_eq_false hwrote)
    rw [hlocks]
    rfl

/-- If no access covers a reserved granule other than as a store to an address in it, then a
store-conditional succeeds and writes exactly if the last load-linked of its context was to
its granule and no byte of that was written since; one that fails changes nothing. -/
theorem storeConditional_law (hP : P.writeable = true) {pkts : List Packet}
    (htracked : AllowedSteps (step P) (fun o pkt => Tracked o.state pkt) {} pkts)
    (hrun : runSteps (step P) {} pkts = some o) (hcmd : pkt.cmd = .write (some c))
    (hin : P.Contains pkt) : ∃ s wrote, access P o.state pkt = some (s, wrote) ∧
      (wrote = true ↔ Reserved c (mask pkt.addr) o.log) ∧
      (wrote = true → s.mem = pkt.writeData o.state.mem) ∧ (wrote = false → s = o.state) := by
  have hinv : Inv o := htracked.invariant (fun o pkt o' h hok => h.step hP hok) inv_init hrun
  obtain ⟨s, wrote, haccess, hwrote, hrest⟩ := access_storeConditional hP hcmd hin o.state
  exact ⟨s, wrote, haccess, hwrote.trans (hinv.reserved c _), hrest⟩

end

def small : Params := ⟨0, 0x1000, true⟩

/-- Two contexts link one granule, and the first stores to it. -/
def twoLinks : List Packet :=
  [{ cmd := .read (some 0), addr := 0x100, size := 8 },
    { cmd := .read (some 1), addr := 0x108, size := 8 },
    { cmd := .write (some 0), addr := 0x100, size := 8 }]

theorem storeConditional_law_twoLinks : ∃ o, runSteps (step small) {} twoLinks = some o ∧
      ∃ s wrote, access small o.state { cmd := .write (some 1), addr := 0x108, size := 8 } =
          some (s, wrote) ∧ (wrote = true ↔ Reserved 1 0x100 o.log) ∧
        (wrote = true → s.mem = Packet.writeData { cmd := .write (some 1), addr := 0x108, size := 8 }
          o.state.mem) ∧ (wrote = false → s = o.state) := by
  obtain ⟨o, ho⟩ : ∃ o, runSteps (step small) {} twoLinks = some o := ⟨_, rfl⟩
  exact ⟨o, ho, storeConditional_law rfl (by decide) ho rfl ⟨by decide, by decide⟩⟩

/-- A swap, and a store that begins in the granule before, do not end a reservation. -/
theorem reservation_survives :
    [({ cmd := .swap none, addr := 0x100, size := 8 } : Packet),
      { cmd := .write none, addr := 0xf8, size := 16 }].Forall fun pkt =>
      ∃ o s, runSteps (step small) {} [{ cmd := .read (some 0), addr := 0x100, size := 8 }, pkt] =
          some o ∧
        access small o.state { cmd := .write (some 0), addr := 0x100, size := 8 } = some (s, true) ∧
        ¬ Reserved 0 0x100 o.log := by
  have hwritten : ∀ log a, a.pkt.cmd ≠ .read (some 0) → a.Writes 0x100 →
      ¬ Reserved 0 0x100 (log ++ [a]) := by
    intro log a hcmd hwrites
    rw [reserved_concat]
    rintro (⟨hll, -⟩ | ⟨-, hno⟩)
    · exact hcmd hll
    · exact hno (.inr hwrites)
  constructor
  · exact ⟨_, _, rfl, rfl, hwritten [_] _ nofun ⟨rfl, by decide⟩⟩
  · exact ⟨_, _, rfl, rfl, hwritten [_] _ nofun ⟨rfl, by decide⟩⟩

end AbstractMemory
