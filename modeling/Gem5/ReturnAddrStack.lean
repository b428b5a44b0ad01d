/-
# The return address stack

`cpu/pred/ras.cc`.  The stack is a circular array: a push goes up, a pop goes down, and what
lies above the top stays in the array until it is overwritten.  A branch keeps a record of
what it did to the stack, with the index and the entry if it popped, and `squash` undoes the
branch from its record.

On the live entries the operations are those of a plain stack.
-/
import Mathlib

open Function List

namespace ReturnAddrStack

/-- The stack of one thread; an entry is a null pointer until it is first written. -/
structure AddrStack (PC : Type*) (numEntries : ℕ) where
  addrStack : Fin numEntries → Option PC
  usedEntries : ℕ
  tos : Fin numEntries
  used_le : usedEntries ≤ numEntries

/-- What a branch did; `rasEntry` and `tos` are those of its pop. -/
structure RASHistory (PC : Type*) (numEntries : ℕ) where
  pushed : Bool
  poped : Bool
  rasEntry : Option PC
  tos : Fin numEntries

variable {PC : Type*} {numEntries : ℕ}

def incrTos (tos : Fin numEntries) : Fin numEntries :=
  if h : (tos : ℕ) + 1 = numEntries then ⟨0, by omega⟩ else ⟨tos + 1, by omega⟩

def decrTos (tos : Fin numEntries) : Fin numEntries :=
  if (tos : ℕ) = 0 then ⟨numEntries - 1, Nat.sub_one_lt_of_lt tos.isLt⟩
  else ⟨tos - 1, (Nat.sub_le tos 1).trans_lt tos.isLt⟩

variable (tos : Fin numEntries)

theorem decrTos_incrTos : decrTos (incrTos tos) = tos := by
  unfold decrTos incrTos
  ext
  split <;> simp
  omega

/-- The index of the entry `k` below the top. -/
theorem decrTos_iterate {k : ℕ} (hk : k < numEntries) :
    (decrTos^[k] tos : ℕ) = if k ≤ tos then tos - k else tos + numEntries - k := by
  induction k with
  | zero => simp
  | succ k ih =>
    have hprev := ih (by omega)
    rw [iterate_succ_apply', decrTos]
    split_ifs at hprev ⊢ <;> simp only <;> omega

/-- Nothing below the top is the top. -/
theorem decrTos_iterate_ne {k : ℕ} (hpos : 0 < k) (hk : k < numEntries) :
    decrTos^[k] tos ≠ tos := by
  have hval := decrTos_iterate tos hk
  split at hval <;> omega

namespace AddrStack

variable (s : AddrStack PC numEntries)

def top : Option PC := s.addrStack s.tos

def pop : AddrStack PC numEntries :=
  { s with
    usedEntries := if s.usedEntries > 0 then s.usedEntries - 1 else s.usedEntries
    tos := decrTos s.tos
    used_le := by have := s.used_le; split <;> omega }

def restore (tos : Fin numEntries) (restored : Option PC) : AddrStack PC numEntries :=
  { addrStack := update s.addrStack tos restored
    usedEntries := if s.usedEntries ≠ numEntries then s.usedEntries + 1 else s.usedEntries
    tos
    used_le := by have := s.used_le; split <;> omega }

def push (returnAddr : PC) : AddrStack PC numEntries :=
  { addrStack := update s.addrStack (incrTos s.tos) (some returnAddr)
    usedEntries := if s.usedEntries ≠ numEntries then s.usedEntries + 1 else s.usedEntries
    tos := incrTos s.tos
    used_le := by have := s.used_le; split <;> omega }

/-- The live entries, from the top down. -/
def live : List (Option PC) :=
  (List.range s.usedEntries).map fun k => s.addrStack (decrTos^[k] s.tos)

theorem length_live : s.live.length = s.usedEntries := by simp [live]

/-- A pop takes the top off the live entries. -/
theorem live_pop (hused : s.usedEntries ≠ 0) : s.live = s.top :: s.pop.live := by
  obtain ⟨used, hsucc⟩ := Nat.exists_eq_succ_of_ne_zero hused
  simp [live, pop, top, hsucc, range_succ_eq_map]

variable {s}

/-- A pop makes room. -/
theorem room_pop (hused : s.usedEntries ≠ 0) : s.pop.usedEntries ≠ numEntries := by
  have hle := s.used_le
  have hpop : s.pop.usedEntries = s.usedEntries - 1 := if_pos (Nat.pos_of_ne_zero hused)
  omega

variable (hused : s.usedEntries ≠ numEntries)

include hused

theorem used_push (returnAddr : PC) : (s.push returnAddr).usedEntries ≠ 0 := by
  simp [push, hused]

/-- An entry written one above the top is put on the live entries; the others stay, since
there is room for one more. -/
theorem live_restore {tos : Fin numEntries} (htos : decrTos tos = s.tos) (entry : Option PC) :
    (s.restore tos entry).live = entry :: s.live := by
  have hkept : ∀ k < s.usedEntries,
      update s.addrStack tos entry (decrTos^[k + 1] tos) = s.addrStack (decrTos^[k] s.tos) := by
    intro k hk
    have hroom := s.used_le
    rw [update_of_ne (decrTos_iterate_ne tos k.succ_pos (by omega)), iterate_succ_apply, htos]
  simp only [live, restore, if_pos hused, range_succ_eq_map, map_cons, map_map,
    iterate_zero, id_eq, update_self, cons.injEq, true_and]
  exact map_congr_left fun k hk => hkept k (mem_range.mp hk)

end AddrStack

/-- The part of the stack a rollback is to restore. -/
def Same (s t : AddrStack PC numEntries) : Prop :=
  s.tos = t.tos ∧ s.usedEntries = t.usedEntries ∧ s.live = t.live

variable {s t : AddrStack PC numEntries}

theorem same_of_live (htos : s.tos = t.tos) (hlive : s.live = t.live) : Same s t :=
  ⟨htos, by rw [← s.length_live, hlive, t.length_live], hlive⟩

theorem Same.pop (h : Same s t) (hused : t.usedEntries ≠ 0) : Same s.pop t.pop := by
  obtain ⟨htos, hsame, hlive⟩ := h
  apply same_of_live (congrArg decrTos htos)
  rw [s.live_pop (hsame ▸ hused), t.live_pop hused] at hlive
  exact (cons.inj hlive).2

/-- A push is undone by a pop. -/
theorem same_pop_push (hused : s.usedEntries ≠ numEntries) (pc : PC) : Same (s.push pc).pop s := by
  apply same_of_live (decrTos_incrTos s.tos)
  have hlive := (s.push pc).live_pop (AddrStack.used_push hused pc)
  have hpush := AddrStack.live_restore hused (decrTos_incrTos s.tos) (some pc)
  exact (cons.inj (hlive.symm.trans hpush)).2

/-- A pop is undone by putting its entry back. -/
theorem Same.restore (h : Same t s.pop) (hused : s.usedEntries ≠ 0) :
    Same (t.restore s.tos s.top) s := by
  obtain ⟨htos, hsame, hlive⟩ := h
  refine same_of_live rfl ?_
  rw [AddrStack.live_restore (hsame ▸ AddrStack.room_pop hused) htos.symm, hlive,
    ← s.live_pop hused]

theorem Same.trans {u : AddrStack PC numEntries} (h : Same s t) (h' : Same t u) : Same s u :=
  ⟨h.1.trans h'.1, h.2.1.trans h'.2.1, h.2.2.trans h'.2.2⟩

/-! ## Branches and their squash -/

variable [NeZero numEntries]

def makeRASHistory : RASHistory PC numEntries := ⟨false, false, none, 0⟩

section

variable (s : AddrStack PC numEntries)

def push (pc : PC) (rasHistory : Option (RASHistory PC numEntries)) :
    AddrStack PC numEntries × RASHistory PC numEntries :=
  (s.push pc, { rasHistory.getD makeRASHistory with pushed := true })

def pop (rasHistory : Option (RASHistory PC numEntries)) :
    AddrStack PC numEntries × RASHistory PC numEntries :=
  (s.pop, { rasHistory.getD makeRASHistory with poped := true, tos := s.tos, rasEntry := s.top })

/-- A branch without a record did nothing to the stack. -/
def squash : Option (RASHistory PC numEntries) → AddrStack PC numEntries
  | none => s
  | some history =>
    let s := if history.pushed then s.pop else s
    if history.poped then s.restore history.tos history.rasEntry else s

inductive Operation (PC : Type*)
  | push (pc : PC)
  | pop
  | popPush (pc : PC)

def perform : Operation PC → AddrStack PC numEntries × RASHistory PC numEntries
  | .push pc => push s pc none
  | .pop => pop s none
  | .popPush pc => push (pop s none).1 pc (pop s none).2

/-- No push on a full stack and no pop of an empty one; a pop makes room for its push. -/
def Fits : Operation PC → Prop
  | .push _ => s.usedEntries ≠ numEntries
  | .pop | .popPush _ => s.usedEntries ≠ 0

/-- The branches in program order; the records are kept youngest first. -/
def performAll (s : AddrStack PC numEntries) :
    List (Operation PC) → AddrStack PC numEntries × List (RASHistory PC numEntries)
  | [] => (s, [])
  | op :: ops =>
    let (s', records) := performAll (perform s op).1 ops
    (s', records ++ [(perform s op).2])

def AllFit (s : AddrStack PC numEntries) : List (Operation PC) → Prop
  | [] => True
  | op :: ops => Fits s op ∧ AllFit (perform s op).1 ops

def squashAll (records : List (RASHistory PC numEntries)) : AddrStack PC numEntries :=
  records.foldl (fun s history => squash s (some history)) s

end

/-- **One branch.**  Its squash undoes it, from whatever the younger ones left above the top. -/
theorem same_squash_perform {op : Operation PC} (hfits : Fits s op)
    (h : Same t (perform s op).1) : Same (squash t (some (perform s op).2)) s := by
  cases op with
  | push pc => exact (Same.pop h (AddrStack.used_push hfits pc)).trans (same_pop_push hfits pc)
  | pop => exact Same.restore h hfits
  | popPush pc =>
    have hroom := AddrStack.room_pop hfits
    have hpopped := (Same.pop h (AddrStack.used_push hroom pc)).trans (same_pop_push hroom pc)
    exact Same.restore hpopped hfits

/-- **Rollback.**  Squashing the branches from the youngest on restores the index, the number of
used entries, and all of these. -/
theorem squashAll_performAll (ops : List (Operation PC)) (hfit : AllFit s ops) :
    Same (squashAll (performAll s ops).1 (performAll s ops).2) s := by
  induction ops generalizing s with
  | nil => exact ⟨rfl, rfl, rfl⟩
  | cons op ops ih =>
    simp only [performAll, squashAll, foldl_append]
    exact same_squash_perform hfit.1 (ih hfit.2)

/-- A stack of two entries, with one in use. -/
def shallow : AddrStack ℕ 2 := ⟨fun _ => some 7, 1, 0, by decide⟩

/-- The pop's slot is overwritten by the first push, and the stack is full after the second. -/
theorem squashAll_performAll_shallow :
    Same (squashAll (performAll shallow [.pop, .push 8, .push 9, .popPush 5]).1
      (performAll shallow [.pop, .push 8, .push 9, .popPush 5]).2) shallow :=
  squashAll_performAll _ (by simp [AllFit, Fits, perform, push, pop, AddrStack.push,
    AddrStack.pop, shallow])

end ReturnAddrStack
