/-
# When the debug stack agrees

With `verifyStack` the calculator compares its distances with a naive stack.
That stack is updated by insertions only: an address taken out of the tree by
`calcStackDistAndUpdate` without a new node stays on it.
-/
import Gem5.StackDistRef

open List

namespace StackDist

open StackDist.StackDistCalc

variable {c : StackDistCalc} {h : List Call} {a b : Addr}

/-! ## Histories -/

abbrev Call.insert (a : Addr) : Call := .calcStackDistAndUpdate a true

abbrev Call.remove (a : Addr) : Call := .calcStackDistAndUpdate a false

/-- The calls from the last insertion of the address on. -/
def sinceInsert (a : Addr) : List Call → Option (List Call)
  | [] => none
  | x :: xs =>
    match sinceInsert a xs with
    | some s => some s
    | none => if x = .insert a then some (x :: xs) else none

/-- The address has been removed since its last insertion. -/
def removed (h : List Call) (a : Addr) : Bool :=
  match sinceInsert a h with
  | some s => s.contains (.remove a)
  | none => false

/-- Nothing inserted since the last insertion of the address, itself included,
has been removed. -/
def Settled (h : List Call) (a : Addr) : Prop :=
  ∀ s, sinceInsert a h = some s → ∀ b, Call.insert b ∈ s → removed h b = false

theorem sinceInsert_concat (a : Addr) (h : List Call) (x : Call) : sinceInsert a (h ++ [x])
      = if x = .insert a then some [x] else (sinceInsert a h).map (· ++ [x]) := by
  induction h with
  | nil => rfl
  | cons y h ih =>
    simp only [cons_append, sinceInsert, ih]
    by_cases hx : x = .insert a
    · simp [hx]
    · cases sinceInsert a h with
      | some s => simp [hx]
      | none => by_cases hy : y = .insert a <;> simp [hx]

theorem sinceInsert_concat_of_ne {x : Call} (hx : x ≠ .insert a) :
    sinceInsert a (h ++ [x]) = (sinceInsert a h).map (· ++ [x]) := by
  rw [sinceInsert_concat, if_neg hx]

/-- A call that neither inserts nor removes the address leaves it as it was. -/
theorem removed_concat_of_ne {x : Call} (hi : x ≠ .insert a) (hr : x ≠ .remove a) :
    removed (h ++ [x]) a = removed h a := by
  unfold removed
  rw [sinceInsert_concat_of_ne hi]
  cases sinceInsert a h with
  | none => rfl
  | some s => simp [Ne.symm hr]

theorem removed_insert_self : removed (h ++ [.insert a]) a = false := by
  simp [removed, sinceInsert_concat]

theorem removed_remove_self : removed (h ++ [.remove a]) a = (sinceInsert a h).isSome := by
  unfold removed
  rw [sinceInsert_concat_of_ne (by simp)]
  cases sinceInsert a h <;> simp

/-! ## Lists of distinct addresses -/

/-- The addresses at or above `a`. -/
def AtOrAbove (stack : List Addr) (a b : Addr) : Prop := b = a ∨ b ∈ stack.takeWhile (· ≠ a)

theorem takeWhile_filter {p : Addr → Bool} (stack : List Addr) (ha : p a = true) :
    (stack.filter p).takeWhile (· ≠ a) = (stack.takeWhile (· ≠ a)).filter p := by
  induction stack with
  | nil => rfl
  | cons d stack ih =>
    by_cases hd : d = a
    · simp [hd, ha]
    · by_cases hp : p d = true <;> simpa [hd, hp] using ih

/-- A filtered stack gives the same distance exactly if it keeps everything at
or above the address. -/
theorem refDist_filter_iff {stack : List Addr} (p : Addr → Bool) (hlen : stack.length < Infinity) :
    refDist stack a = refDist (stack.filter p) a ↔
      (a ∈ stack → ∀ b, AtOrAbove stack a b → p b = true) := by
  have hle := (takeWhile_sublist (· ≠ a) (l := stack)).length_le
  unfold refDist
  by_cases ha : a ∈ stack
  · rw [if_pos ha]
    by_cases hp : p a = true
    · rw [if_pos (mem_filter.mpr ⟨ha, hp⟩), takeWhile_filter stack hp, eq_comm,
        length_filter_eq_length_iff]
      constructor
      · intro hall _ b hb
        rcases hb with rfl | hb
        · exact hp
        · exact hall b hb
      · intro hall b hb
        exact hall ha b (.inr hb)
    · rw [if_neg fun hmem => hp (mem_filter.mp hmem).2]
      constructor
      · omega
      · intro hall
        exact absurd (hall ha a (.inl rfl)) hp
  · simp [ha]

/-! ## The two stacks of a history -/

/-- The debug stack after the calls. -/
def debugStack (h : List Call) : List Addr := h.foldl debugStep []

/-- The reference stack after the calls. -/
def refStack (h : List Call) : List Addr := h.foldl refStep []

theorem debugStack_concat (h : List Call) (x : Call) :
    debugStack (h ++ [x]) = debugStep (debugStack h) x := by
  simp [debugStack]

theorem refStack_concat (h : List Call) (x : Call) :
    refStack (h ++ [x]) = refStep (refStack h) x := by
  simp [refStack]

/-- **What a history says about the stacks**: the debug stack holds what was
ever inserted, ordered by last insertion, and the reference stack is what of it
has not been removed. -/
structure Recorded (h : List Call) : Prop where
  nodup : (debugStack h).Nodup
  mem : ∀ a, a ∈ debugStack h ↔ (sinceInsert a h).isSome
  above : ∀ a s, sinceInsert a h = some s →
    ∀ b, Call.insert b ∈ s ↔ AtOrAbove (debugStack h) a b
  ref : refStack h = (debugStack h).filter (!removed h ·)

namespace Recorded

theorem nil : Recorded [] where
  nodup := nodup_nil
  mem a := by simp [debugStack, sinceInsert]
  above a s hs := by cases hs
  ref := rfl

theorem insert (hr : Recorded h) (d : Addr) : Recorded (h ++ [.insert d]) := by
  have hdebug : debugStack (h ++ [.insert d]) = d :: (debugStack h).filter (· != d) := by
    rw [debugStack_concat, debugStep, hr.nodup.erase_eq_filter]
  constructor
  · rw [hdebug]
    exact nodup_cons.mpr ⟨by simp, hr.nodup.filter _⟩
  · intro a
    rw [hdebug, sinceInsert_concat]
    by_cases had : d = a
    · simp [had]
    · simp [had, Ne.symm had, hr.mem a]
  · intro a s hs b
    rw [hdebug]
    rw [sinceInsert_concat] at hs
    by_cases had : d = a
    · subst had
      simp only [if_true, Option.some.injEq] at hs
      subst hs
      simp [AtOrAbove]
    · rw [if_neg (by simpa using had)] at hs
      obtain ⟨s0, hs0, rfl⟩ := Option.map_eq_some_iff.mp hs
      have hkeep : (a != d) = true := by simpa using Ne.symm had
      have hhead : (decide (d ≠ a)) = true := by simpa using had
      have habove := hr.above a s0 hs0 b
      unfold AtOrAbove at habove ⊢
      rw [takeWhile_cons, if_pos hhead, takeWhile_filter (p := (· != d)) _ hkeep, mem_cons,
        mem_filter, mem_append, habove]
      by_cases hbd : b = d
      · simp [hbd]
      · simp [hbd]
  · rw [hdebug, refStack_concat, refStep, hr.ref, (hr.nodup.filter _).erase_eq_filter,
      filter_filter, filter_cons]
    simp only [removed_insert_self]
    congr 1
    rw [filter_filter]
    refine filter_congr fun b _ => ?_
    by_cases hbd : b = d
    · simp [hbd]
    · rw [removed_concat_of_ne (by simpa using Ne.symm hbd) (by simp), Bool.and_comm]

/-- A call that does not insert leaves the debug stack and its order alone. -/
theorem keep {x : Call} (hr : Recorded h) (hx : ∀ a, x ≠ .insert a)
    (hdebug : debugStack (h ++ [x]) = debugStack h)
    (href : refStack (h ++ [x]) = (debugStack h).filter (!removed (h ++ [x]) ·)) :
    Recorded (h ++ [x]) := by
  constructor
  · rw [hdebug]
    exact hr.nodup
  · intro a
    rw [hdebug, sinceInsert_concat_of_ne (hx a), Option.isSome_map]
    exact hr.mem a
  · intro a s hs b
    rw [sinceInsert_concat_of_ne (hx a)] at hs
    obtain ⟨s0, hs0, rfl⟩ := Option.map_eq_some_iff.mp hs
    rw [hdebug, ← hr.above a s0 hs0 b]
    simp [Ne.symm (hx b)]
  · rw [hdebug]
    exact href

theorem remove (hr : Recorded h) (d : Addr) : Recorded (h ++ [.remove d]) := by
  apply hr.keep (by simp) (debugStack_concat h _)
  rw [refStack_concat, refStep, hr.ref, (hr.nodup.filter _).erase_eq_filter, filter_filter]
  refine filter_congr fun b hb => ?_
  by_cases hbd : b = d
  · subst hbd
    have hsome := (hr.mem b).mp hb
    rw [removed_remove_self, hsome]
    simp
  · rw [removed_concat_of_ne (by simp) (by simpa using Ne.symm hbd)]
    simp [hbd]

theorem lookup (hr : Recorded h) (d : Addr) (mark : Bool) :
    Recorded (h ++ [.calcStackDist d mark]) := by
  apply hr.keep (by simp) (debugStack_concat h _)
  rw [refStack_concat, hr.ref]
  refine filter_congr fun b _ => ?_
  rw [removed_concat_of_ne (by simp) (by simp)]

end Recorded

/-- Every history is described. -/
theorem recorded (h : List Call) : Recorded h := by
  induction h using reverseRecOn with
  | nil => exact Recorded.nil
  | append_singleton h x ih =>
    cases x with
    | calcStackDistAndUpdate d add =>
      cases add with
      | true => exact ih.insert d
      | false => exact ih.remove d
    | calcStackDist d mark => exact ih.lookup d mark

/-- The debug stack is no longer than the number of insertions. -/
theorem length_debugStack_le (h : List Call) : (debugStack h).length ≤ insertions h := by
  induction h using reverseRecOn with
  | nil => rfl
  | append_singleton h x ih =>
    rw [debugStack_concat]
    have hle := length_erase_le (l := debugStack h) (a := x.addr)
    cases x with
    | calcStackDistAndUpdate d add =>
      cases add <;> simp [debugStep, insertions, Call.inserts, Call.addr] at ih hle ⊢ <;> omega
    | calcStackDist d mark => simpa [debugStep, insertions, Call.inserts] using ih

/-- The comparison agrees exactly if the address is settled. -/
theorem refDist_eq_iff_settled (hlen : insertions h < 2 ^ 31) (a : Addr) :
    refDist (debugStack h) a = refDist (refStack h) a ↔ Settled h a := by
  have hr := recorded h
  have hlt : (debugStack h).length < Infinity :=
    (length_debugStack_le h).trans_lt (hlen.trans (by decide))
  rw [hr.ref, refDist_filter_iff _ hlt]
  constructor
  · intro hall s hs b hb
    have ha : a ∈ debugStack h := (hr.mem a).mpr (by rw [hs]; rfl)
    simpa using hall ha b ((hr.above a s hs b).mp hb)
  · intro hset ha b hb
    obtain ⟨s, hs⟩ := Option.isSome_iff_exists.mp ((hr.mem a).mp ha)
    simpa using hset s hs b ((hr.above a s hs b).mpr hb)

/-! ## Runs -/

theorem insertions_append (h h' : List Call) :
    insertions (h ++ h') = insertions h + insertions h' := by
  simp [insertions]

/-- A run after a history panics at its first comparison of an unsettled
address. -/
theorem run_none_iff {calls : List Call} (hrep : Rep c (refStack h))
    (hstack : c.stack = debugStack h) (hv : c.verifyStack = true)
    (hindex : c.index = insertions h) (hN : insertions (h ++ calls) < 2 ^ 31) :
    (c.run calls).2 = none ↔ ∀ pre x post, calls = pre ++ x :: post → x.compares = true →
      Settled (h ++ pre) x.addr := by
  induction calls generalizing c h with
  | nil => simp [run]
  | cons x xs ih =>
    have hN' := hN
    rw [insertions_append] at hN
    have hhere : Agrees c (refStack h) x ↔ (x.compares = true → Settled h x.addr) := by
      rw [Agrees, hstack, refDist_eq_iff_settled (by omega)]
      exact ⟨fun hx => hx hv, fun hx _ => hx⟩
    by_cases hx : Agrees c (refStack h) x
    · obtain ⟨mark, c', hcall, hafter⟩ := call_ok hrep (by omega) hx
      rw [run_cons_ok hcall]
      have hstep := ih (h := h ++ [x]) (by rw [refStack_concat]; exact hafter.rep)
        (by rw [debugStack_concat, ← hstack]; exact hafter.debug hv)
        (hafter.verify.trans hv)
        (by rw [hafter.index, hindex, insertions_append, insertions_cons]; rfl)
        (by simpa using hN')
      rw [hstep]
      constructor
      · intro hall pre y post heq hy
        cases pre with
        | nil =>
          cases heq
          simpa using hhere.mp hx hy
        | cons z pre =>
          obtain ⟨rfl, htail⟩ := cons.inj heq
          simpa using hall pre y post htail hy
      · intro hall pre y post heq hy
        have := hall (x :: pre) y post (by rw [heq]; rfl) hy
        simpa using this
    · rw [run_cons_error (call_error hrep (by omega) hx)]
      refine ⟨fun hnone => by simp at hnone, fun hall => absurd (hhere.mpr fun hx' => ?_) hx⟩
      simpa using hall [] x xs rfl hx'

/-- **When the self-check agrees.**  The comparison of the tree with the debug stack
never fails if and only if, at every call that compares an address, no address
inserted at or after the last insertion of that address has been removed since
its own last insertion. -/
theorem verifyStack_agrees_iff (calls : List Call) (hcalls : insertions calls < 2 ^ 31) :
    (∀ addr d d', ((init true).run calls).2 ≠ some (.stackDist addr d d')) ↔
      ∀ pre x post, calls = pre ++ x :: post → x.compares = true → Settled pre x.addr := by
  have hN : insertions ([] ++ calls) < 2 ^ 31 := hcalls
  have hiff := run_none_iff (rep_init true) rfl rfl rfl hN
  simp only [nil_append] at hiff
  rw [← hiff]
  have hN' : (init true).index + insertions calls < 2 ^ 31 := by
    rwa [show (init true).index = 0 from rfl, Nat.zero_add]
  obtain ⟨-, -, hpanic⟩ := run_spec (rep_init true) hN'
  constructor
  · intro hnever
    cases hrun : ((init true).run calls).2 with
    | none => rfl
    | some p =>
      obtain ⟨-, addr, d, d', rfl⟩ := hpanic p hrun
      exact absurd hrun (hnever addr d d')
  · intro hnone addr d d' hp
    rw [hnone] at hp
    cases hp

/-- A removal below the address compared later is harmless. -/
def olderRemoved : List Call :=
  [.insert 10, .insert 20, .remove 10, .calcStackDist 20 false]

theorem verifyStack_agrees_iff_older : ((init true).run olderRemoved).2 = none ∧
      ∀ pre x post, olderRemoved = pre ++ x :: post → x.compares = true → Settled pre x.addr := by
  have hnone : ((init true).run olderRemoved).2 = none := by decide
  exact ⟨hnone, (verifyStack_agrees_iff olderRemoved (by decide)).mp (by simp [hnone])⟩

/-- An address that was inserted and removed is looked up: the tree does not
know it, the debug stack has it on top. -/
theorem verifyStack_panics :
    ((init true).run [.insert 10, .remove 10, .calcStackDist 10 false]).2
      = some (.stackDist 10 0 Infinity) := by
  decide

end StackDist
