/-
# DMA races at the directory of MI_example

What the directory knows without the caches: in which states there is an owner,
which request to memory is outstanding, and when a TBE is in use (`Dir.Ok`).  This
holds after every run, with any number of caches and DMA controllers, and it leaves
few events for each state.
-/
import Gem5.MIExample

open List Option

namespace MIExample

open MIExample.System

open Ruby

variable {N D : Type} {b : ℕ} {m : MemoryMsg (MachineID N D) b}

/-! ## What the directory knows -/

namespace Dir

/-- There is an owner. -/
def Owned : DirState → Prop
  | .M | .IM | .M_DRD | .M_DWR => True
  | _ => False

/-- A TBE is in use. -/
def Blocked : DirState → Prop
  | .I | .M => False
  | _ => True

/-- What memory was asked for and has not answered. -/
def outstanding : DirState → List MemoryRequestType
  | .IM | .ID => [.MEMORY_READ]
  | .MI | .ID_W | .M_DRDI | .M_DWRI => [.MEMORY_WB]
  | _ => []

/-- What belongs to a state of the directory: the TBE, the owner, and the requests
to memory, with the answers that the directory has not seen yet. -/
structure Fits (dir : Dir N D b) (answers : List (MemoryMsg (MachineID N D) b)) (st : DirState) :
    Prop where
  tbe : dir.tbe.isSome = true ↔ Blocked st
  owner : ¬ Owned st → dir.entry.owner = ∅
  memory : (answers ++ dir.requestToMemory).map MemoryMsg.type = outstanding st

/-- **The invariant of the directory.** -/
structure Ok (dir : Dir N D b) (answers : List (MemoryMsg (MachineID N D) b)) : Prop where
  state : dir.entry.directoryState = dir.getState
  fits : dir.Fits answers dir.getState

variable {actions : List (DirCtx N D b → Option (DirCtx N D b))}

section

variable {dir : Dir N D b} {answers : List (MemoryMsg (MachineID N D) b)} {st : DirState}

variable {dir' : Dir N D b}

theorem setState_eq_some (h : dir.setState st = some dir') :
    dir' = { dir with
      tbe := dir.tbe.map fun tbe => { tbe with tbeState := st }
      entry := { dir.entry with directoryState := st } } := by
  unfold setState at h
  split at h
  · exact (some.inj h).symm
  · cases h

/-- The next state is set on what belongs to it. -/
theorem Fits.setState (h : dir.Fits answers st)
    (hset : dir.setState st = some dir') : dir'.Ok answers := by
  have hdir := setState_eq_some hset
  have hstate : dir'.getState = st := by
    rw [hdir]
    cases dir.tbe <;> rfl
  refine ⟨?_, ?_, ?_, ?_⟩
  · rw [hstate, hdir]
  · rw [hstate, hdir, isSome_map]
    exact h.tbe
  · rw [hstate, hdir]
    exact h.owner
  · rw [hstate, hdir]
    exact h.memory

variable [DecidableEq N] {next : Option DirState} {msg : DirIn N D b}

/-- A transition of the directory runs its actions and sets the next state. -/
theorem runActions_of_handle {ctx : DirCtx N D b} (hctx : dir.handle msg = .ok ctx)
    (htable : transition dir.getState (dir.event msg) = some (.run actions next)) :
    ∃ ctx', runActions actions { dir := dir, inMsg := msg } = some ctx' ∧
      ctx'.dir.setState (next.getD dir.getState) = some ctx.dir ∧ ctx.handled = ctx'.handled := by
  unfold handle at hctx
  rw [htable] at hctx
  obtain ⟨ctx', hrun, hset⟩ := runActions_of_ok hctx
  obtain ⟨dir', hdir', hset⟩ := bind_eq_some_iff.mp hset
  cases hset
  exact ⟨ctx', hrun, hdir', rfl⟩

/-- **The rule for transitions**: if the actions make what belongs to the next
state, the invariant holds again. -/
theorem ok_of_transition {ctx ctx' : DirCtx N D b} (hctx : dir.handle msg = .ok ctx)
    (htable : transition dir.getState (dir.event msg) = some (.run actions next))
    (hrun : runActions actions { dir := dir, inMsg := msg } = some ctx')
    (hfits : ctx'.dir.Fits answers (next.getD dir.getState)) : ctx.dir.Ok answers := by
  obtain ⟨ctx1, hrun1, hset, -⟩ := runActions_of_handle hctx htable
  obtain rfl : ctx' = ctx1 := some.inj (hrun.symm.trans hrun1)
  exact hfits.setState hset

end

/-! ## Steps of the directory -/

section

variable [DecidableEq N] {line : Addr} {entry : DirEntry N} {tbe : Option (DirTBE D b)}
  {q answers : List (MemoryMsg (MachineID N D) b)} {dir : Dir N D b}

variable {msg : DirIn N D b} {ctx : DirCtx N D b}

theorem not_missing (hctx : dir.handle msg = .ok ctx) :
    transition (N := N) (D := D) (b := b) dir.getState (dir.event msg) ≠ none := by
  intro hnone
  unfold handle at hctx
  rw [hnone] at hctx
  cases hctx

/-- Recycling and refusing leave the directory as it is. -/
theorem Ok.of_quiet (h : dir.Ok answers) (hctx : dir.handle msg = .ok ctx)
    (htable : transition (N := N) (D := D) (b := b) dir.getState (dir.event msg)
        = some (.run [zRecycleRequestQueue] none) ∨
      transition (N := N) (D := D) (b := b) dir.getState (dir.event msg)
        = some (.run [yRecycleDMARequestQueue] none) ∨
      ∃ next, transition (N := N) (D := D) (b := b) dir.getState (dir.event msg)
        = some (.run [bSendWriteBackNack, iPopIncomingRequestQueue] next) ∧
          next.getD dir.getState = dir.getState) : ctx.dir.Ok answers := by
  rcases htable with htable | htable | ⟨next, htable, hnext⟩
  · exact ok_of_transition hctx htable rfl h.fits
  · exact ok_of_transition hctx htable rfl h.fits
  · cases msg with
    | request r m =>
      apply ok_of_transition hctx htable rfl
      rw [hnext]
      exact h.fits
    | _ =>
      obtain ⟨ctx', hrun, -⟩ := runActions_of_handle hctx htable
      cases hrun

variable {st : DirState}

omit [DecidableEq N] in
theorem Fits.tbe_eq_none (h : dir.Fits answers st) (hst : ¬ Blocked st) : dir.tbe = none := by
  rw [← not_isSome_iff_eq_none, h.tbe]
  exact hst

omit [DecidableEq N] in
theorem Fits.exists_tbe (h : dir.Fits answers st) (hst : Blocked st) : ∃ t, dir.tbe = some t :=
  isSome_iff_exists.mp (h.tbe.mpr hst)

/-- **A request of a cache.** -/
theorem Ok.request (h : dir.Ok answers) {r : N} {m : RequestMsg b}
    (hctx : dir.handle (.request r m) = .ok ctx) : ctx.dir.Ok answers := by
  have hfits := h.fits
  obtain ⟨line, entry, tbe, q⟩ := dir
  cases m with
  | GETX =>
    cases hst : getState (⟨line, entry, tbe, q⟩ : Dir N D b) with
    | I =>
      rw [hst] at hfits
      obtain rfl : tbe = none := hfits.tbe_eq_none id
      apply ok_of_transition hctx (by rw [hst]; rfl) (by rfl)
      exact ⟨iff_of_true rfl trivial, fun howned => absurd trivial howned,
        map_type_concat _ hfits.memory⟩
    | M =>
      rw [hst] at hfits
      apply ok_of_transition hctx (by rw [hst]; rfl) (by rfl)
      exact ⟨hfits.tbe, fun howned => absurd trivial howned, hfits.memory⟩
    | _ => exact h.of_quiet hctx (.inl (by rw [hst]; rfl))
  | GETS =>
    have hnot := not_missing hctx
    cases hst : getState (⟨line, entry, tbe, q⟩ : Dir N D b) with
    | IM | MI | ID | ID_W => exact h.of_quiet hctx (.inl (by rw [hst]; rfl))
    | _ =>
      rw [hst] at hnot
      exact absurd rfl hnot
  | PUTX blk =>
    by_cases hr : r ∈ entry.owner
    · have hev : event (⟨line, entry, tbe, q⟩ : Dir N D b) (.request r (.PUTX blk)) = .PUTX :=
        if_pos hr
      have hnot := not_missing hctx
      cases hst : getState (⟨line, entry, tbe, q⟩ : Dir N D b) with
      | M =>
        rw [hst] at hfits
        obtain rfl : tbe = none := hfits.tbe_eq_none id
        apply ok_of_transition hctx (by rw [hst, hev]; rfl) (by rfl)
        exact ⟨iff_of_true rfl trivial, fun _ => rfl, map_type_concat _ hfits.memory⟩
      | M_DRD =>
        rw [hst] at hfits
        obtain ⟨⟨addr, state, data, len, d⟩, rfl⟩ := hfits.exists_tbe trivial
        cases d with
        | none =>
          obtain ⟨ctx', hrun, -⟩ := runActions_of_handle hctx (by rw [hst, hev]; rfl)
          cases hrun
        | some d =>
          apply ok_of_transition hctx (by rw [hst, hev]; rfl) (by rfl)
          exact ⟨iff_of_true rfl trivial, fun _ => rfl, map_type_concat _ hfits.memory⟩
      | M_DWR =>
        rw [hst] at hfits
        obtain ⟨t, rfl⟩ := hfits.exists_tbe trivial
        apply ok_of_transition hctx (by rw [hst, hev]; rfl) (by rfl)
        exact ⟨iff_of_true rfl trivial, fun _ => rfl, map_type_concat _ hfits.memory⟩
      | IM | MI | ID | ID_W => exact h.of_quiet hctx (.inl (by rw [hst, hev]; rfl))
      | _ =>
        rw [hst, hev] at hnot
        exact absurd rfl hnot
    · have hev : event (⟨line, entry, tbe, q⟩ : Dir N D b) (.request r (.PUTX blk))
          = .PUTX_NotOwner := if_neg hr
      cases hst : getState (⟨line, entry, tbe, q⟩ : Dir N D b) with
      | IM | MI | ID | ID_W => exact h.of_quiet hctx (.inl (by rw [hst, hev]; rfl))
      | _ =>
        refine h.of_quiet hctx (.inr (.inr ⟨_, by rw [hst, hev]; rfl, ?_⟩))
        rw [hst]
        rfl

/-- **A request of a DMA controller.** -/
theorem Ok.dmaRequest (h : dir.Ok answers) {d : D} {m : DMARequestMsg b}
    (hctx : dir.handle (.dmaRequest d m) = .ok ctx) : ctx.dir.Ok answers := by
  have hfits := h.fits
  have hnot := not_missing hctx
  obtain ⟨line, entry, tbe, q⟩ := dir
  obtain ⟨type, addr, blk, len⟩ := m
  cases hst : getState (⟨line, entry, tbe, q⟩ : Dir N D b) with
  | I =>
    rw [hst] at hfits
    obtain rfl : tbe = none := hfits.tbe_eq_none id
    cases type with
    | READ | WRITE =>
      apply ok_of_transition hctx (by rw [hst]; rfl) (by rfl)
      exact ⟨iff_of_true rfl trivial, fun _ => hfits.owner id, map_type_concat _ hfits.memory⟩
  | M =>
    rw [hst] at hfits
    obtain rfl : tbe = none := hfits.tbe_eq_none id
    cases type with
    | READ | WRITE =>
      apply ok_of_transition hctx (by rw [hst]; rfl) (by rfl)
      exact ⟨iff_of_true rfl trivial, fun howned => absurd trivial howned, hfits.memory⟩
  | M_DRD | M_DWR | M_DWRI =>
    rw [hst] at hnot
    cases type <;> exact absurd rfl hnot
  | _ => cases type <;> exact h.of_quiet hctx (.inr (.inl (by rw [hst]; rfl)))

omit [DecidableEq N] in
/-- There is one answer, to the request that belongs to the state. -/
theorem Fits.answer (h : dir.Fits (m :: answers) st) :
    outstanding st = [m.type] ∧ answers = [] ∧ dir.requestToMemory = [] := by
  have hmem := h.memory
  rw [cons_append, map_cons] at hmem
  have hone : (answers ++ dir.requestToMemory).map MemoryMsg.type = [] := by
    cases st <;> simp_all [outstanding]
  rw [hone] at hmem
  rw [map_eq_nil_iff, append_eq_nil_iff] at hone
  exact ⟨hmem.symm, hone⟩

/-- The actions for an answer of memory give the TBE back. -/
theorem Ok.of_release (next : DirState) (hctx : handle ⟨line, entry, tbe, []⟩ msg = .ok ctx)
    (htable : transition (getState ⟨line, entry, tbe, []⟩) (event ⟨line, entry, tbe, []⟩ msg)
      = some (.run actions (some next)))
    (hnext : ¬ Blocked next) (howner : ¬ Owned next → entry.owner = ∅)
    (hactions : ∀ ctx', runActions actions { dir := ⟨line, entry, tbe, []⟩, inMsg := msg }
        = some ctx' → ctx'.dir = ⟨line, entry, none, []⟩ ∧ ctx'.handled = .popped) :
    ctx.dir.Ok [] ∧ ctx.handled = .popped := by
  obtain ⟨ctx', hrun, hset, hhandled⟩ := runActions_of_handle hctx htable
  obtain ⟨hdir, hpop⟩ := hactions ctx' hrun
  rw [hdir] at hset
  refine ⟨Fits.setState ⟨iff_of_false (by simp) hnext, howner, ?_⟩ hset, by rw [hhandled, hpop]⟩
  cases next with
  | I | M => rfl
  | _ => exact absurd trivial hnext

/-- **An answer of memory** ends the transaction. -/
theorem Ok.memory (h : dir.Ok (m :: answers)) (hctx : dir.handle (.memory m) = .ok ctx) :
    ctx.dir.Ok answers ∧ ctx.handled = .popped := by
  have hfits := h.fits
  obtain ⟨hout, rfl, hq⟩ := hfits.answer
  obtain ⟨line, entry, tbe, q⟩ := dir
  obtain rfl : q = [] := hq
  obtain ⟨addr, type, sender, blk, len⟩ := m
  have hblocked : Blocked (getState (⟨line, entry, tbe, []⟩ : Dir N D b)) := by
    revert hout
    cases getState (⟨line, entry, tbe, []⟩ : Dir N D b) with
    | I | M => exact nofun
    | _ => exact fun _ => trivial
  obtain ⟨⟨paddr, state, data, n, d⟩, rfl⟩ := hfits.exists_tbe hblocked
  cases hst : getState (⟨line, entry, some ⟨paddr, state, data, n, d⟩, []⟩ : Dir N D b) with
  | IM =>
    rw [hst] at hout
    obtain rfl : type = .MEMORY_READ := (cons.inj hout).1.symm
    apply Ok.of_release .M hctx (by rw [hst]; rfl) not_false (absurd trivial)
    intro ctx' hrun
    cases sender <;> cases hrun
    exact ⟨rfl, rfl⟩
  | ID =>
    rw [hst] at hout hfits
    obtain rfl : type = .MEMORY_READ := (cons.inj hout).1.symm
    apply Ok.of_release .I hctx (by rw [hst]; rfl) not_false (fun _ => hfits.owner not_false)
    intro ctx' hrun
    cases d <;> cases hrun
    exact ⟨rfl, rfl⟩
  | MI | M_DRDI | ID_W | M_DWRI =>
    rw [hst] at hout hfits
    obtain rfl : type = .MEMORY_WB := (cons.inj hout).1.symm
    apply Ok.of_release .I hctx (by rw [hst]; rfl) not_false (fun _ => hfits.owner not_false)
    -- the answer is for a cache, or for the DMA controller in the TBE, or both are told
    intro ctx' hrun
    cases sender <;> cases d <;> cases hrun
    all_goals exact ⟨rfl, rfl⟩
  | _ =>
    rw [hst] at hout
    cases hout

/-! ## Missing transitions -/

/-- The events that can occur in a state. -/
def Possible (st : DirState) : DirEvent → Prop
  | .GETS => False
  | .PUTX => Owned st
  | .Memory_Data => outstanding st = [.MEMORY_READ]
  | .Memory_Ack => outstanding st = [.MEMORY_WB]
  | _ => True

/-- The three states that lack the DMA events. -/
def LacksDMA (st : DirState) : Prop := st = .M_DRD ∨ st = .M_DWR ∨ st = .M_DWRI

instance (st : DirState) : Decidable (LacksDMA st) := by
  unfold LacksDMA
  infer_instance

omit [DecidableEq N] in
/-- **What the table lacks** of the events that can occur. -/
theorem transition_eq_none_iff {ev : DirEvent} (hev : Possible st ev) :
    transition (N := N) (D := D) (b := b) st ev = none ↔
      (ev = .DMA_READ ∨ ev = .DMA_WRITE) ∧ LacksDMA st := by
  cases ev with
  | GETS => exact absurd hev id
  | PUTX =>
    refine iff_of_false ?_ (by simp)
    cases st <;> simp_all [Possible, Owned, transition]
  | Memory_Data | Memory_Ack =>
    refine iff_of_false ?_ (by simp)
    cases st <;> simp_all [Possible, outstanding, transition]
  | GETX | PUTX_NotOwner =>
    refine iff_of_false ?_ (by simp)
    cases st <;> simp [transition]
  | DMA_READ | DMA_WRITE => cases st <;> simp [transition, LacksDMA]

theorem handle_eq_missing_iff (hmsg : Possible dir.getState (dir.event msg)) :
    dir.handle msg = .error .missing ↔ (∃ d m, msg = .dmaRequest d m) ∧ LacksDMA dir.getState := by
  unfold handle
  rw [doTransition_eq_missing, transition_eq_none_iff hmsg]
  apply and_congr_left
  intro _
  cases msg with
  | request r m =>
    refine iff_of_false ?_ (by simp)
    cases m with
    | GETX | GETS => simp [event]
    | PUTX blk => by_cases hr : r ∈ dir.entry.owner <;> simp [event, hr]
  | dmaRequest d m =>
    refine iff_of_true ?_ ⟨d, m, rfl⟩
    cases hm : m.type <;> simp [event, hm]
  | memory m =>
    refine iff_of_false ?_ (by simp)
    cases hm : m.type <;> simp [event, hm]

end

end Dir

/-! ## The caches ask with `GETX` and `PUTX` -/

namespace Cache

/-- An action does not send `GETS`. -/
def SendsNoGETS (a : CacheCtx N b → Option (CacheCtx N b)) : Prop :=
  ∀ ctx ctx', a ctx = some ctx' → .GETS ∉ ctx.requests → .GETS ∉ ctx'.requests

theorem sendsNoGETS_aIssueRequest : SendsNoGETS (N := N) (b := b) aIssueRequest := by
  intro ctx ctx' h hctx
  cases h
  simpa using hctx

theorem sendsNoGETS_bIssuePUT : SendsNoGETS (N := N) (b := b) bIssuePUT := by
  intro ctx ctx' h hctx
  unfold bIssuePUT at h
  split at h
  · cases h
    simpa using hctx
  · cases h

/-- The other actions leave the requests alone. -/
theorem sendsNoGETS_others : ∀ a ∈ [eSendData (N := N) (b := b), eeSendDataFromTBE,
    iAllocateL1CacheBlock, hDeallocateL1CacheBlock, mPopMandatoryQueue, nPopResponseQueue,
    oPopForwardedRequestQueue, rLoadHit, sStoreHit, uWriteDataToCache, vAllocateTBE,
    wDeallocateTBE, xCopyDataFromCacheToTBE], SendsNoGETS a := by
  intro a ha ctx ctx' h hctx
  have hsame : ctx'.requests = ctx.requests := by
    simp only [mem_cons, not_mem_nil, or_false] at ha
    rcases ha with rfl | rfl | rfl | rfl | rfl | rfl | rfl | rfl | rfl | rfl | rfl | rfl | rfl
    case inr.inr.inr.inl | inr.inr.inr.inr.inl | inr.inr.inr.inr.inr.inl |
      inr.inr.inr.inr.inr.inr.inl =>
        cases h
        rfl
    all_goals
      simp only [eSendData, eeSendDataFromTBE, iAllocateL1CacheBlock, rLoadHit, sStoreHit,
        uWriteDataToCache, vAllocateTBE, wDeallocateTBE, xCopyDataFromCacheToTBE] at h
      split at h <;> cases h <;> rfl
  rw [hsame]
  exact hctx

theorem sendsNoGETS_of_mem {state : CacheState} {ev : CacheEvent} {next : Option CacheState}
    {actions : List (CacheCtx N b → Option (CacheCtx N b))}
    (h : transition state ev = some (.run actions next)) : ∀ a ∈ actions, SendsNoGETS a := by
  have hothers := sendsNoGETS_others (N := N) (b := b)
  unfold transition at h
  split at h <;> cases h <;>
    simp [hothers, sendsNoGETS_aIssueRequest, sendsNoGETS_bIssuePUT]

/-- **A cache never sends `GETS`.** -/
theorem handle_requests {c : Cache b} {msg : CacheIn N b} {ctx : CacheCtx N b}
    (h : c.handle msg = .ok ctx) : .GETS ∉ ctx.requests := by
  refine doTransition_preserves (P := fun ctx => .GETS ∉ ctx.requests) ?_ ?_ h (by simp)
  · intro actions next htable a ha
    exact sendsNoGETS_of_mem htable a ha
  · intro st ctx1 ctx2 hset hctx1
    cases hset
    exact hctx1

end Cache

/-! ## Runs -/

/-- The steps of the directory. -/
def Label.ToDirectory : Label N D b → Prop
  | .request _ _ | .dmaRequest _ _ | .memory => True
  | _ => False

namespace System

/-- **The invariant of the system**, as far as the directory depends on it. -/
structure Ok (s : System N D b) : Prop where
  dir : s.dir.Ok s.responseFromMemory
  requests : ∀ i, .GETS ∉ s.requests i

variable {s : System N D b}

theorem ok_init (line : Addr) (mem : Memory) : (init line mem : System N D b).Ok := by
  refine ⟨⟨rfl, ⟨?_, ?_, rfl⟩⟩, fun _ => not_mem_nil⟩
  · exact iff_of_false (by simp [init]) not_false
  · intro _
    rfl

/-- The directory, memory and what is between them. -/
def dirSide (s : System N D b) : Dir N D b × Memory × List (MemoryMsg (MachineID N D) b) :=
  (s.dir, s.mem, s.responseFromMemory)

/-- The cache sends the request when it handles some message. -/
def Sends (s : System N D b) (i : N) (m : RequestMsg b) : Prop :=
  ∃ (msg : CacheIn N b) (ctx : CacheCtx N b), (s.caches i).handle msg = .ok ctx ∧ m ∈ ctx.requests

section

variable [DecidableEq N] [DecidableEq D] {s' : System N D b} {l : Label N D b} {i j : N}

omit [DecidableEq D] in
theorem requests_afterCache {msg : CacheIn N b} {ctx : CacheCtx N b} {x : RequestMsg b}
    (hctx : (s.caches i).handle msg = .ok ctx) (hx : x ∈ (s.afterCache i ctx).requests j) :
    x ∈ s.requests j ∨ s.Sends j x := by
  by_cases hj : j = i
  · subst hj
    simp only [afterCache, Function.update_self, mem_append] at hx
    exact hx.imp_right fun hx => ⟨msg, ctx, hctx, hx⟩
  · simp only [afterCache, Function.update_of_ne hj] at hx
    exact .inl hx

theorem mem_of_mem_consumeDir {α : Type} {handled : Handled} {k : ℕ} {m x : α} {rest : List α}
    (h : x ∈ consumeDir handled k m rest) : x ∈ m :: rest := by
  cases handled with
  | kept => exact h
  | popped => exact mem_cons_of_mem m h
  | recycled =>
    simp only [consumeDir, mem_append, mem_cons] at h
    rcases h with h | h | h
    · exact mem_cons_of_mem m (mem_of_mem_take h)
    · exact h ▸ mem_cons_self
    · exact mem_cons_of_mem m (mem_of_mem_drop h)

/-- **What a step does on the side of the directory**: the caches send the requests, and the
steps of the other machines leave the directory alone. -/
theorem next_dirSide (h : s.next l = some s') :
    (∀ j, ∀ x ∈ s'.requests j, x ∈ s.requests j ∨ s.Sends j x) ∧
    ((¬ l.ToDirectory ∧ l ≠ .serviceMemory ∧ s'.dirSide = s.dirSide) ∨
    (∃ i k m rest ctx, (l = .request i k ∧ s.requests i = m :: rest ∧
        s.dir.handle (.request i m) = .ok ctx) ∧
      s'.dirSide = (ctx.dir, s.mem, s.responseFromMemory)) ∨
    (∃ d k m rest ctx, (l = .dmaRequest d k ∧ s.dmaRequests d = m :: rest ∧
        s.dir.handle (.dmaRequest d m) = .ok ctx) ∧
      s'.dirSide = (ctx.dir, s.mem, s.responseFromMemory)) ∨
    (∃ m rest mem answer, (l = .serviceMemory ∧ s.dir.requestToMemory = m :: rest ∧
        serviceMemoryQueue m s.mem = some (mem, answer)) ∧
      s'.dirSide
        = ({ s.dir with requestToMemory := rest }, mem, s.responseFromMemory ++ [answer])) ∨
    (∃ m rest ctx, (l = .memory ∧ s.responseFromMemory = m :: rest ∧
        s.dir.handle (.memory m) = .ok ctx) ∧
      s'.dirSide = (ctx.dir, s.mem, System.consumeDir ctx.handled 0 m rest))) := by
  obtain ⟨c, hstep⟩ := exists_step h
  cases l with
  | load i | ifetch i | store i w =>
    obtain ⟨ctx, hctx, heq⟩ := exists_of_map_ok (some.inj hstep)
    cases heq
    exact ⟨fun j x => requests_afterCache hctx, .inl ⟨not_false, by simp, rfl⟩⟩
  | replacement i =>
    simp only [step] at hstep
    split at hstep
    · obtain ⟨ctx, hctx, heq⟩ := exists_of_map_ok (some.inj hstep)
      cases heq
      exact ⟨fun j x => requests_afterCache hctx, .inl ⟨not_false, by simp, rfl⟩⟩
    · cases hstep
  | forward i | dirData i w | cacheData j i w =>
    simp only [step] at hstep
    split at hstep
    · cases hstep
    · obtain ⟨ctx, hctx, heq⟩ := exists_of_map_ok (some.inj hstep)
      cases heq
      exact ⟨fun j x => requests_afterCache hctx, .inl ⟨not_false, by simp, rfl⟩⟩
  | request i k =>
    simp only [step] at hstep
    split at hstep
    · cases hstep
    · rename_i m rest hq
      obtain ⟨ctx, hctx, heq⟩ := exists_of_map_ok (some.inj hstep)
      cases heq
      refine ⟨fun j x hx => .inl ?_, .inr (.inl ⟨i, k, m, rest, ctx, ⟨rfl, hq, hctx⟩, rfl⟩)⟩
      by_cases hj : j = i
      · subst hj
        simp only [deliverRequest, Function.update_self] at hx
        rw [hq]
        exact mem_of_mem_consumeDir hx
      · simp only [deliverRequest, Function.update_of_ne hj] at hx
        exact hx
  | dmaRequest | memory =>
    simp only [step] at hstep
    split at hstep
    · cases hstep
    · rename_i m rest hq
      obtain ⟨ctx, hctx, heq⟩ := exists_of_map_ok (some.inj hstep)
      cases heq
      refine ⟨fun j x => .inl, ?_⟩
      first
        | exact .inr (.inr (.inl ⟨_, _, m, rest, ctx, ⟨rfl, hq, hctx⟩, rfl⟩))
        | exact .inr (.inr (.inr (.inr ⟨m, rest, ctx, ⟨rfl, hq, hctx⟩, rfl⟩)))
  | serviceMemory =>
    simp only [step] at hstep
    split at hstep
    · cases hstep
    · rename_i m rest hq
      split at hstep
      · cases hstep
      · rename_i mem answer hservice
        obtain ⟨rfl, -⟩ := Prod.mk.inj (Except.ok.inj (some.inj hstep))
        exact ⟨fun j x => .inl,
          .inr (.inr (.inr (.inl ⟨m, rest, mem, answer, ⟨rfl, hq, hservice⟩, rfl⟩)))⟩
  | sequencer d msg =>
    obtain ⟨ctx, -, heq⟩ := exists_of_map_ok (some.inj hstep)
    cases heq
    exact ⟨fun j x => .inl, .inl ⟨not_false, by simp, rfl⟩⟩
  | dmaResponse d =>
    simp only [step] at hstep
    split at hstep
    · cases hstep
    · obtain ⟨ctx, -, heq⟩ := exists_of_map_ok (some.inj hstep)
      cases heq
      exact ⟨fun j x => .inl, .inl ⟨not_false, by simp, rfl⟩⟩

theorem Ok.next (h : s.Ok) (hnext : s.next l = some s') : s'.Ok := by
  obtain ⟨hrequests, hcases⟩ := next_dirSide hnext
  refine ⟨?_, ?_⟩
  · -- what is left of the side of the directory is the step of the directory
    have hside : ∀ {dir mem answers}, s'.dirSide = (dir, mem, answers) → dir.Ok answers →
        s'.dir.Ok s'.responseFromMemory := by
      rintro _ _ _ ⟨⟩
      exact id
    rcases hcases with ⟨-, -, heq⟩ | ⟨i, _, m, _, ctx, ⟨-, -, hctx⟩, heq⟩ |
      ⟨_, _, m, _, ctx, ⟨-, -, hctx⟩, heq⟩ | ⟨m, rest, mem, answer, ⟨-, hq, hservice⟩, heq⟩ |
      ⟨m, rest, ctx, ⟨-, hq, hctx⟩, heq⟩
    · exact hside heq h.dir
    · exact hside heq (h.dir.request hctx)
    · exact hside heq (h.dir.dmaRequest hctx)
    · have hmem := h.dir.fits.memory
      rw [hq, map_append, map_cons, ← service_type hservice] at hmem
      refine hside heq ⟨h.dir.state, ⟨h.dir.fits.tbe, h.dir.fits.owner, ?_⟩⟩
      simp only [map_append, map_cons, append_assoc, singleton_append]
      exact hmem
    · have hdir := h.dir
      rw [hq] at hdir
      obtain ⟨hok, hpop⟩ := hdir.memory hctx
      rw [hpop] at heq
      exact hside heq hok
  · intro i hi
    rcases hrequests i _ hi with hi | ⟨msg, ctx, hctx, hi⟩
    · exact h.requests i hi
    · exact Cache.handle_requests hctx hi

/-- **After every run the directory is as it should be.** -/
theorem ok_run {line : Addr} {mem : Memory} {labels : List (Label N D b)}
    (hrun : runSteps next (init line mem) labels = some s) : s.Ok :=
  runSteps_invariant (fun _ _ _ h hnext => h.next hnext) (ok_init line mem) hrun

omit [DecidableEq D] in
/-- The events of the directory that can occur after a run. -/
theorem Ok.possible_request (h : s.Ok) {i : N} {m : RequestMsg b} {rest : List (RequestMsg b)}
    (hq : s.requests i = m :: rest) : Dir.Possible s.dir.getState (s.dir.event (.request i m)) := by
  cases m with
  | GETX => trivial
  | GETS =>
    apply h.requests i
    rw [hq]
    exact mem_cons_self
  | PUTX blk =>
    by_cases hi : i ∈ s.dir.entry.owner
    · simp only [Dir.event, if_pos hi]
      by_contra howned
      rw [h.dir.fits.owner howned] at hi
      exact Finset.notMem_empty i hi
    · simp only [Dir.event, if_neg hi]
      trivial

omit [DecidableEq D] in
theorem Ok.possible_memory (h : s.Ok) {rest : List (MemoryMsg (MachineID N D) b)}
    (hq : s.responseFromMemory = m :: rest) :
    Dir.Possible s.dir.getState (s.dir.event (.memory m)) := by
  have hfits := h.dir.fits
  rw [hq] at hfits
  obtain ⟨hout, -, -⟩ := hfits.answer
  cases hm : m.type with
  | MEMORY_READ | MEMORY_WB =>
    rw [hm] at hout
    simp only [Dir.event, hm]
    exact hout

end

end System

theorem map_eq_missing {α β : Type} {x : Except Fault α} {f : α → β} :
    x.map f = .error .missing ↔ x = .error .missing := by
  cases x with
  | ok a => exact iff_of_false nofun nofun
  | error e => simp [Except.map]

/-- **DMA races.**  After every run, with any number of caches and of DMA
controllers, a step of the directory lacks a transition exactly if it is a DMA
request in `M_DRD`, `M_DWR` or `M_DWRI`. -/
theorem missing_iff_dma_race [DecidableEq N] [DecidableEq D] (line : Addr) (mem : Memory)
    (labels : List (Label N D b)) (s : System N D b)
    (hrun : runSteps next (init line mem) labels = some s) (l : Label N D b)
    (hl : l.ToDirectory) (out : Outcome (System N D b) b) (hstep : s.step l = some out) :
    out = .error .missing ↔ (∃ d k, l = .dmaRequest d k) ∧ Dir.LacksDMA s.dir.getState := by
  have hok := ok_run hrun
  cases l with
  | request | memory =>
    simp only [step] at hstep
    split at hstep
    · cases hstep
    · rename_i m rest hq
      cases hstep
      first
        | rw [map_eq_missing, Dir.handle_eq_missing_iff (hok.possible_request hq)]
        | rw [map_eq_missing, Dir.handle_eq_missing_iff (hok.possible_memory hq)]
      simp
  | dmaRequest d k =>
    simp only [step] at hstep
    split at hstep
    · cases hstep
    · rename_i m rest hq
      cases hstep
      have hpossible : Dir.Possible s.dir.getState (s.dir.event (.dmaRequest d m)) := by
        cases hm : m.type <;> simp [Dir.event, hm, Dir.Possible]
      rw [map_eq_missing, Dir.handle_eq_missing_iff hpossible]
      simp
  | _ => exact absurd hl id

attribute [local instance] neZero_one neZero_two

/-- A cache owns the line, and a DMA write is on its way. -/
def dmaWriteOfOwned : List (Label (Fin 1) (Fin 2) 6) :=
  [.store 0 fun _ => 1, .request 0 0, .serviceMemory, .memory, .sequencer 0 ⟨.WRITE, 0, fun _ => 2, 8⟩,
    .dmaRequest 0 0, .sequencer 1 ⟨.READ, 0, fun _ => 0, 64⟩]

/-- **What the directory has fits its state**, after every run with DMA. -/
theorem directory_fits [DecidableEq N] [DecidableEq D] (line : Addr) (mem : Memory)
    (labels : List (Label N D b)) {s : System N D b}
    (hrun : runSteps next (init line mem) labels = some s) :
    s.dir.Fits s.responseFromMemory s.dir.entry.directoryState := by
  have h := (ok_run hrun).dir
  rw [h.state]
  exact h.fits

theorem directory_fits_owned : ∃ s, runSteps next (init 0 fun _ => 0) dmaWriteOfOwned = some s ∧
    s.dir.Fits s.responseFromMemory .M_DWR := by
  exact ⟨_, rfl, directory_fits 0 (fun _ => 0) dmaWriteOfOwned rfl⟩

/-- Then a request of the other DMA controller arrives in `M_DWR`. -/
theorem dma_race_missing :
    ∃ s, runSteps next (init 0 fun _ => 0) dmaWriteOfOwned = some s ∧
      s.dir.getState = .M_DWR ∧ s.step (.dmaRequest 1 0) = some (.error .missing) := by
  exact ⟨_, rfl, rfl, rfl⟩

/-- The line is not cached, and memory is busy with a DMA write. -/
def dmaWriteOfUncached : List (Label (Fin 1) (Fin 2) 6) :=
  [.sequencer 0 ⟨.WRITE, 0, fun _ => 2, 8⟩, .dmaRequest 0 0, .sequencer 1 ⟨.READ, 0, fun _ => 0, 64⟩]

/-- There the request of the other DMA controller is recycled. -/
theorem missing_iff_dma_race_uncached :
    ∃ s out, runSteps next (init 0 fun _ => 0) dmaWriteOfUncached = some s ∧
      s.step (.dmaRequest 1 0) = some out ∧ out ≠ .error .missing := by
  obtain ⟨s, out, hs, hout, hstate⟩ : ∃ s out,
      runSteps next (init 0 fun _ => 0) dmaWriteOfUncached = some s ∧
      s.step (.dmaRequest 1 0) = some out ∧ ¬ Dir.LacksDMA s.dir.getState :=
    ⟨_, _, rfl, rfl, by decide⟩
  refine ⟨s, out, hs, hout, ?_⟩
  intro hmissing
  exact hstate ((missing_iff_dma_race _ _ _ s hs (.dmaRequest 1 0) trivial out hout).mp hmissing).2

end MIExample
