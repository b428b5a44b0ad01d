/-
# Coherence of MI_example

Every step without DMA keeps the invariant of `Coherent`, and none meets a missing
transition or a failed assertion (`Coherent.step`): a step of a processor, a
message to a cache, a request to the directory, memory.
-/
import Gem5.MIExampleInvariant

open Function Option

namespace MIExample

open MIExample.System

open Ruby

variable {N D : Type} {b : ℕ}

/-! ## Steps -/

section

variable [DecidableEq N] {i : N}

/-- A step without fault that sees the latest value and keeps the invariant. -/
def Good (line : Addr) (v : DataBlock b) (out : Outcome (System N D b) b) : Prop :=
  ∃ s c, out = .ok (s, c) ∧ (∀ x, c = some x → x.seen = v) ∧
    ∃ owners tok role, Coherent s line (valueAfter v c) owners tok role

namespace Coherent

variable {s : System N D b} {line : Addr} {v w : DataBlock b} {owners : List N} {tok : Token N}
  {role : N → Role} {k : ℕ} {ctx : CacheCtx N b} {m : RequestMsg b} {r : Role}

section

variable (h : Coherent s line v owners tok role)

include h

variable {msg : CacheIn N b}

/-- A cache handles a message of its processor and sends no data. -/
theorem good_cacheStep (hctx : (s.caches i).handle msg = .ok ctx)
    (hresp : ctx.responses = []) (hseen : ∀ x, ctx.completion = some x → x.seen = v)
    (hfits : Fits (valueAfter v ctx.completion) (behind owners i) ctx.cache
      (s.requests i ++ ctx.requests) (s.forwards i) r)
    (halike : r.Alike (role i)) (hval : valueAfter v ctx.completion = v ∨ (role i).Holds) :
    Good line v (s.cacheStep i msg) := by
  have hnext := h.setView hfits halike hval
  rw [← afterCache_eq s i hresp] at hnext
  refine ⟨s.afterCache i ctx, ctx.completion, ?_, hseen, owners, tok, _, hnext⟩
  unfold cacheStep
  rw [hctx]
  rfl

/-- **The processor asks for something.** -/
theorem good_processor (hmsg : msg.asks ≠ none ∨ msg = .replacement) :
    Good line v (s.cacheStep i msg) := by
  have hfits := h.fits i
  by_cases hidle : role i = .idle
  · rw [hidle] at hfits
    obtain ⟨e, hc, hq, hf⟩ := hfits
    cases hask : msg.asks with
    | some write =>
      obtain ⟨x, y, hctx⟩ := Cache.handle_idle e hask
      rw [← hc] at hctx
      refine h.good_cacheStep hctx rfl (by simp) (r := .asking write) ?_ ?_ (.inl rfl)
      · rw [hq]
        exact ⟨x, y, rfl, rfl, hf⟩
      · rw [hidle]
        exact ⟨.rfl, .rfl, by simp⟩
    | none =>
      obtain rfl : msg = .replacement := by simpa [hask] using hmsg
      have hctx := congrArg (Cache.handle (N := N) · .replacement) hc
      cases e with
      | none | some e =>
        refine h.good_cacheStep hctx rfl (by simp) (r := .idle) ?_ ?_ (.inl rfl)
        · rw [hq]
          exact ⟨none, rfl, rfl, hf⟩
        · rw [hidle]
          exact .refl _
  by_cases hown : role i = .owning
  · rw [hown] at hfits
    obtain ⟨hc, hq, hf⟩ := hfits
    have hholds : (role i).Holds := by
      rw [hown]
      exact trivial
    have halike : Role.owning.Alike (role i) := by
      rw [hown]
      exact .refl _
    have hctx := congrArg (Cache.handle · msg) hc
    cases msg with
    | load | ifetch | store w =>
      refine h.good_cacheStep hctx rfl ?_ ?_ halike (.inr hholds)
      · rintro x hx
        cases hx
        rfl
      · rw [hq]
        exact ⟨rfl, rfl, hf⟩
    | replacement =>
      refine h.good_cacheStep hctx rfl (by simp) (r := .putting) ?_ ?_ (.inl rfl)
      · rw [hq]
        exact ⟨rfl, rfl, hf⟩
      · rw [hown]
        exact ⟨.rfl, .rfl, by simp⟩
    | forward | response => simp [CacheIn.asks] at hmsg
  -- all others wait for something
  have hstate := hfits.getState_eq
  have hctx : (s.caches i).handle msg = .ok { cache := s.caches i, inMsg := msg } := by
    apply Cache.handle_busy hmsg
    · rw [hstate]
      exact fun hI => hidle (Role.state_eq_I.mp hI)
    · rw [hstate]
      exact fun hM => hown (Role.state_eq_M.mp hM)
  refine h.good_cacheStep hctx rfl (by simp) ?_ (.refl _) (.inl rfl)
  rw [List.append_nil]
  exact hfits

/-- A cache handles a forwarded message and sends no data. -/
theorem good_forward {m : ForwardMsg N}
    {rest : List (ForwardMsg N)}
    (hctx : (s.caches i).handle (.forward m) = .ok ctx) (hresp : ctx.responses = [])
    (hcompl : ctx.completion = none)
    (hfits : Fits v (behind owners i) ctx.cache (s.requests i ++ ctx.requests)
      (consume ctx.popped m rest) r)
    (halike : r.Alike (role i)) :
    Good line v (((s.caches i).handle (.forward m)).map fun ctx =>
      (s.deliverForward i m rest ctx, ctx.completion)) := by
  have hnext := h.setView hfits halike (.inl rfl)
  refine ⟨_, none, ?_, by simp, owners, tok, _, hnext⟩
  rw [hctx, ← hcompl]
  unfold deliverForward
  show Except.ok (_, _) = _
  rw [afterCache_eq s i hresp]
  rfl

/-- The holder of the copy handles the `GETX` of the one behind it. -/
theorem good_handOver {i k : N} {f : List (ForwardMsg N)} (hnext : behind owners i = some k)
    (hi : (role i).Holds) (hctx : (s.caches i).handle (.forward (.GETX k)) = .ok ctx)
    (hresp : ctx.responses = [(k, v)]) (hcompl : ctx.completion = none) (hpop : ctx.popped = true)
    (hfits : Fits v none ctx.cache (s.requests i ++ ctx.requests) f r) (halike : r.Alike .idle) :
    Good line v (((s.caches i).handle (.forward (.GETX k))).map fun ctx =>
      (s.deliverForward i (.GETX k) f ctx, ctx.completion)) := by
  obtain ⟨rfl, hhead⟩ := (h.holds i).mp hi
  cases owners with
  | nil => cases hhead
  | cons o l =>
    obtain rfl : o = i := some.inj hhead
    obtain ⟨l', rfl⟩ := behind_head_eq_some hnext
    refine ⟨_, none, ?_, by simp, k :: l', _, _, h.handOver hfits halike⟩
    rw [hctx, ← hcompl]
    show Except.ok (_, _) = _
    unfold System.deliverForward System.afterCache System.setView
    rw [hresp, hpop]
    rfl

/-- **A forwarded message is delivered.** -/
theorem good_deliver_forward {m : ForwardMsg N} {rest : List (ForwardMsg N)}
    (hm : s.forwards i = m :: rest) :
    Good line v (((s.caches i).handle (.forward m)).map fun ctx =>
      (s.deliverForward i m rest ctx, ctx.completion)) := by
  have hfits := h.fits i
  rw [hm] at hfits
  cases hr : role i with
  | idle | asking write | released | gone =>
    rw [hr] at hfits
    simp [Fits] at hfits
  | waiting write =>
    rw [hr] at hfits
    obtain ⟨x, y, hc, hq, hf⟩ := hfits
    obtain ⟨k, hk, rfl, rfl⟩ := eq_of_forwarded hf
    have hctx := congrArg (Cache.handle · (.forward (.GETX k))) hc
    cases write with
    | false | true =>
      refine h.good_forward hctx rfl rfl ?_ (.refl _)
      rw [hr, hq, hk]
      exact ⟨x, y, rfl, rfl, rfl⟩
  | owning =>
    rw [hr] at hfits
    obtain ⟨hc, hq, hf⟩ := hfits
    obtain ⟨k, hk, rfl, rfl⟩ := eq_of_forwarded hf
    have hctx := congrArg (Cache.handle · (.forward (.GETX k))) hc
    refine h.good_handOver hk (by rw [hr]; trivial) hctx rfl rfl rfl ?_ (.refl _)
    rw [hq]
    exact ⟨some v, rfl, rfl, rfl⟩
  | putting =>
    rw [hr] at hfits
    obtain ⟨hc, hq, hf⟩ := hfits
    obtain ⟨k, hk, rfl, rfl⟩ := eq_of_forwarded hf
    have hctx := congrArg (Cache.handle · (.forward (.GETX k))) hc
    refine h.good_handOver hk (by rw [hr]; trivial) hctx rfl rfl rfl (r := .gone) ?_
      ⟨.rfl, .rfl, by simp⟩
    rw [hq]
    exact ⟨v, v, rfl, rfl, rfl⟩
  | nacked =>
    rw [hr] at hfits
    obtain ⟨hc, hq, k, hk, hf⟩ := hfits
    cases hf
    have hctx := congrArg (Cache.handle · (.forward (.GETX k))) hc
    refine h.good_handOver hk (by rw [hr]; trivial) hctx rfl rfl rfl (r := .goneNacked) ?_
      ⟨.rfl, .rfl, by simp⟩
    rw [hq]
    exact ⟨v, rfl, rfl, rfl⟩
  | acked | goneNacked =>
    rw [hr] at hfits
    obtain ⟨x, hc, hq, hf⟩ := hfits
    have hctx := congrArg (Cache.handle · (.forward m)) hc
    cases hf
    refine h.good_forward hctx rfl rfl (r := .idle) ?_ ?_
    · rw [hq]
      exact ⟨none, rfl, rfl, rfl⟩
    · rw [hr]
      exact ⟨.rfl, .rfl, by simp⟩

/-- The head of the line is waiting while the copy is on its way. -/
theorem waiting_head (hhead : owners.head? = some i) (htok : tok ≠ .held) :
    ∃ write, role i = .waiting write := by
  have hin := (h.inLine i).mpr (List.mem_of_mem_head? hhead)
  have hholds : ¬ (role i).Holds := fun hi => htok ((h.holds i).mp hi).1
  cases hr : role i with
  | waiting write => exact ⟨write, rfl⟩
  | owning | putting | nacked =>
    rw [hr] at hholds
    exact absurd trivial hholds
  | _ =>
    rw [hr] at hin
    exact absurd hin id

/-- **Data arrives**, from the directory or from another cache: `s'` is the state
after the delivery. -/
theorem good_arrive
    (hhead : owners.head? = some i) (htok : tok = .dirData ∨ ∃ j, tok = .cacheData j)
    {after : CacheCtx N b → System N D b}
    (hafter : ∀ ctx, ctx.responses = [] → ctx.requests = [] → ctx.popped = true →
      after ctx = { s with
        caches := update s.caches i ctx.cache
        dirData := fun _ => []
        cacheData := fun _ _ => [] }) :
    Good line v (((s.caches i).handle (.response v w)).map fun ctx => (after ctx, ctx.completion)) := by
  have hne : tok ≠ .held := by
    rcases htok with rfl | ⟨j, rfl⟩ <;> simp
  obtain ⟨write, hr⟩ := h.waiting_head hhead hne
  have hfits := h.fits i
  rw [hr] at hfits
  obtain ⟨x, y, hc, -, -⟩ := hfits
  rw [hc]
  cases write with
  | false | true =>
    refine ⟨_, _, rfl, ?_, owners, .held, update role i .owning, ?_⟩
    · intro c hcompl
      cases hcompl
      rfl
    · dsimp only
      rw [hafter _ rfl rfl rfl]
      exact h.arrive hhead htok hr

/-- **Memory serves a request.** -/
theorem good_service (hb : b < 64) (hline : 2 ^ b ∣ line.toNat) {m : MemoryMsg (MachineID N D) b}
    {rest : List (MemoryMsg (MachineID N D) b)} (hm : s.dir.requestToMemory = m :: rest) :
    ∃ mem answer, serviceMemoryQueue m s.mem = some (mem, answer) ∧
      Good line v (.ok (s.afterService rest mem answer, none)) := by
  rcases h.requestToMemory_cases (by simp [hm]) with ⟨i, rfl⟩ | rfl
  · obtain ⟨rfl, ⟨t, hdir⟩, hans⟩ := h.dir
    rw [hdir] at hm
    cases hm
    obtain ⟨mem', hservice, hread⟩ := service_writeBack hb hline (MachineID.L1Cache i) v s.mem
    refine ⟨mem', _, hservice, _, none, rfl, by simp, _, _, _,
      h.served (.writeBack i true) (.inl ⟨i, rfl, rfl⟩) ?_⟩
    rw [hans, hdir]
    exact ⟨rfl, ⟨t, rfl⟩, rfl, hread⟩
  · obtain ⟨o, rfl, ⟨t, hdir⟩, hans, hread⟩ := h.dir
    rw [hdir] at hm
    cases hm
    refine ⟨_, _, service_read line (MachineID.L1Cache o) _ s.mem, _, none, rfl, by simp, _, _, _,
      h.served (.fetch true) (.inr ⟨rfl, rfl⟩) ?_⟩
    rw [hans, hdir, hread]
    exact ⟨o, rfl, ⟨t, rfl⟩, rfl⟩

variable [DecidableEq D]

/-- A recycled request leaves everything as it is. -/
theorem good_recycle
    (hm : s.requests i = [m])
    (hctx : s.dir.handle (.request i m)
      = .ok { dir := s.dir, inMsg := .request i m, handled := .recycled }) :
    Good line v ((s.dir.handle (.request i m)).map fun ctx =>
      (s.deliverRequest i k m [] ctx, none)) := by
  refine ⟨s, none, ?_, by simp, owners, tok, role, h⟩
  rw [hctx]
  show Except.ok (_, _) = _
  unfold deliverRequest afterDir consumeDir
  simp [← hm]

/-- A refused `PUTX`. -/
theorem good_refuse
    (hctx : s.dir.handle (.request i m)
      = .ok { dir := s.dir, inMsg := .request i m, forwards := [({i}, .WB_NACK)],
              handled := .popped })
    (hfits : Fits v (behind owners i) (s.caches i) [] (s.forwards i ++ [.WB_NACK]) r)
    (halike : r.Alike (role i)) :
    Good line v ((s.dir.handle (.request i m)).map fun ctx =>
      (s.deliverRequest i k m [] ctx, none)) := by
  refine ⟨_, none, ?_, by simp, owners, tok, _, h.setView hfits halike (.inl rfl)⟩
  rw [hctx]
  show Except.ok (_, _) = _
  unfold System.deliverRequest System.setView
  rw [afterDir_forward rfl rfl rfl]
  simp [consumeDir]

/-- A `GETX` that the directory accepts, or recycles while it waits for memory. -/
theorem good_join {write : Bool} (hrole : role i = .asking write) (hreq : s.requests i = [.GETX]) :
    Good line v ((s.dir.handle (.request i .GETX)).map fun ctx =>
      (s.deliverRequest i k .GETX [] ctx, none)) := by
  rcases h.dir_cases with ⟨state, owner, t, q, hstate, hdir⟩ | ⟨rfl, hdir⟩ | ⟨htok, o, hlast, hdir⟩
  · apply h.good_recycle hreq
    rw [hdir, Dir.handle_recycle line t i hstate]
  · obtain ⟨rfl, -, hans, hmem⟩ := h.dir
    refine ⟨_, none, ?_, by simp, _, _, _,
      h.join hrole (.fetch false) ⟨line, ⟨.IM, {i}⟩, some { ({} : DirTBE D b) with tbeState := .IM },
        [⟨line, .MEMORY_READ, .L1Cache i, fun _ => 0, 0⟩]⟩ (.inr ⟨rfl, rfl⟩)
        ⟨i, rfl, ⟨{}, rfl⟩, hans, hmem⟩⟩
    rw [hdir]
    show Except.ok (_, _) = _
    unfold deliverRequest
    rw [afterDir_quiet rfl rfl rfl]
    rfl
  · have hne : owners ≠ [] := by
      rintro rfl
      cases hlast
    have hwb : ∀ j done, tok ≠ .writeBack j done := by
      rintro j done rfl
      exact htok
    have hans : s.responseFromMemory = [] := by
      obtain ⟨o', -, -, hans⟩ := (dirFits_cached htok).mp h.dir
      exact hans
    refine ⟨_, none, ?_, by simp, _, _, _,
      h.join hrole tok ⟨line, ⟨.M, {i}⟩, none, []⟩ (.inl ⟨rfl, hne, hwb⟩)
        ((dirFits_cached htok).mpr ⟨i, by simp, rfl, hans⟩)⟩
    rw [hdir]
    show Except.ok (_, _) = _
    unfold deliverRequest
    -- the request is forwarded to the last one in line
    have hforwards : update s.forwards o (s.forwards o ++ [.GETX i])
        = fun j => if some o = some j then s.forwards j ++ [.GETX i] else s.forwards j := by
      funext j
      by_cases hj : j = o
      · subst hj
        simp
      · simp [hj, Ne.symm hj]
    rw [afterDir_forward rfl rfl rfl, hlast, hforwards]
    rfl

/-- The `PUTX` of a cache that has handed the copy over is refused, once the
directory is not busy. -/
theorem good_gone {y : DataBlock b} (hrole : role i = .gone) (hreq : s.requests i = [.PUTX y]) :
    Good line v ((s.dir.handle (.request i (.PUTX y))).map fun ctx =>
      (s.deliverRequest i k (.PUTX y) [] ctx, none)) := by
  have hrefuse : ∀ entry, s.dir = ⟨line, entry, none, []⟩ →
      (entry = ⟨.I, ∅⟩ ∨ ∃ o, entry = ⟨.M, {o}⟩) → i ∉ entry.owner →
      Good line v ((s.dir.handle (.request i (.PUTX y))).map fun ctx =>
        (s.deliverRequest i k (.PUTX y) [] ctx, none)) := by
    intro entry hdir hentry hown
    have hctx := Dir.handle_refuse (D := D) line y i entry hentry hown
    rw [← hdir] at hctx
    have hfits := h.fits i
    rw [hrole] at hfits
    obtain ⟨x, z, hc, -, hf⟩ := hfits
    refine h.good_refuse hctx (r := .goneNacked) ?_ ?_
    · rw [hf]
      exact ⟨x, hc, rfl, rfl⟩
    · rw [hrole]
      exact ⟨.rfl, .rfl, by simp⟩
  rcases h.dir_cases with ⟨state, owner, t, q, hstate, hdir⟩ | ⟨rfl, hdir⟩ | ⟨htok, o, hlast, hdir⟩
  · apply h.good_recycle hreq
    rw [hdir, Dir.handle_recycle line t i hstate]
  · exact hrefuse _ hdir (.inl rfl) (Finset.notMem_empty i)
  · apply hrefuse _ hdir (.inr ⟨o, rfl⟩)
    rw [Finset.mem_singleton]
    rintro rfl
    have hin := (h.inLine i).mpr (List.mem_of_getLast? hlast)
    rw [hrole] at hin
    exact hin

/-- The `PUTX` of the holder is accepted if it is alone in line, and refused if the
directory has already forwarded a request to it. -/
theorem good_put (hrole : role i = .putting) :
    Good line v ((s.dir.handle (.request i (.PUTX v))).map fun ctx =>
      (s.deliverRequest i k (.PUTX v) [] ctx, none)) := by
  have hholds : (role i).Holds := by
    rw [hrole]
    exact trivial
  obtain ⟨rfl, hhead⟩ := (h.holds i).mp hholds
  obtain ⟨o, hlast, hdir, -⟩ := h.dir
  have hmem : i ∈ owners := List.mem_of_mem_head? hhead
  by_cases hoi : o = i
  · subst hoi
    obtain rfl : owners = [o] := by
      cases owners with
      | nil => cases hhead
      | cons x l =>
        cases hhead
        cases l with
        | nil => rfl
        | cons y l => exact absurd hlast (getLast?_ne_head (List.nodup_cons.mp h.nodup).1)
    refine ⟨_, none, ?_, by simp, _, _, _, h.release hrole { dataBlk := v }⟩
    have hevent : Dir.event (D := D) ⟨line, ⟨.M, {o}⟩, none, []⟩ (.request o (.PUTX v)) = .PUTX :=
      if_pos (Finset.mem_singleton_self o)
    rw [hdir, Dir.handle, hevent]
    show Except.ok (_, _) = _
    unfold deliverRequest
    rw [afterDir_quiet rfl rfl rfl]
    rfl
  · have hctx := Dir.handle_refuse (D := D) line v i ⟨.M, {o}⟩ (.inr ⟨o, rfl⟩)
      (by simpa using Ne.symm hoi)
    rw [← hdir] at hctx
    have hfits := h.fits i
    rw [hrole] at hfits
    obtain ⟨hc, -, hf⟩ := hfits
    refine h.good_refuse hctx (r := .nacked) ?_ ?_
    · cases hbehind : behind owners i with
      | none =>
        have hlast' := (behind_eq_none_iff h.nodup hmem).mp hbehind
        rw [hlast] at hlast'
        exact absurd (some.inj hlast') hoi
      | some j =>
        rw [hf, hbehind]
        exact ⟨hc, rfl, j, rfl, rfl⟩
    · rw [hrole]
      exact ⟨.rfl, .rfl, by simp⟩

/-- **A request is delivered to the directory.** -/
theorem good_deliver_request {rest : List (RequestMsg b)} (hm : s.requests i = m :: rest) :
    Good line v ((s.dir.handle (.request i m)).map fun ctx =>
      (s.deliverRequest i k m rest ctx, none)) := by
  have hfits := h.fits i
  rw [hm] at hfits
  cases hr : role i with
  | asking | gone =>
    rw [hr] at hfits
    obtain ⟨x, y, -, hq, -⟩ := hfits
    cases hq
    first
      | exact h.good_join hr hm
      | exact h.good_gone hr hm
  | putting =>
    rw [hr] at hfits
    obtain ⟨-, hq, -⟩ := hfits
    cases hq
    exact h.good_put hr
  | _ =>
    rw [hr] at hfits
    simp [Fits] at hfits

/-- **Memory answers.** -/
theorem good_memory {m : MemoryMsg (MachineID N D) b}
    {rest : List (MemoryMsg (MachineID N D) b)} (hm : s.responseFromMemory = m :: rest) :
    Good line v ((s.dir.handle (.memory m)).map fun ctx => (s.deliverMemory m rest ctx, none)) := by
  rcases h.responseFromMemory_cases (by simp [hm]) with ⟨i, rfl⟩ | rfl
  · obtain ⟨rfl, ⟨t, hdir⟩, hans, -⟩ := h.dir
    rw [hans] at hm
    cases hm
    have hforward : s.forwards i = [] := by
      have hfits := h.fits i
      rw [(h.released i).mpr ⟨true, rfl⟩] at hfits
      obtain ⟨x, -, -, hf⟩ := hfits
      exact hf
    refine ⟨_, none, ?_, by simp, _, _, _, h.sendAck⟩
    rw [hdir]
    show Except.ok (_, _) = _
    unfold deliverMemory
    rw [afterDir_forward rfl rfl rfl, hforward]
    rfl
  · obtain ⟨o, rfl, ⟨t, hdir⟩, hans⟩ := h.dir
    rw [hans] at hm
    cases hm
    refine ⟨_, none, ?_, by simp, _, _, _, h.sendData⟩
    rw [hdir]
    show Except.ok (_, _) = _
    unfold deliverMemory afterDir
    simp [consumeDir]

/-! ### All steps -/

end

/-- A channel with at most one message in it. -/
theorem one_eq_cons {α : Type} {P : Prop} [Decidable P] {x m : α} {rest : List α}
    (h : (if P then [x] else []) = m :: rest) : P ∧ m = x ∧ rest = [] := by
  split at h
  case isTrue hP =>
    cases h
    exact ⟨hP, rfl, rfl⟩
  case isFalse => cases h

/-- **Every step is good**, if there is no DMA controller. -/
theorem step [DecidableEq D] [IsEmpty D] (h : Coherent s line v owners tok role) (hb : b < 64)
    (hline : 2 ^ b ∣ line.toNat) {l : Label N D b} {out : Outcome (System N D b) b}
    (hstep : s.step l = some out) : Good line v out := by
  cases l with
  | load i | ifetch i | store i w =>
    cases hstep
    exact h.good_processor (.inl (by simp [CacheIn.asks]))
  | replacement i =>
    simp only [System.step] at hstep
    split at hstep
    · cases hstep
      exact h.good_processor (.inr rfl)
    · cases hstep
  | forward i | request i k | memory =>
    simp only [System.step] at hstep
    split at hstep
    · cases hstep
    · rename_i m rest hm
      cases hstep
      first
        | exact h.good_deliver_forward hm
        | exact h.good_deliver_request hm
        | exact h.good_memory hm
  | dirData i w =>
    simp only [System.step] at hstep
    split at hstep
    · cases hstep
    · rename_i m rest hm
      cases hstep
      obtain ⟨⟨rfl, hhead⟩, rfl, rfl⟩ := one_eq_cons ((h.dirData i).symm.trans hm)
      apply h.good_arrive hhead (.inl rfl)
      intro ctx hresp hreq hpop
      have hdata : update s.dirData i [] = fun _ => [] := by
        refine update_eq_iff.mpr ⟨rfl, fun j hj => ?_⟩
        rw [h.dirData, if_neg]
        rintro ⟨-, hj'⟩
        exact hj (some.inj (hj'.symm.trans hhead))
      have hcache : s.cacheData = fun _ _ => [] := by
        funext j k
        rw [h.cacheData, if_neg (by simp)]
      unfold System.deliverDirData
      rw [System.afterCache_eq s i hresp, hreq, hpop]
      simp [System.setView, consume, hdata, hcache]
  | cacheData j i w =>
    simp only [System.step] at hstep
    split at hstep
    · cases hstep
    · rename_i m rest hm
      cases hstep
      obtain ⟨⟨rfl, hhead⟩, rfl, rfl⟩ := one_eq_cons ((h.cacheData j i).symm.trans hm)
      apply h.good_arrive hhead (.inr ⟨j, rfl⟩)
      intro ctx hresp hreq hpop
      have hdata : s.dirData = fun _ => [] := by
        funext k
        rw [h.dirData, if_neg (by simp)]
      have hcache : update s.cacheData j (update (s.cacheData j) i []) = fun _ _ => [] := by
        refine update_eq_iff.mpr ⟨update_eq_iff.mpr ⟨rfl, fun l hl => ?_⟩, fun k hk => ?_⟩
        · rw [h.cacheData, if_neg]
          rintro ⟨-, hl'⟩
          exact hl (some.inj (hl'.symm.trans hhead))
        · funext l
          rw [h.cacheData, if_neg]
          rintro ⟨htok, -⟩
          exact hk (Token.cacheData.inj htok).symm
      unfold System.deliverCacheData
      rw [System.afterCache_eq s i hresp, hreq, hpop]
      simp [System.setView, consume, hdata, hcache]
  | serviceMemory =>
    simp only [System.step] at hstep
    split at hstep
    · cases hstep
    · rename_i m rest hm
      obtain ⟨mem, answer, hservice, hgood⟩ := h.good_service hb hline hm
      rw [hservice] at hstep
      cases hstep
      exact hgood
  | dmaRequest d k | sequencer d msg | dmaResponse d => exact isEmptyElim d

end Coherent

/-! ## Runs -/

theorem coherent_init (line : Addr) (mem : Memory) :
    Coherent (init line mem : System N D b) line (readBlock mem line.toNat) [] .memory
      fun _ => .idle where
  nodup := List.nodup_nil
  fits := fun i => ⟨none, rfl, rfl, rfl⟩
  inLine := fun i => iff_of_false id (by simp)
  holds := fun i => iff_of_false id (by simp)
  released := fun i => iff_of_false (by simp) (by simp)
  dirData := fun i => rfl
  cacheData := fun j i => rfl
  dir := ⟨rfl, rfl, rfl, rfl⟩

/-- A cache that may write. -/
def Cache.Writable (c : Cache b) : Prop := c.getState = .M ∨ c.getState = .MII

/-- Only the holder of the copy is in `M`, and none is in `MII`. -/
theorem Coherent.holder {s : System N D b} {line : Addr} {v : DataBlock b} {owners : List N}
    {tok : Token N} {role : N → Role} (h : Coherent s line v owners tok role)
    (hi : (s.caches i).Writable) : tok = .held ∧ owners.head? = some i := by
  rw [Cache.Writable, (h.fits i).getState_eq, Role.state_eq_M] at hi
  rw [← h.holds]
  rcases hi with hi | hi
  · rw [hi]
    exact trivial
  · exfalso
    cases hr : role i with
    | asking w | waiting w => rw [hr] at hi; cases w <;> cases hi
    | _ => rw [hr] at hi; cases hi

variable [DecidableEq D]

/-- **The invariant holds after every run.** -/
theorem coherent_run [IsEmpty D] (hb : b < 64) {line : Addr} (hline : 2 ^ b ∣ line.toNat)
    {mem : Memory} {ls : List (Label N D b)} {s : System N D b}
    (hrun : runSteps next (init line mem) ls = some s) :
    ∃ owners tok role, Coherent s line
      (latestStore step (init line mem) (readBlock mem line.toNat) ls) owners tok role := by
  refine latestStore_invariant
    (I := fun s v => ∃ owners tok role, Coherent s line v owners tok role) ?_
    ⟨_, _, _, coherent_init line mem⟩ hrun
  rintro s v l s' c ⟨owners, tok, role, h⟩ hstep
  obtain ⟨s1, c1, heq, -, h'⟩ := h.step hb hline hstep
  obtain ⟨rfl, rfl⟩ := Prod.mk.inj (Except.ok.inj heq)
  exact h'

/-- **Coherence of MI_example**: in every state that is reached, at most one cache
is in `M` or `MII`, then no data is on its way and the directory is not in `I`; no
step faults; and what completes sees the latest store. -/
theorem coherence [IsEmpty D] (hb : b < 64) (line : Addr) (hline : 2 ^ b ∣ line.toNat)
    (mem : Memory) (ls : List (Label N D b)) (s : System N D b)
    (hrun : runSteps next (init line mem) ls = some s) :
    (∀ i j, (s.caches i).Writable → (s.caches j).Writable → i = j) ∧ (∀ i, (s.caches i).Writable →
      (∀ j, s.dirData j = [] ∧ ∀ k, s.cacheData k j = []) ∧ s.dir.getState ≠ .I) ∧
    (∀ l out, s.step l = some out → ∀ fault, out ≠ .error fault) ∧
    ∀ l s' c, s.step l = some (.ok (s', some c)) →
      c.seen = latestStore step (init line mem) (readBlock mem line.toNat) ls := by
  obtain ⟨owners, tok, role, h⟩ := coherent_run hb hline hrun
  refine ⟨?_, ?_, ?_, ?_⟩
  · intro i j hi hj
    have hhead := (h.holder hi).2
    rw [(h.holder hj).2] at hhead
    exact (some.inj hhead).symm
  · intro i hi
    obtain ⟨rfl, -⟩ := h.holder hi
    obtain ⟨hdir, hcache⟩ := h.channels_held
    refine ⟨fun j => ⟨hdir j, fun k => hcache k j⟩, ?_⟩
    obtain ⟨o, -, hdir, -⟩ := h.dir
    rw [hdir]
    exact nofun
  · rintro l out hstep fault rfl
    obtain ⟨s', c, heq, -⟩ := h.step hb hline hstep
    cases heq
  · intro l s' c hstep
    obtain ⟨s1, c', heq, hseen, -⟩ := h.step hb hline hstep
    obtain ⟨-, rfl⟩ := Prod.mk.inj (Except.ok.inj heq)
    exact hseen c rfl

attribute [local instance] neZero_two

/-- Cache 0 stores, then cache 1 loads the line from it. -/
def twoCaches : List (Label (Fin 2) Empty 6) :=
  [.store 0 fun _ => 7, .request 0 0, .serviceMemory, .memory, .dirData 0 fun _ => 7,
    .load 1, .request 1 0, .forward 0, .cacheData 0 1 fun _ => 0]

theorem coherence_twoCaches :
    ∃ s, runSteps next (init 0 fun _ => 0) twoCaches = some s ∧
      (∀ i j, (s.caches i).Writable → (s.caches j).Writable → i = j) ∧
      (∀ i, (s.caches i).Writable →
        (∀ j, s.dirData j = [] ∧ ∀ k, s.cacheData k j = []) ∧ s.dir.getState ≠ .I) ∧
      (∀ l out, s.step l = some out → ∀ fault, out ≠ .error fault) ∧
      ∀ l s' c, s.step l = some (.ok (s', some c)) → c.seen = fun _ => 7 :=
  ⟨_, rfl, coherence (by decide) 0 (by decide) (fun _ => 0) twoCaches _ rfl⟩

/-- **With every cache in a stable state the system is at rest**: no message is on
its way, and the one copy, which has the latest store, is where the directory says. -/
theorem stable_exact [IsEmpty D] (hb : b < 64) (line : Addr) (hline : 2 ^ b ∣ line.toNat)
    (mem : Memory) (ls : List (Label N D b)) (s : System N D b)
    (hrun : runSteps next (init line mem) ls = some s)
    (hstable : ∀ i, (s.caches i).getState = .I ∨ (s.caches i).getState = .M) :
    let v := latestStore step (init line mem) (readBlock mem line.toNat) ls
    (∀ i, s.requests i = [] ∧ s.forwards i = [] ∧ s.dirData i = [] ∧ ∀ j, s.cacheData j i = []) ∧
    s.responseFromMemory = [] ∧
    ((∃ o, s.dir = ⟨line, ⟨.M, {o}⟩, none, []⟩ ∧ s.caches o = ⟨some ⟨.M, v⟩, none⟩ ∧
        ∀ i, i ≠ o → (s.caches i).getState = .I) ∨
      s.dir = ⟨line, ⟨.I, ∅⟩, none, []⟩ ∧ readBlock s.mem line.toNat = v ∧
        ∀ i, (s.caches i).getState = .I) := by
  obtain ⟨owners, tok, role, h⟩ := coherent_run hb hline hrun
  simp only [(h.fits _).getState_eq, Role.state_eq_I, Role.state_eq_M] at hstable ⊢
  have hidle (i : N) (hi : i ∉ owners) : role i = .idle := by
    refine (hstable i).resolve_right fun hr => hi ?_
    rw [← h.inLine, hr]
    exact trivial
  have hquiet (i : N) (hnext : behind owners i = none) : s.requests i = [] ∧ s.forwards i = [] := by
    have hfits := h.fits i
    rw [hnext] at hfits
    rcases hstable i with hr | hr <;> rw [hr] at hfits
    · exact hfits.choose_spec.2
    · exact hfits.2
  have hdir := h.dir
  obtain ⟨rfl, rfl⟩ | ⟨o, rfl, rfl⟩ := h.owners_of_stable hstable
  · obtain ⟨-, hdir, hanswers, hv⟩ := hdir
    refine ⟨fun i => ?_, hanswers, .inr ⟨hdir, hv, fun i => hidle i List.not_mem_nil⟩⟩
    simp [hquiet i rfl, h.dirData, h.cacheData]
  · obtain ⟨_, ⟨rfl⟩, hdir, hanswers⟩ := hdir
    refine ⟨fun i => ?_, hanswers, .inl ⟨o, hdir, ?_, fun i hi => hidle i (by simpa using hi)⟩⟩
    · simp [hquiet i (by simp [behind]), h.dirData, h.cacheData]
    · have ho := h.fits o
      rw [(hstable o).resolve_left fun hr => by simpa [hr, Role.InLine] using h.inLine o] at ho
      exact ho.1

theorem stable_exact_twoCaches :
    ∃ s, runSteps next (init 0 fun _ => 0) twoCaches = some s ∧
      (∀ i, s.requests i = [] ∧ s.forwards i = [] ∧ s.dirData i = [] ∧
        ∀ j, s.cacheData j i = []) ∧ s.responseFromMemory = [] ∧
      ((∃ o, s.dir = ⟨0, ⟨.M, {o}⟩, none, []⟩ ∧ s.caches o = ⟨some ⟨.M, fun _ => 7⟩, none⟩ ∧
          ∀ i, i ≠ o → (s.caches i).getState = .I) ∨
        s.dir = ⟨0, ⟨.I, ∅⟩, none, []⟩ ∧ (readBlock s.mem 0 = fun _ : Fin (2 ^ 6) => 7) ∧
          ∀ i, (s.caches i).getState = .I) := by
  refine ⟨_, rfl, stable_exact (by decide) 0 (by decide) (fun _ => 0) twoCaches _ rfl ?_⟩
  exact Fin.forall_fin_two.mpr ⟨.inl rfl, .inr rfl⟩

end

end MIExample
