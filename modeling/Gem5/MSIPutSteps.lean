/-
# A `PutS` or a `PutM` arrives

The directory lets a cache go that evicts the line: it forgets it as a sharer
(`dismiss`), or takes the data of its owner and writes it back (`release`).  A `PutS`
may come after the `GetM` of another cache was served (`System.Overtaken`).
-/
import Gem5.MSIGetSteps

open Function Finset

namespace MSI

open MSI.System

open Ruby Ghost

variable {N : Type} {b : ℕ} {i : N} {has : Rest} {put : Put} {m : RequestMsg b} {tok : Token N}

/-! ## What the directory does -/

namespace Dir

variable [DecidableEq N] (line : Addr) (owner : Finset N) (q : List (MemoryMsg N b)) (i : N)

/-- The sharers that a request to let `i` go leaves. -/
def dismissed (st : DirState) (sharers : Finset N) (i : N) : Finset N :=
  match st with
  | .S | .S_D | .S_m | .SS_m => sharers.erase i
  | _ => sharers

/-- The event changes no more than the sharers. -/
def Dismisses (st : DirState) (event : DirEvent) : Prop :=
  event = .PutSNotLast ∨ event = .PutMNonOwner ∨
    event = .PutSLast ∧ st ≠ .S ∧ st ≠ .S_m ∧ st ≠ .SS_m

theorem handle_dismiss {st : DirState} {sharers : Finset N} (e : DirEvent)
    (hevent : event ⟨line, st, sharers, owner, q⟩ (.request i m) = some e) (he : Dismisses st e)
    (hM : st = .M → owner.card = 1 ∧ sharers.card = 0)
    (hI : st = .I → owner.card = 0 ∧ sharers.card = 0) :
    handle ⟨line, st, sharers, owner, q⟩ (.request i m)
      = .ok { dir := ⟨line, st, dismissed st sharers i, owner, q⟩, inMsg := .request i m,
              forwards := [({i}, .PutAck)], popped := true } := by
  have hset : setState ⟨line, st, dismissed st sharers i, owner, q⟩ st
      = some ⟨line, st, dismissed st sharers i, owner, q⟩ := by
    refine if_pos ⟨?_, ?_⟩
    · rintro rfl
      exact hM rfl
    · rintro rfl
      exact hI rfl
  have hrun : ∀ actions, transition st e = some (.run actions none) →
      runActions actions ⟨⟨line, st, sharers, owner, q⟩, .request i m, [], [], false⟩
        = some ⟨⟨line, st, dismissed st sharers i, owner, q⟩, .request i m, [({i}, .PutAck)], [],
            true⟩ →
      handle ⟨line, st, sharers, owner, q⟩ (.request i m)
        = .ok ⟨⟨line, st, dismissed st sharers i, owner, q⟩, .request i m, [({i}, .PutAck)], [],
            true⟩ := by
    intro actions ht hr
    simp [handle, hevent, ht, doTransition, hr, hset]
  rcases he with rfl | rfl | ⟨rfl, hS, hS_m, hSS_m⟩
  · cases st <;> exact hrun _ rfl rfl
  · cases st <;> exact hrun _ rfl rfl
  · cases st with
    | S => exact absurd rfl hS
    | S_m => exact absurd rfl hS_m
    | SS_m => exact absurd rfl hSS_m
    | _ => exact hrun _ rfl rfl

/-- The last sharer leaves. -/
theorem handle_putS_last :
    handle (b := b) ⟨line, .S, {i}, ∅, []⟩ (.request i .PutS)
      = .ok { dir := ⟨line, .I, ∅, ∅, []⟩, inMsg := .request i .PutS,
              forwards := [({i}, .PutAck)], popped := true } := by
  have hevent : event (b := b) ⟨line, .S, {i}, ∅, []⟩ (.request i .PutS) = some .PutSLast := by
    simp [event]
  unfold handle
  rw [hevent]
  simp [doTransition, transition, runActions, removeReqFromSharers, sendPutAck, popRequestQueue,
    setState]

end Dir

/-! ## A cache is let go -/

variable {p : Place N}

/-- The request of a cache that evicts the line is answered. -/
theorem Fits.dismissed {v : DataBlock b} {l : Local N b}
    (h : Fits v p (.leaving has (some put)) l) (hdirty : has = .dirty → p.part.next ≠ none) :
    Fits v p (.leaving has none) ⟨l.cache, [], l.forwards ++ [.PutAck], l.dirData⟩ := by
  have hallowed := h.allowed
  obtain ⟨d, hc, hd⟩ := h.cache
  have hfresh : p.Fresh (.leaving has none) → d = v := by cases has <;> exact hd
  refine ⟨?_, ⟨d, hc, hfresh⟩, ⟨d, rfl, hfresh⟩, ?_, h.dirData⟩
  · cases has with
    | nothing => exact hallowed
    | copy => exact hallowed.1
    | dirty =>
      cases put with
      | PutS => exact absurd hallowed id
      | PutM =>
        obtain ⟨⟨next, hhead⟩, hinv⟩ := hallowed
        obtain ⟨m, hm⟩ := Option.ne_none_iff_exists'.mp (hdirty rfl)
        rw [hhead] at hm
        obtain rfl : next = some m := hm
        exact ⟨.inr ⟨m, hhead⟩, hinv⟩
  · rw [show l.forwards = _ from h.forwards]
    simp [Place.forwards, Role.putAck]

/-- The directory does not count a cache as a sharer that it has let go. -/
theorem Place.Allows.not_shares (h : p.Allows (.leaving has none)) :
    ¬ p.Shares (.leaving has none) := by
  by_cases hbusy : p.busy = true
  · rw [Place.shares_of_busy hbusy]
    cases has with
    | nothing =>
      rw [h.1]
      simp [Part.next]
    | copy =>
      rw [show p.part = .outside from h]
      simp [Part.next]
    | dirty =>
      rcases h.1 with hout | ⟨m, hhead⟩
      · simp [hout]
      · simp [hhead]
  · rw [Place.shares_of_not_busy (by simpa using hbusy)]
    cases has <;> exact id

/-- There is no line, and memory is not read. -/
def Token.Unlined : Token N → Prop
  | settled _ | writeBack _ _ | downgrade _ => True
  | _ => False

theorem Token.Unlined.ne_read (h : tok.Unlined) (i : N) : tok ≠ .read i := by
  rintro rfl
  exact h

theorem Token.Unlined.ne_fetch (h : tok.Unlined) (acks : ℕ) : tok ≠ .fetch acks := by
  rintro rfl
  exact h

namespace Ghost

variable {g : Ghost N}

theorem Counts.of_unlined (h : g.Counts) (htok : g.tok.Unlined) :
    g.line = [] ∧ g.inv = ∅ ∧ g.ack = ∅ ∧ g.down = none := by
  unfold Counts at h
  cases hg : g.tok with
  | settled shared | writeBack i shared | downgrade j => rwa [hg] at h
  | _ =>
    rw [hg] at htok
    exact absurd htok id

/-- The head, if nothing is forwarded to it, is alone in line. -/
theorem line_eq_singleton [DecidableEq N] (hhead : g.line.head? = some i) (hnext : g.next i = none) :
    g.line = [i] ∧ g.down = none := by
  cases hline : g.line with
  | nil =>
    rw [hline] at hhead
    cases hhead
  | cons x l =>
    rw [hline] at hhead
    obtain rfl : x = i := Option.some.inj hhead
    cases l with
    | nil =>
      refine ⟨rfl, ?_⟩
      simpa [next, hline] using hnext
    | cons y l => simp [next, hline] at hnext

/-- What the directory waits for when memory is read. -/
theorem tok_of_dirState :
    (g.dirState = .S_m → ∃ k, g.tok = .read k) ∧ (g.dirState = .M_m → ∃ acks, g.tok = .fetch acks) := by
  unfold dirState
  cases g.tok with
  | settled shared => cases shared <;> simp
  | read k => simp
  | writeBack i shared => cases shared <;> simp
  | downgrade j | fetch acks => simp
  | _ => by_cases hdown : g.down = none <;> simp [hdown]

end Ghost

namespace Coherent

variable [DecidableEq N] {s : System N b} {line : Addr} {v : DataBlock b} {g : Ghost N}

variable (h : Coherent s line v g)

include h

/-- **A cache is let go** that the directory does not take the data of. -/
theorem dismiss (sharers : Finset N) (hrole : g.role i = .leaving has (some put))
    (hdirty : has = .dirty → g.next i ≠ none)
    (hfetch : ∀ acks, g.tok = .fetch acks → sharers = s.dir.sharers)
    (herase : (∀ acks, g.tok ≠ .fetch acks) → sharers = s.dir.sharers.erase i) :
    Coherent
      { s with
        dir := { s.dir with sharers := sharers }
        requests := update s.requests i []
        forwards := update s.forwards i (s.forwards i ++ [.PutAck]) }
      line v (g.setRole i (.leaving has none)) := by
  have hold := h.fits i
  rw [hrole] at hold
  have hnext : has = .dirty → (g.place i).part.next ≠ none := by
    rintro rfl
    cases put with
    | PutS => exact absurd hold.allowed id
    | PutM =>
      obtain ⟨⟨next, hhead⟩, -⟩ := hold.allowed
      have hnext := (head_of_part hhead).2.2.2
      rw [hhead]
      rw [← hnext]
      exact hdirty rfl
  have hnew := hold.dismissed hnext
  have hsub : sharers ⊆ s.dir.sharers := by
    by_cases hfetching : ∃ acks, g.tok = .fetch acks
    · obtain ⟨acks, htok⟩ := hfetching
      rw [hfetch acks htok]
    · rw [herase fun acks htok => hfetching ⟨acks, htok⟩]
      exact erase_subset _ _
  refine ⟨h.nodup, h.counts, h.disjoint, h.down, ?_, h.dataToDir, ?_, ?_⟩
  · refine h.fits_update rfl (fun _ _ => rfl) ?_ ?_
    · intro j hj
      simp [localAt, hj]
    · simpa [localAt] using hnew
  · refine h.responses_update rfl ?_ ?_ ?_
    · simp [hrole]
    · exact fun _ _ => .rfl
    · exact fun _ _ => .rfl
  · refine ⟨h.dir.addr, h.dir.dirState, h.dir.owner, ?_, ?_, ?_, h.dir.queue⟩
    · intro acks htok
      rw [hfetch acks htok]
      exact h.dir.count acks htok
    · intro htok j
      rw [herase htok, mem_erase]
      by_cases hj : j = i
      · subst hj
        rw [role_setRole]
        exact iff_of_false (fun hmem => hmem.1 rfl) hnew.allowed.not_shares
      · rw [role_setRole_of_ne g _ hj, h.dir.sharers htok j]
        exact and_iff_right hj
    · intro hst
      exact subset_empty.mp ((h.dir.empty hst) ▸ hsub)

/-- **Without a line**, data gets from one place to another. -/
theorem retok (tok : Token N) (st : DirState) (q answers : List (MemoryMsg N b)) (mem : Memory)
    (dataToDir : N → List (DataBlock b)) (hold : g.tok.Unlined) (hnew : tok.Unlined)
    (hst : ({ g with tok := tok } : Ghost N).dirState = st)
    (hempty : st = .I ∨ st = .MI_m → s.dir.sharers = ∅)
    (hdata : ∀ j, dataToDir j = if tok = .downgrade j then [v] else [])
    (hqueue : ∀ head, tok.Queue line v head q answers mem) :
    let g' : Ghost N := { g with tok := tok }
    Coherent
      { s with
        dir := ⟨line, st, s.dir.sharers, ∅, q⟩
        mem := mem
        responseFromMemory := answers
        dataToDir := dataToDir }
      line v g' := by
  intro g'
  obtain ⟨hnil, hinv, hack, hdown⟩ := h.counts.of_unlined hold
  have hplace : ∀ j, g'.place j = g.place j := by
    intro j
    rw [place_of_nil hnil (hold.ne_read j) hdown]
    exact place_of_nil hnil (hnew.ne_read j) hdown
  refine ⟨h.nodup, ?_, h.disjoint, h.down, ?_, hdata, ?_, ?_⟩
  · cases tok with
    | settled shared | writeBack i shared | downgrade j => exact ⟨hnil, hinv, hack, hdown⟩
    | _ => exact absurd hnew id
  · intro j
    rw [hplace j]
    exact h.fits j
  · intro j k
    refine (h.responses j k).trans (Eq.symm (responses_congr v ?_ .rfl))
    simp [g', hnil]
  · refine ⟨rfl, hst.symm, ?_, ?_, ?_, hempty, hqueue _⟩
    · simp [owner, g', hnil]
    · intro acks hfetch
      exact absurd hfetch (hnew.ne_fetch acks)
    · intro _ j
      rw [hplace j]
      exact h.dir.sharers hold.ne_fetch j

/-- The directory forgets that there were sharers. -/
theorem settle (htok : g.tok = .settled true) (hsharers : s.dir.sharers = ∅) :
    Coherent { s with dir := ⟨line, .I, s.dir.sharers, ∅, []⟩ } line v
      { g with tok := .settled false } := by
  have hqueue := h.dir.queue
  rw [htok] at hqueue
  refine h.retok _ _ _ _ _ _ (by rw [htok]; trivial) trivial rfl (fun _ => hsharers) ?_ ?_
  · intro j
    rw [h.dataToDir j, if_neg (by simp [htok]), if_neg (by simp)]
  · exact fun _ => ⟨rfl, hqueue.2⟩

/-- **The owner is let go**, and its data is written back. -/
theorem release (hline : g.line = [i]) (htok : g.tok = .held) (hdown : g.down = none)
    (hrole : g.role i = .leaving .dirty (some .PutM)) : let g' : Ghost N :=
      { role := update g.role i (.leaving .dirty none)
        line := []
        tok := .writeBack i false
        inv := ∅
        ack := ∅
        down := none }
    Coherent
      { s with
        dir := ⟨line, .MI_m, ∅, ∅, [⟨line, .MEMORY_WB, i, v, 0⟩]⟩
        requests := update s.requests i []
        forwards := update s.forwards i (s.forwards i ++ [.PutAck]) }
      line v g' := by
  intro g'
  have hcounts := h.counts
  simp only [Counts, htok] at hcounts
  obtain ⟨hne, hinv, hack⟩ := hcounts
  have hhead : g.line.head? = some i := by rw [hline]; rfl
  have hacks : g.acks = 0 := by simp [acks, htok]
  have hnext : g.next i = none := by simp [next_of_down hdown, hline]
  have hold_i : g.place i = ⟨.head .held 0 none, none, true⟩ := by
    rw [place_of_head hhead (by simp [hinv]), htok, hacks, hnext]
  have hold : ∀ j, j ≠ i → g.place j = ⟨.outside, none, true⟩ := fun j hj =>
    place_of_outside (by simp [hline, hj]) hne (by simp [htok]) (by simp [hdown])
      (by simp [hinv])
  have hplace : ∀ j, g'.place j = ⟨.outside, none, false⟩ := fun j =>
    place_of_nil rfl (by simp) rfl
  have hans := ((Token.queue_of_cached (by rw [htok]; trivial)).mp h.dir.queue).2
  refine ⟨List.nodup_nil, ⟨rfl, rfl, rfl, rfl⟩, disjoint_empty_right _, by simp, ?_, ?_, ?_, ?_⟩
  · intro j
    rw [hplace j]
    by_cases hj : j = i
    · subst hj
      have hfits := h.fits j
      rw [hrole, hold_i] at hfits
      obtain ⟨d, hc, -⟩ := hfits.cache
      have hf : s.forwards j = [] := hfits.forwards
      rw [show g'.role j = .leaving .dirty none from update_self _ _ _]
      refine ⟨⟨.inl rfl, rfl⟩, ⟨d, hc, fun hne' => absurd rfl hne'⟩,
        ⟨d, ?_, fun hne' => absurd rfl hne'⟩, ?_, hfits.dirData⟩
      · simp [localAt, Role.requests]
      · simp [localAt, hf, Place.forwards, Part.next, Role.putAck]
    · have hfits := h.fits j
      rw [hold j hj] at hfits
      rw [show g'.role j = g.role j from update_of_ne hj _ _]
      simpa [localAt, hj] using hfits.of_busy
  · intro j
    rw [h.dataToDir j, if_neg (by simp [htok]), if_neg (by simp)]
  · refine h.responses_update rfl ?_ ?_ ?_
    · simp [hrole]
    · simp [htok]
    · simp [g', hack]
  · refine ⟨rfl, rfl, by simp [owner, g'], by simp, ?_, fun _ => rfl, .inl ⟨rfl, hans⟩⟩
    intro _ j
    apply iff_of_false (notMem_empty j)
    by_cases hj : j = i
    · subst hj
      rw [show g'.role j = .leaving .dirty none from update_self _ _ _]
      exact id
    · have hallowed := (h.fits j).allowed
      rw [hold j hj] at hallowed
      rw [show g'.role j = g.role j from update_of_ne hj _ _]
      exact hallowed.not_recorded

/-- What the directory checks when it stays in `M` or `I`. -/
theorem stays : (g.dirState = .M → g.owner.card = 1 ∧ s.dir.sharers.card = 0) ∧
      (g.dirState = .I → g.owner.card = 0 ∧ s.dir.sharers.card = 0) := by
  rcases g.waits_or with hwait | ⟨shared, htok⟩ | ⟨hcached, hdown⟩
  · constructor <;> intro hst <;> rw [hst] at hwait <;> simp [Dir.Waits] at hwait
  · obtain ⟨hdir, hempty⟩ := h.dir_of_settled htok
    have hst : g.dirState = if shared then .S else .I := by rw [← h.dir.dirState, hdir]
    have howner : g.owner = ∅ := by rw [← h.dir.owner, hdir]
    rw [hst, howner]
    cases shared with
    | true => exact ⟨by simp, by simp⟩
    | false =>
      rw [hempty rfl]
      exact ⟨by simp, fun _ => ⟨rfl, rfl⟩⟩
  · obtain ⟨o, -, hdir⟩ := h.dir_of_cached hcached hdown
    have hst : g.dirState = .M := by rw [← h.dir.dirState, hdir]
    have howner : g.owner = {o} := by rw [← h.dir.owner, hdir]
    rw [hst, howner, hdir]
    exact ⟨fun _ => ⟨card_singleton o, rfl⟩, by simp⟩

/-- In the states that keep the sharers there is none, or they are only counted. -/
theorem dismissed_eq (i : N) : (∀ acks, g.tok = .fetch acks →
        Dir.dismissed g.dirState s.dir.sharers i = s.dir.sharers) ∧ ((∀ acks, g.tok ≠ .fetch acks) →
        Dir.dismissed g.dirState s.dir.sharers i = s.dir.sharers.erase i) := by
  constructor
  · intro acks htok
    rw [show g.dirState = .M_m by simp [dirState, htok]]
    rfl
  · intro hfetch
    have hkeep : s.dir.sharers = ∅ → s.dir.sharers = s.dir.sharers.erase i := fun hempty => by
      rw [hempty, erase_empty]
    cases hst : g.dirState with
    | I => exact hkeep (h.dir.empty (.inl (h.dir.dirState.trans hst)))
    | MI_m => exact hkeep (h.dir.empty (.inr (h.dir.dirState.trans hst)))
    | M => exact hkeep (card_eq_zero.mp (h.stays.1 hst).2)
    | M_m =>
      obtain ⟨acks, htok⟩ := tok_of_dirState.2 hst
      exact absurd htok (hfetch acks)
    | _ => rfl

/-- A request that the directory answers by forgetting a sharer. -/
theorem good_dismiss {e : DirEvent}
    (hrole : g.role i = .leaving has (some put)) (hdirty : has = .dirty → g.next i ≠ none)
    (hevent : s.dir.event (.request i m) = some e) (he : Dir.Dismisses g.dirState e) :
    Good line v ((s.dir.handle (.request i m)).map fun ctx =>
      (s.deliverRequest i m [] ctx, none)) := by
  refine ⟨_, none, ?_, by simp,
    _, h.dismiss _ hrole hdirty (h.dismissed_eq i).1 (h.dismissed_eq i).2⟩
  have hdir := h.dir_eq
  rw [hdir] at hevent
  have hhandle := Dir.handle_dismiss _ _ _ _ e hevent he h.stays.1 h.stays.2
  rw [← hdir] at hhandle
  rw [hhandle]
  show Except.ok (s.deliverRequest i _ _ _, _) = _
  rw [deliverRequest_forward s i rfl rfl rfl, ← h.dir.dirState, ← h.dir.owner, ← h.dir.addr]

/-- While memory is read for a cache, it is a sharer. -/
theorem mem_sharers_of_read {k : N} (htok : g.tok = .read k) :
    k ∈ s.dir.sharers ∧ g.role k = .waitS .memory := by
  have hcounts := h.counts
  simp only [Counts, htok] at hcounts
  have hplace : g.place k = ⟨.reading, none, false⟩ := by
    simp [place, part, htok, hcounts.1]
  have hrole : g.role k = .waitS .memory := (h.fits k).allowed.waitS_of_reading (by rw [hplace])
  refine ⟨?_, hrole⟩
  rw [h.dir.sharers (by simp [htok]) k, hplace, hrole]
  trivial

variable {rest : List (RequestMsg b)}

/-- **A `PutM` arrives.** -/
theorem good_putM {blk : DataBlock b} (hm : s.requests i = .PutM blk :: rest) :
    Good line v ((s.dir.handle (.request i (.PutM blk))).map fun ctx =>
      (s.deliverRequest i (.PutM blk) rest ctx, none)) := by
  obtain ⟨d, hq, hd⟩ := (h.fits i).requests
  obtain ⟨rfl, rfl, has, hrole⟩ := Role.eq_of_requests (hq.symm.trans hm)
  have hallowed := (h.fits i).allowed
  rw [hrole] at hallowed
  by_cases howner : i ∈ s.dir.owner
  · -- the owner is last in line, so it is the head as well
    rw [h.dir.owner, owner] at howner
    have hdown : g.down = none := by
      by_contra hne
      simp [hne] at howner
    rw [if_pos hdown, Option.mem_toFinset] at howner
    have hi : i ∈ g.line := List.mem_of_getLast? howner
    have hin : (g.place i).part.InLine := part_inLine hi
    cases has with
    | nothing | copy =>
      rw [hallowed.1] at hin
      exact absurd hin id
    | dirty =>
      obtain ⟨⟨next, hpart⟩, -⟩ := hallowed
      obtain ⟨hhead, htok, -, -⟩ := head_of_part hpart
      have hcached : g.tok.Cached := by rw [htok]; trivial
      obtain ⟨o, hg, hdir⟩ := h.dir_of_cached hcached hdown
      obtain rfl : o = i := Option.some.inj (hg.last.symm.trans howner)
      obtain ⟨hline, -⟩ := line_eq_singleton hhead hg.next_last
      have hfresh : (g.place o).Fresh (g.role o) := by
        rw [hrole]
        show (g.place o).part ≠ .outside
        rw [hpart]
        simp
      obtain rfl := hd hfresh
      refine ⟨_, none, ?_, by simp, _, h.release hline htok hdown hrole⟩
      have hevent : Dir.event ⟨line, .M, ∅, {o}, []⟩ (.request o (.PutM blk)) = some .PutMOwner :=
        if_pos (mem_singleton_self o)
      rw [hdir, Dir.handle, hevent]
      show Except.ok (s.deliverRequest o _ _ _, _) = _
      rw [deliverRequest_forward s o rfl rfl rfl]
      rfl
  · refine h.good_dismiss hrole ?_ (if_neg howner) (.inr (.inl rfl))
    rintro rfl hnext
    obtain ⟨⟨next, hpart⟩, -⟩ := hallowed
    obtain ⟨hline, hdown⟩ := line_eq_singleton (head_of_part hpart).1 hnext
    rw [h.dir.owner, owner, if_pos hdown, hline] at howner
    simp at howner

/-- **A `PutS` arrives** that finds its sender as the directory expects it. -/
theorem good_putS (hm : s.requests i = .PutS :: rest)
    (hrace : ¬ (s.dir.sharers.card = 1 ∧ (i ∉ s.dir.sharers ∨ s.dir.dirState = .SS_m))) :
    Good line v ((s.dir.handle (.request i .PutS)).map fun ctx =>
      (s.deliverRequest i .PutS rest ctx, none)) := by
  obtain ⟨d, hq, -⟩ := (h.fits i).requests
  obtain ⟨rfl, has, hrole⟩ := Role.eq_of_requests (hq.symm.trans hm)
  have hdirty : has = .dirty → g.next i ≠ none := by
    rintro rfl
    have hallowed := (h.fits i).allowed
    rw [hrole] at hallowed
    exact absurd hallowed id
  by_cases hcard : s.dir.sharers.card = 1
  · have hi : i ∈ s.dir.sharers := by
      by_contra hi
      exact hrace ⟨hcard, .inl hi⟩
    have hSS_m : g.dirState ≠ .SS_m := by
      rw [← h.dir.dirState]
      exact fun hst => hrace ⟨hcard, .inr hst⟩
    have hevent : s.dir.event (.request i .PutS) = some .PutSLast := by
      simp [Dir.event, hcard, hi]
    by_cases hS : g.dirState = .S
    · obtain ⟨shared, htok⟩ : ∃ shared, g.tok = .settled shared := by
        rcases g.waits_or with hwait | hsettled | ⟨hcached, hdown⟩
        · simp [hS, Dir.Waits] at hwait
        · exact hsettled
        · simp [dirState_of_cached hcached, hdown] at hS
      obtain rfl : shared = true := by
        by_contra hshared
        simp [dirState, htok, hshared] at hS
      have hsharers : s.dir.sharers = {i} := by
        obtain ⟨x, hx⟩ := card_eq_one.mp hcard
        rw [hx, mem_singleton] at hi
        rw [hx, hi]
      have hdismiss := h.dismiss ∅ hrole hdirty (by simp [htok]) (by simp [hsharers])
      refine ⟨_, none, ?_, by simp, _, hdismiss.settle htok rfl⟩
      rw [(h.dir_of_settled htok).1, hsharers, if_pos rfl, Dir.handle_putS_last]
      show Except.ok (s.deliverRequest i _ _ _, _) = _
      rw [deliverRequest_forward s i rfl rfl rfl]
    · refine h.good_dismiss hrole hdirty hevent (.inr (.inr ⟨rfl, hS, ?_, hSS_m⟩))
      -- the one that memory is read for is a sharer as well
      intro hS_m
      obtain ⟨k, htok⟩ := tok_of_dirState.1 hS_m
      obtain ⟨hk, hwaits⟩ := h.mem_sharers_of_read htok
      obtain rfl := card_le_one.mp hcard.le i hi k hk
      rw [hrole] at hwaits
      cases hwaits
  · exact h.good_dismiss hrole hdirty (if_neg hcard) (.inl rfl)

end Coherent

/-! ## The fault -/

/-- The step is a `PutS` that comes late: there is one sharer in the directory, and
it is another cache, or it is the sender but the directory still writes the data back
and has no transition for the last sharer. -/
def System.Overtaken (s : System N b) : Label N b → Prop
  | .request i =>
    (∃ rest, s.requests i = .PutS :: rest) ∧ s.dir.sharers.card = 1 ∧
      (i ∉ s.dir.sharers ∨ s.dir.dirState = .SS_m)
  | _ => False

/-- There is an assertion against one case, and no transition for the other one. -/
theorem System.step_of_overtaken [DecidableEq N] {s : System N b} {l : Label N b} (h : s.Overtaken l) :
    ∃ fault, s.step l = some (.error fault) := by
  cases l with
  | request i =>
    obtain ⟨⟨rest, hm⟩, hcard, hi⟩ := h
    by_cases hmem : i ∈ s.dir.sharers
    · have hst : s.dir.dirState = .SS_m := hi.resolve_left (not_not.mpr hmem)
      refine ⟨.missing, ?_⟩
      simp [step, hm, Dir.handle, Dir.event, hcard, hmem, hst, Dir.transition, doTransition,
        Except.map]
    · refine ⟨.assertion, ?_⟩
      simp [step, hm, Dir.handle, Dir.event, hcard, hmem, Except.map]
  | _ => exact absurd h id

end MSI
