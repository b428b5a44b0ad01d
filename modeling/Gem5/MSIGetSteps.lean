/-
# A `GetS` or a `GetM` arrives

The directory lets the request wait, reads memory for it (`fetchS`, `fetchM`), or
forwards it to the last one in line, where a `GetM` joins the line (`join`) and a
`GetS` closes it (`choose`).
-/
import Gem5.MSIArrival

open Function List

namespace MSI

open MSI.System

open Ruby Ghost

variable {N : Type} {b : ℕ} {rest : List (RequestMsg b)} {r : Role N} {l : Local N b} {p : Place N}
  {v : DataBlock b}

/-! ## What the directory does -/

namespace Dir

/-- The states in which a `GetS` or a `GetM` has to wait. -/
def Waits (st : DirState) : Prop := st = .S_D ∨ st = .S_m ∨ st = .M_m ∨ st = .MI_m ∨ st = .SS_m

theorem handle_wait [DecidableEq N] {dir : Dir N b} (hst : Waits dir.dirState) {m : RequestMsg b}
    (hm : m = .GetS ∨ m = .GetM) (i : N) :
    dir.handle (.request i m) = .ok { dir := dir, inMsg := .request i m } := by
  obtain ⟨line, st, sharers, owner, q⟩ := dir
  rcases hm with rfl | rfl <;> rcases hst with rfl | rfl | rfl | rfl | rfl <;> rfl

end Dir

/-! ## What a request leaves -/

namespace System

variable [DecidableEq N] (s : System N b) (i : N) {m : RequestMsg b} {ctx : DirCtx N b}

theorem deliverRequest_quiet (hpop : ctx.popped = true) (hresp : ctx.responses = [])
    (hforward : ctx.forwards = []) :
    s.deliverRequest i m rest ctx
      = { s with dir := ctx.dir, requests := update s.requests i rest } := by
  simp [deliverRequest, afterDir, consume, hpop, hresp, hforward]

variable {f : ForwardMsg N}

/-- One message is sent to one cache. -/
theorem deliverRequest_forward {o : N} (hpop : ctx.popped = true)
    (hresp : ctx.responses = []) (hforward : ctx.forwards = [({o}, f)]) :
    s.deliverRequest i m rest ctx
      = { s with
          dir := ctx.dir
          requests := update s.requests i rest
          forwards := update s.forwards o (s.forwards o ++ [f]) } := by
  unfold deliverRequest afterDir
  rw [hforward, forwards_singleton]
  simp [consume, hpop, hresp]

/-- One message is sent to several caches. -/
theorem deliverRequest_multicast {dest : Finset N} (hpop : ctx.popped = true)
    (hresp : ctx.responses = []) (hforward : ctx.forwards = [(dest, f)]) :
    s.deliverRequest i m rest ctx
      = { s with
          dir := ctx.dir
          requests := update s.requests i rest
          forwards := fun k => s.forwards k ++ if k ∈ dest then [f] else [] } := by
  have hforwards : (fun k => s.forwards k ++ (ctx.forwards.filter fun m => k ∈ m.1).map Prod.snd)
      = fun k => s.forwards k ++ if k ∈ dest then [f] else [] := by
    funext k
    by_cases hk : k ∈ dest <;> simp [hforward, hk]
  simp [deliverRequest, afterDir, consume, hpop, hresp, hforwards]

/-- A request that has to wait. -/
theorem deliverRequest_wait (hm : s.requests i = m :: rest) (msg : DirIn N b) :
    s.deliverRequest i m rest { dir := s.dir, inMsg := msg } = s := by
  have hsame : update s.requests i (m :: rest) = s.requests := by
    rw [← hm, update_eq_self]
  simp [deliverRequest, afterDir, consume, hsame]

end System

/-- When a line opens, the sharers are told to invalidate their copies. -/
theorem Fits.opened (h : Fits v ⟨.outside, none, false⟩ r l)
    {rec : Prop} [Decidable rec] (hrec : rec ↔ r.Recorded) (k : N) :
    Fits v ⟨.outside, if rec then some k else none, true⟩ r
      ⟨l.cache, l.requests, l.forwards ++ (if rec then [.Inv k] else []), l.dirData⟩ := by
  have hallowed := h.allowed
  by_cases hr : rec
  · rw [if_pos hr, if_pos hr]
    have hr' := hrec.mp hr
    have hack : r.putAck = [] := by
      unfold Role.Recorded at hr'
      split at hr'
      all_goals first | rfl | exact absurd hr' id
    refine ⟨?_, h.cache, h.requests, ?_, h.dirData⟩
    · unfold Place.Allows at hallowed ⊢
      split at hallowed
      all_goals first | exact absurd hr' id | exact ⟨rfl, by simp⟩ | cases hallowed.1
    · have hf : l.forwards = r.putAck := h.forwards
      simp [Place.forwards, Part.next, hf, hack]
  · rw [if_neg hr, if_neg hr]
    have hr' := mt hrec.mpr hr
    refine ⟨?_, h.cache, h.requests, ?_, h.dirData⟩
    · unfold Place.Allows at hallowed ⊢
      split at hallowed
      all_goals first | exact hallowed | exact absurd trivial hr'
    · rw [append_nil]
      exact h.forwards

/-- One more message is forwarded to a cache in line. -/
def Part.withNext (m : ForwardMsg N) : Part N → Part N
  | .head tok acks _ => .head tok acks (some m)
  | .queued _ => .queued (some m)
  | part => part

/-- The cache is in line. -/
def Part.InLine : Part N → Prop
  | .head _ _ _ | .queued _ => True
  | _ => False

/-- The last one in line has not been sent its `PutAck`. -/
theorem Place.Allows.putAck_of_last (h : p.Allows r) (hin : p.part.InLine)
    (hnext : p.part.next = none) : r ≠ .leaving .dirty none ∧ r.putAck = [] := by
  unfold Allows at h
  split at h
  all_goals try first | exact ⟨nofun, rfl⟩ | simp [h, Part.InLine] at hin
  rcases h.1 with hout | ⟨m, hhead⟩
  · simp [hout] at hin
  · simp [hhead, Part.next] at hnext

theorem Place.Allows.withNext {part : Part N} {inv : Option N} {busy : Bool}
    (h : (⟨part, inv, busy⟩ : Place N).Allows r) (hin : part.InLine) (hr : r ≠ .leaving .dirty none)
    (m : ForwardMsg N) : (⟨part.withNext m, inv, busy⟩ : Place N).Allows r := by
  cases part with
  | head tok acks next =>
    have hinv := h.inv_of_head rfl
    rcases h.of_head rfl with ⟨copy, rfl, htok⟩ | ⟨copy, rfl, rfl⟩ | ⟨rfl | ⟨put, rfl⟩, rfl⟩
    · refine .inl ⟨acks, some m, ?_, hinv⟩
      rcases htok with ⟨k, rfl | rfl⟩ | ⟨rfl, j, rfl⟩
      · exact .inl ⟨k, .inl rfl⟩
      · exact .inl ⟨k, .inr rfl⟩
      · exact .inr ⟨rfl, j, rfl⟩
    · exact ⟨⟨acks, some m, rfl⟩, hinv⟩
    · obtain ⟨⟨next', hhead⟩, -⟩ := h
      cases hhead
      exact ⟨⟨some m, rfl⟩, hinv⟩
    · cases put with
      | none => exact absurd rfl hr
      | some put =>
        cases put with
        | PutS => exact absurd h id
        | PutM =>
          obtain ⟨⟨next', hhead⟩, -⟩ := h
          cases hhead
          exact ⟨⟨some m, rfl⟩, hinv⟩
  | queued next =>
    obtain ⟨copy, rfl, hcopy⟩ := h.waitM_of_queued rfl
    exact .inr ⟨some m, rfl, hcopy⟩
  | _ => exact absurd hin id

/-- A request is forwarded to the last one in line. -/
theorem Fits.withNext (h : Fits v p r l)
    (hin : p.part.InLine) (hnext : p.part.next = none) (m : ForwardMsg N) :
    Fits v ⟨p.part.withNext m, p.inv, p.busy⟩ r
      ⟨l.cache, l.requests, l.forwards ++ [m], l.dirData⟩ := by
  have hallowed := h.allowed
  obtain ⟨hne, hack⟩ := hallowed.putAck_of_last hin hnext
  have hforwards : l.forwards = p.inv.toList.map .Inv := by
    rw [h.forwards, Place.forwards, hnext, hack]
    simp
  obtain ⟨part, inv, busy⟩ := p
  have hacks : (part.withNext m).acks = part.acks := by cases part <;> rfl
  have hdir : (part.withNext m).dirAcks = part.dirAcks := by
    cases part with
    | head tok acks next => cases tok <;> rfl
    | _ => rfl
  have hlast : (part.withNext m).next = some m := by
    cases part with
    | head tok acks next | queued next => rfl
    | _ => exact absurd hin id
  have hfresh : (⟨part.withNext m, inv, busy⟩ : Place N).Fresh r →
      (⟨part, inv, busy⟩ : Place N).Fresh r := by
    cases r with
    | leaving has put =>
      cases has with
      | dirty =>
        rintro - rfl
        exact hin
      | _ => exact id
    | _ => exact id
  obtain ⟨d, hc, hd⟩ := h.cache
  obtain ⟨d', hq, hd'⟩ := h.requests
  refine ⟨hallowed.withNext hin hne m, ⟨d, ?_, fun hf => hd (hfresh hf)⟩,
    ⟨d', hq, fun hf => hd' (hfresh hf)⟩, ?_, ?_⟩
  · rw [hacks]
    exact hc
  · rw [Place.forwards, hlast, hack, append_nil, hforwards]
    rfl
  · rw [Place.dirAcks, hdir]
    exact h.dirData

/-- The directory has taken the `GetS` of a cache. -/
theorem Fits.taken_getS (h : Fits v p .askS l) {source : Source N} {part : Part N}
    {busy : Bool}
    (hpart : part = .reading ∧ source = .memory ∨ part = .chosen ∧ source = .forwarded) :
    Fits v ⟨part, none, busy⟩ (.waitS source) ⟨l.cache, [], l.forwards, l.dirData⟩ := by
  obtain ⟨hout, hinv⟩ : p.part = .outside ∧ p.inv = none := h.allowed
  obtain ⟨d, hc, -⟩ := h.cache
  have hf := h.forwards
  have hdata := h.dirData
  rw [hout] at hc
  rw [Place.forwards, hout, hinv] at hf
  rw [Place.dirAcks, hout] at hdata
  rcases hpart with ⟨rfl, rfl⟩ | ⟨rfl, rfl⟩
  all_goals exact ⟨⟨rfl, rfl⟩, ⟨d, hc, False.elim⟩, ⟨d, rfl, False.elim⟩, hf, hdata⟩

/-- The directory has put a cache in line for its `GetM`. -/
theorem Fits.taken_getM {copy : Bool} (h : Fits v p (.askM copy) l)
    (hbusy : p.busy = true) :
    Fits v ⟨.queued none, p.inv, true⟩ (.waitM copy) ⟨l.cache, [], l.forwards, l.dirData⟩ := by
  have hallowed := h.allowed
  have hout : p.part = .outside := by cases copy <;> exact hallowed.1
  have hcopy : p.inv ≠ none ↔ copy = true := by
    cases copy with
    | true => exact iff_of_true (hallowed.2 hbusy) rfl
    | false => exact iff_of_false (fun hne => hne hallowed.2) Bool.false_ne_true
  obtain ⟨d, hc, hd⟩ := h.cache
  have hf := h.forwards
  have hdata := h.dirData
  rw [hout] at hc
  rw [Place.forwards, hout] at hf
  rw [Place.dirAcks, hout] at hdata
  exact ⟨.inr ⟨none, rfl, hcopy⟩, ⟨d, hc, hd⟩, ⟨d, rfl, hd⟩, hf, hdata⟩

namespace Ghost

variable [DecidableEq N] {g g' : Ghost N} {i j o : N}

theorem next_of_down (hdown : g.down = none) : g.next i = (behind g.line i).map .GetM := by
  unfold next
  cases behind g.line i with
  | some k => rfl
  | none => simp [hdown]

theorem part_inLine (hi : i ∈ g.line) : (g.part i).InLine := by
  unfold part
  split_ifs <;> trivial

theorem part_next (hi : i ∈ g.line) : (g.part i).next = g.next i := by
  unfold part
  split_ifs <;> rfl

theorem notMem_of_outside (h : (g.place i).part = .outside) : i ∉ g.line := by
  intro hi
  have hin := part_inLine hi
  rw [show g.part i = .outside from h] at hin
  exact hin

theorem part_withNext {m : ForwardMsg N} (hhead : g'.line.head? = g.line.head?)
    (htok : g'.tok = g.tok) (hacks : g'.acks = g.acks) (ho : o ∈ g.line) (ho' : o ∈ g'.line)
    (hnext : g'.next o = some m) : g'.part o = (g.part o).withNext m := by
  by_cases hfirst : g.line.head? = some o
  · rw [part_of_head (hhead.trans hfirst), part_of_head hfirst, htok, hacks, hnext]
    rfl
  · rw [part, part, hhead, if_neg hfirst, if_neg hfirst, if_pos ho', if_pos ho, hnext]
    rfl

/-- Without a `GetS`, the directory has no sharers while there is a line. -/
theorem not_shares (hne : g.line ≠ []) (hdown : g.down = none) (r : Role N) :
    ¬ (g.place i).Shares r := by
  rw [Place.shares_of_busy (busy_of_ne hne i)]
  rintro (hchosen | ⟨⟨k, hnext⟩, -⟩)
  · change g.part i = .chosen at hchosen
    unfold part at hchosen
    split_ifs at hchosen with h1 h2 h3 h4
    rw [hdown] at h4
    cases h4
  · have hnext' := next_of_part hnext
    rw [next_of_down hdown] at hnext'
    obtain ⟨x, -, hx⟩ := Option.map_eq_some_iff.mp hnext'
    cases hx

omit [DecidableEq N] in
theorem Counts.of_cached (h : g.Counts) (hcached : g.tok.Cached) (htok : g'.tok = g.tok)
    (hinv : g'.inv = g.inv) (hack : g'.ack = g.ack) (hne : g'.line ≠ []) : g'.Counts := by
  unfold Counts at h ⊢
  rw [htok, hinv, hack]
  cases hg : g.tok with
  | dirData acks | collect | held | cacheData k =>
    simp only [hg] at h ⊢
    exact ⟨hne, h.2⟩
  | _ =>
    rw [hg] at hcached
    exact absurd hcached id

/-- `i` joins the line. -/
def join (g : Ghost N) (i : N) (r : Role N) : Ghost N :=
  { g with role := update g.role i r, line := g.line ++ [i] }

/-- The `GetS` of `i` closes the line. -/
def choose (g : Ghost N) (i : N) : Ghost N :=
  { g with role := update g.role i (.waitS .forwarded), down := some i }

/-- The line can grow behind the last one, `o`. -/
structure Open (g : Ghost N) (o : N) : Prop where
  cached : g.tok.Cached
  down : g.down = none
  last : g.line.getLast? = some o
  nodup : g.line.Nodup

namespace Open

variable (hg : g.Open o)

include hg

omit [DecidableEq N] in
theorem mem : o ∈ g.line := mem_of_getLast? hg.last

omit [DecidableEq N] in
theorem ne_nil : g.line ≠ [] := ne_nil_of_mem hg.mem

/-- Nothing was forwarded yet to the last one in line. -/
theorem next_last : g.next o = none := by
  rw [next_of_down hg.down, (behind_eq_none_iff hg.nodup hg.mem).mpr hg.last]
  rfl

omit [DecidableEq N] in
theorem ne_last (hj : j ≠ o) : g.line.getLast? ≠ some j := fun hlast =>
  hj (Option.some.inj (hlast.symm.trans hg.last))

variable (hi : i ∉ g.line)

include hi

omit [DecidableEq N] in
theorem ne : o ≠ i := fun hoi => hi (hoi ▸ hg.mem)

omit hi in
theorem head_join : (g.join i r).line.head? = g.line.head? := head?_append_of_ne_nil _ hg.ne_nil

theorem next_join (j : N) : (g.join i r).next j
    = if g.line.getLast? = some j then some (.GetM i) else g.next j := by
  have hdown : (g.join i r).down = none := hg.down
  rw [next_of_down hdown, next_of_down hg.down, join, behind_concat hg.nodup hi]
  split_ifs <;> rfl

/-- The new one is behind the one that was last. -/
theorem place_join_self : (g.join i r).place i = ⟨.queued none, (g.place i).inv, true⟩ := by
  have hhead : g.line.head? ≠ some i := fun hhead => hi (mem_of_mem_head? hhead)
  have hnext : (g.join i r).next i = none := by
    rw [hg.next_join hi, if_neg fun hlast => hi (mem_of_getLast? hlast), next_of_down hg.down,
      behind_of_notMem hi]
    rfl
  rw [place, part, hg.head_join, if_neg hhead, if_pos (by simp [join]), hnext,
    show (!(g.join i r).line.isEmpty) = true by simp [join]]
  rfl

theorem part_join_last : (g.join i r).part o = (g.part o).withNext (.GetM i) := by
  apply part_withNext hg.head_join rfl rfl hg.mem (by simp [join, hg.mem])
  rw [hg.next_join hi, if_pos hg.last]

theorem part_join_other (hji : j ≠ i) (hjo : j ≠ o) : (g.join i r).part j = g.part j := by
  refine part_ext ?_ ?_ ?_ ?_ Iff.rfl .rfl
  · rw [hg.head_join]
  · exact fun _ => ⟨rfl, rfl⟩
  · simp [join, hji]
  · rw [hg.next_join hi, if_neg (hg.ne_last hjo)]

omit hi in
theorem next_choose_last : (g.choose i).next o = some (.GetS i) := by
  have hbehind : behind g.line o = none := (behind_eq_none_iff hg.nodup hg.mem).mpr hg.last
  simp [Ghost.next, choose, hbehind, hg.last]

theorem place_choose_self (hinv : (g.place i).inv = none) :
    (g.choose i).place i = ⟨.chosen, none, true⟩ := by
  have hhead : g.line.head? ≠ some i := fun hhead => hi (mem_of_mem_head? hhead)
  have hpart : (g.choose i).part i = .chosen := by
    simp [part, choose, hhead, hi, not_read_of_cached hg.cached]
  rw [← hpart, ← hinv, ← busy_of_ne hg.ne_nil i]
  rfl

omit hi in
theorem part_choose_last : (g.choose i).part o = (g.part o).withNext (.GetS i) :=
  part_withNext rfl rfl rfl hg.mem hg.mem hg.next_choose_last

omit hi in
theorem part_choose_other (hji : j ≠ i) (hjo : j ≠ o) : (g.choose i).part j = g.part j := by
  refine part_ext Iff.rfl ?_ Iff.rfl ?_ Iff.rfl ?_
  · exact fun _ => ⟨rfl, rfl⟩
  · have hlast : (g.choose i).line.getLast? ≠ some j := hg.ne_last hjo
    rw [Ghost.next, Ghost.next, if_neg hlast, if_neg (hg.ne_last hjo)]
    rfl
  · simp [choose, hg.down, hji.symm]

end Open

end Ghost

/-- Where a request for the line is answered. -/
theorem Ghost.waits_or (g : Ghost N) :
    Dir.Waits g.dirState ∨ (∃ shared, g.tok = .settled shared) ∨ g.tok.Cached ∧ g.down = none := by
  by_cases hcached : g.tok.Cached
  · rw [dirState_of_cached hcached]
    by_cases hdown : g.down = none
    · exact .inr (.inr ⟨hcached, hdown⟩)
    · rw [if_neg hdown]
      exact .inl (.inl rfl)
  · unfold dirState
    cases htok : g.tok with
    | settled shared => exact .inr (.inl ⟨shared, rfl⟩)
    | read i => exact .inl (.inr (.inl rfl))
    | writeBack i shared => cases shared <;> simp [Dir.Waits]
    | downgrade j => exact .inl (.inl rfl)
    | fetch acks => exact .inl (.inr (.inr (.inl rfl)))
    | _ =>
      rw [htok] at hcached
      exact absurd trivial hcached

/-- The request that is on the way tells the role. -/
theorem Role.eq_of_requests {d : DataBlock b} {m : RequestMsg b} (h : r.requests d = m :: rest) :
    rest = [] ∧
      match m with
      | .GetS => r = .askS
      | .GetM => ∃ copy, r = .askM copy
      | .PutS => ∃ has, r = .leaving has (some .PutS)
      | .PutM blk => blk = d ∧ ∃ has, r = .leaving has (some .PutM) := by
  unfold Role.requests at h
  split at h
  · cases h
    exact ⟨rfl, rfl⟩
  · cases h
    exact ⟨rfl, _, rfl⟩
  · cases h
    exact ⟨rfl, _, rfl⟩
  · cases h
    exact ⟨rfl, rfl, _, rfl⟩
  · cases h

namespace Coherent

variable [DecidableEq N] {s : System N b} {line : Addr} {g : Ghost N} {i : N}

variable (h : Coherent s line v g)

include h

/-- The directory, with what the invariant says of it. -/
theorem dir_eq : s.dir = ⟨line, g.dirState, s.dir.sharers, g.owner, s.dir.requestToMemory⟩ := by
  rw [← h.dir.addr, ← h.dir.dirState, ← h.dir.owner]

variable {shared : Bool}

/-- Without a line and with the data in memory. -/
theorem dir_of_settled (htok : g.tok = .settled shared) :
    s.dir = ⟨line, if shared then .S else .I, s.dir.sharers, ∅, []⟩ ∧
      (shared = false → s.dir.sharers = ∅) := by
  have hcounts := h.counts
  simp only [Counts, htok] at hcounts
  have hstate : g.dirState = if shared then .S else .I := by
    unfold dirState
    rw [htok]
  have howner : g.owner = ∅ := by simp [owner, hcounts.1]
  have hqueue := h.dir.queue
  rw [htok] at hqueue
  constructor
  · conv_lhs => rw [h.dir_eq, hstate, howner, hqueue.1]
  · rintro rfl
    exact h.dir.empty (.inl (h.dir.dirState.trans hstate))

/-- With a line that takes another one. -/
theorem dir_of_cached (hcached : g.tok.Cached) (hdown : g.down = none) :
    ∃ o, g.Open o ∧ s.dir = ⟨line, .M, ∅, {o}, []⟩ := by
  have hne := h.counts.line_ne_nil hcached
  have hlast : g.line.getLast? = some (g.line.getLast hne) := getLast?_eq_some_getLast hne
  have hstate : g.dirState = .M := by rw [dirState_of_cached hcached, if_pos hdown]
  have howner : g.owner = {g.line.getLast hne} := by
    rw [owner, if_pos hdown, hlast]
    rfl
  have hsharers : s.dir.sharers = ∅ := by
    refine Finset.eq_empty_of_forall_notMem fun j hj => ?_
    rw [h.dir.sharers (not_fetch_of_cached hcached) j] at hj
    exact not_shares hne hdown _ hj
  refine ⟨_, ⟨hcached, hdown, hlast, h.nodup⟩, ?_⟩
  rw [h.dir_eq, hstate, howner, hsharers, ((Token.queue_of_cached hcached).mp h.dir.queue).1]

/-- A request has to wait. -/
theorem good_wait {m : RequestMsg b} (hm : s.requests i = m :: rest)
    (hget : m = .GetS ∨ m = .GetM) (hwait : Dir.Waits g.dirState) :
    Good line v ((s.dir.handle (.request i m)).map fun ctx =>
      (s.deliverRequest i m rest ctx, none)) := by
  refine ⟨s, none, ?_, by simp, g, h⟩
  rw [← h.dir.dirState] at hwait
  rw [Dir.handle_wait hwait hget]
  show Except.ok (s.deliverRequest i _ _ _, _) = _
  rw [deliverRequest_wait s i hm]

/-- **A `GetS` is accepted** and memory is read for it. -/
theorem fetchS (htok : g.tok = .settled shared) (hrole : g.role i = .askS) :
    let g' : Ghost N := { g with role := update g.role i (.waitS .memory), tok := .read i }
    Coherent
      { s with
        dir := ⟨line, .S_m, insert i s.dir.sharers, ∅, [⟨line, .MEMORY_READ, i, fun _ => 0, 0⟩]⟩
        requests := update s.requests i [] }
      line v g' := by
  intro g'
  have hcounts := h.counts
  simp only [Counts, htok] at hcounts
  obtain ⟨hnil, hinv, hack, hdown⟩ := hcounts
  have hself : g'.place i = ⟨.reading, none, false⟩ := by
    simp [place, part, g', hnil]
  have hold : ∀ j, g.place j = ⟨.outside, none, false⟩ := fun j =>
    place_of_nil hnil (by simp [htok]) hdown
  have hplace : ∀ j, j ≠ i → g'.place j = g.place j := by
    intro j hj
    rw [hold j]
    exact place_of_nil hnil (by simpa [g'] using hj.symm) hdown
  have hqueue := h.dir.queue
  rw [htok] at hqueue
  obtain ⟨hq, hans, hmem⟩ := hqueue
  refine ⟨h.nodup, ⟨hnil, hinv, hack, hdown⟩, h.disjoint, h.down, ?_, ?_, ?_, ?_⟩
  · apply h.fits_update rfl hplace (by simp +contextual [localAt])
    have hfits := h.fits i
    rw [hrole] at hfits
    rw [hself]
    simpa [localAt] using hfits.taken_getS (.inl ⟨rfl, rfl⟩)
  · intro j
    rw [h.dataToDir, if_neg (by simp [htok]), if_neg (by simp)]
  · refine h.responses_update rfl ?_ ?_ ?_
    · simp [hrole]
    · simp [htok]
    · exact fun _ _ => .rfl
  · refine ⟨rfl, rfl, ?_, by simp, ?_, by simp, .inl ⟨rfl, hans, hmem⟩⟩
    · simp [owner, g', hnil]
    · intro _ j
      by_cases hj : j = i
      · subst hj
        rw [hself, Place.shares_of_not_busy rfl]
        simp [g', Role.Recorded]
      · have hsharers := h.dir.sharers (by simp [htok]) j
        rw [hplace j hj]
        simpa [g', hj] using hsharers

/-- **A `GetM` is accepted** without a line: memory is read for it, and the sharers
are told to invalidate their copies. -/
theorem fetchM {shared copy : Bool} (htok : g.tok = .settled shared) (hrole : g.role i = .askM copy)
    :
    let g' : Ghost N :=
      { role := update g.role i (.waitM copy)
        line := [i]
        tok := .fetch (s.dir.sharers.erase i).card
        inv := s.dir.sharers.erase i
        ack := ∅
        down := none }
    Coherent
      { s with
        dir := ⟨line, .M_m, s.dir.sharers.erase i, {i}, [⟨line, .MEMORY_READ, i, fun _ => 0, 0⟩]⟩
        requests := update s.requests i []
        forwards := fun k => s.forwards k ++ if k ∈ s.dir.sharers.erase i then [.Inv i] else [] }
      line v g' := by
  intro g'
  have hcounts := h.counts
  simp only [Counts, htok] at hcounts
  obtain ⟨hnil, hinv, hack, hdown⟩ := hcounts
  have hold : ∀ j, g.place j = ⟨.outside, none, false⟩ := fun j =>
    place_of_nil hnil (by simp [htok]) hdown
  have hself : g'.place i = ⟨.head (.fetch (s.dir.sharers.erase i).card) 0 none, none, true⟩ := by
    rw [Ghost.place_of_head rfl (Finset.notMem_erase i _)]
    simp [g', Ghost.acks, Ghost.next]
  have hother : ∀ j, j ≠ i → g'.place j
      = ⟨.outside, if j ∈ s.dir.sharers.erase i then some i else none, true⟩ := by
    intro j hj
    simp [place, part, g', hj, hj.symm]
  have hrec : ∀ j, j ≠ i → (j ∈ s.dir.sharers.erase i ↔ (g.role j).Recorded) := by
    intro j hj
    rw [Finset.mem_erase, h.dir.sharers (by simp [htok]) j, hold j, Place.shares_of_not_busy rfl]
    simp [hj]
  have hqueue := h.dir.queue
  rw [htok] at hqueue
  obtain ⟨hq, hans, hmem⟩ := hqueue
  refine ⟨nodup_singleton i, ⟨⟨i, rfl⟩, rfl, ?_⟩, Finset.disjoint_empty_right _, by simp,
    ?_, ?_, ?_, ?_⟩
  · simp [g']
  · intro j
    by_cases hj : j = i
    · subst hj
      have hfits := h.fits j
      rw [hrole, hold j] at hfits
      obtain ⟨d, hc, hd⟩ := hfits.cache
      rw [hself, show g'.role j = .waitM copy from update_self _ _ _]
      refine ⟨.inl ⟨0, none, .inl ⟨_, .inl rfl⟩, rfl⟩, ⟨d, hc, hd⟩, ⟨d, ?_, hd⟩, ?_, hfits.dirData⟩
      · simp [localAt, Role.requests]
      · have hf : s.forwards j = [] := hfits.forwards
        simp [localAt, hf, Place.forwards, Part.next, Role.putAck]
    · have hfits := h.fits j
      rw [hold j] at hfits
      rw [hother j hj, show g'.role j = g.role j from update_of_ne hj _ _]
      have hlocal : localAt
          { s with
            dir := ⟨line, .M_m, s.dir.sharers.erase i, {i},
              [⟨line, .MEMORY_READ, i, fun _ => 0, 0⟩]⟩
            requests := update s.requests i []
            forwards := fun k => s.forwards k ++
              if k ∈ s.dir.sharers.erase i then [.Inv i] else [] } j
          = ⟨s.caches j, s.requests j, s.forwards j ++
              (if j ∈ s.dir.sharers.erase i then [.Inv i] else []), s.dirData j⟩ := by
        simp [localAt, hj]
      rw [hlocal]
      exact hfits.opened (hrec j hj) i
  · intro j
    rw [h.dataToDir, if_neg (by simp [htok]), if_neg (by simp)]
  · refine h.responses_update rfl ?_ ?_ ?_
    · simp [hrole]
    · simp [htok]
    · simp [g', hack]
  · refine ⟨rfl, rfl, ?_, ?_, ?_, by simp, .inl ⟨rfl, hans, hmem⟩⟩
    · simp [owner, g']
    · intro acks hacks
      exact Token.fetch.inj hacks
    · exact fun hfetch => absurd rfl (hfetch _)

/-- A request of `i` is forwarded to the last one in line, `o`. -/
theorem fits_forward {s' : System N b} {g' : Ghost N} {i o : N} {m : ForwardMsg N} (ho : o ∈ g.line)
    (hoi : o ≠ i) (hnone : g.next o = none) (hrole : g'.role = update g.role i r)
    (hinv : ∀ k, (g'.place k).inv = (g.place k).inv)
    (hbusy : ∀ k, (g'.place k).busy = (g.place k).busy)
    (hpart_o : g'.part o = (g.part o).withNext m)
    (hother : ∀ k, k ≠ i → k ≠ o → g'.part k = g.part k)
    (hlocal_o : s'.localAt o = ⟨s.caches o, s.requests o, s.forwards o ++ [m], s.dirData o⟩)
    (hlocal : ∀ k, k ≠ i → k ≠ o → s'.localAt k = s.localAt k)
    (hfits : Fits v (g'.place i) r (s'.localAt i)) (k : N) :
    Fits v (g'.place k) (g'.role k) (s'.localAt k) := by
  have hplace : ∀ k, g'.place k = ⟨g'.part k, (g.place k).inv, (g.place k).busy⟩ := by
    intro k
    rw [← hinv k, ← hbusy k]
    rfl
  rw [hrole]
  by_cases hk : k = i
  · subst hk
    rw [update_self]
    exact hfits
  rw [update_of_ne hk, hplace k]
  by_cases hko : k = o
  · subst hko
    rw [hlocal_o, hpart_o]
    exact (h.fits k).withNext (part_inLine ho) ((part_next ho).trans hnone) m
  · rw [hlocal k hk hko, hother k hk hko]
    exact h.fits k

/-- The queue to memory stays empty while the data is with the caches. -/
theorem queue_of_cached {g' : Ghost N} (hcached : g.tok.Cached) (htok : g'.tok = g.tok) :
    g'.tok.Queue line v g'.line.head? [] s.responseFromMemory s.mem := by
  rw [htok]
  exact (Token.queue_of_cached hcached).mpr ⟨rfl, ((Token.queue_of_cached hcached).mp h.dir.queue).2⟩

/-- **A `GetM` joins the line**: it is forwarded to the one that was last. -/
theorem join {i o : N} {copy : Bool} (hg : g.Open o) (hrole : g.role i = .askM copy) :
    Coherent
      { s with
        dir := ⟨line, .M, ∅, {i}, []⟩
        requests := update s.requests i []
        forwards := update s.forwards o (s.forwards o ++ [.GetM i]) }
      line v (g.join i (.waitM copy)) := by
  have hfits := h.fits i
  rw [hrole] at hfits
  have hi : i ∉ g.line := by
    apply notMem_of_outside
    have hallowed := hfits.allowed
    cases copy <;> exact hallowed.1
  have hoi := hg.ne hi
  have hdown' : (g.join i (.waitM copy)).down = none := hg.down
  have hne : (g.join i (.waitM copy)).line ≠ [] := by simp [Ghost.join]
  refine ⟨?_, ?_, h.disjoint, ?_, ?_, h.dataToDir, ?_, ?_⟩
  · exact nodup_append.mpr ⟨h.nodup, nodup_singleton i, by
      rintro x hx y hy rfl
      exact hi (mem_singleton.mp hy ▸ hx)⟩
  · exact h.counts.of_cached hg.cached rfl rfl rfl hne
  · intro x hx
    rw [hdown'] at hx
    cases hx
  · refine h.fits_forward hg.mem hoi hg.next_last rfl ?_ ?_ (hg.part_join_last hi)
      (fun k => hg.part_join_other hi) ?_ ?_ ?_
    · intro k
      simp only [place, hg.head_join]
      rfl
    · intro k
      rw [busy_of_ne hg.ne_nil, busy_of_ne hne]
    · simp [localAt, hoi]
    · intro k hk hko
      simp [localAt, hk, hko]
    · rw [hg.place_join_self hi]
      simpa [localAt, hoi.symm] using hfits.taken_getM (busy_of_ne hg.ne_nil i)
  · refine h.responses_update rfl ?_ ?_ ?_
    · simp [hrole]
    · intro j k
      rw [hg.head_join]
      rfl
    · intro j k
      rw [hg.head_join]
      rfl
  · refine ⟨rfl, ?_, ?_, ?_, ?_, by simp, h.queue_of_cached hg.cached rfl⟩
    · rw [dirState_of_cached (g := g.join i _) hg.cached, if_pos hdown']
    · simp [owner, hg.down, Ghost.join]
    · exact fun acks hfetch => absurd hfetch (not_fetch_of_cached hg.cached acks)
    · intro _ j
      exact iff_of_false (Finset.notMem_empty j) (not_shares hne hdown' _)

/-- The sharers that the directory counts, once a `GetS` has closed the line. -/
theorem shares_choose {i o : N} (hg : g.Open o) (hi : i ∉ g.line)
    (hinv : (g.place i).inv = none) (j : N) :
    j ∈ ({i} ∪ {o} : Finset N) ↔ ((g.choose i).place j).Shares ((g.choose i).role j) := by
  rw [Place.shares_of_busy (busy_of_ne (g := g.choose i) hg.ne_nil j), Finset.mem_union,
    Finset.mem_singleton, Finset.mem_singleton]
  by_cases hji : j = i
  · subst hji
    rw [hg.place_choose_self hi hinv]
    exact iff_of_true (.inl rfl) (.inl rfl)
  have hrole : (g.choose i).role j = g.role j := update_of_ne hji _ _
  rw [hrole]
  by_cases hjo : j = o
  · subst hjo
    have hlast := (h.fits j).allowed.putAck_of_last (part_inLine hg.mem)
      ((part_next hg.mem).trans hg.next_last)
    refine iff_of_true (.inr rfl) (.inr ⟨⟨i, ?_⟩, hlast.1⟩)
    exact (part_next (g := g.choose i) hg.mem).trans hg.next_choose_last
  · apply iff_of_false (by simp [hji, hjo])
    have hnot := not_shares (i := j) hg.ne_nil hg.down (g.role j)
    rw [Place.shares_of_busy (busy_of_ne hg.ne_nil j)] at hnot
    show ¬ ((g.choose i).part j = .chosen ∨ (∃ k, ((g.choose i).part j).next = some (.GetS k)) ∧ _)
    rw [hg.part_choose_other hji hjo]
    exact hnot

/-- **A `GetS` closes the line**: it is forwarded to the one that is last. -/
theorem choose {i o : N} (hg : g.Open o) (hrole : g.role i = .askS) :
    Coherent
      { s with
        dir := ⟨line, .S_D, {i} ∪ {o}, ∅, []⟩
        requests := update s.requests i []
        forwards := update s.forwards o (s.forwards o ++ [.GetS i]) }
      line v (g.choose i) := by
  have hfits := h.fits i
  rw [hrole] at hfits
  obtain ⟨hout, hinv⟩ : (g.place i).part = .outside ∧ (g.place i).inv = none := hfits.allowed
  have hi : i ∉ g.line := notMem_of_outside hout
  have hoi := hg.ne hi
  refine ⟨h.nodup, ?_, h.disjoint, ?_, ?_, h.dataToDir, ?_, ?_⟩
  · exact h.counts.of_cached hg.cached rfl rfl rfl hg.ne_nil
  · rintro x hx
    cases hx
    exact hi
  · refine h.fits_forward hg.mem hoi hg.next_last rfl (fun _ => rfl) (fun _ => rfl)
      hg.part_choose_last (fun k => hg.part_choose_other) ?_ ?_ ?_
    · simp [localAt, hoi]
    · intro k hk hko
      simp [localAt, hk, hko]
    · rw [hg.place_choose_self hi hinv]
      simpa [localAt, hoi.symm] using hfits.taken_getS (.inr ⟨rfl, rfl⟩)
  · refine h.responses_update rfl ?_ ?_ ?_
    · simp [hrole]
    · exact fun _ _ => .rfl
    · exact fun _ _ => .rfl
  · refine ⟨rfl, ?_, by simp [owner, Ghost.choose], ?_, fun _ => h.shares_choose hg hi hinv,
      by simp, h.queue_of_cached hg.cached rfl⟩
    · rw [dirState_of_cached (g := g.choose i) hg.cached, if_neg (by simp [Ghost.choose])]
    · exact fun acks hfetch => absurd hfetch (not_fetch_of_cached hg.cached acks)

/-- **A `GetS` arrives.** -/
theorem good_getS (hm : s.requests i = .GetS :: rest) :
    Good line v ((s.dir.handle (.request i .GetS)).map fun ctx =>
      (s.deliverRequest i .GetS rest ctx, none)) := by
  obtain ⟨d, hq, -⟩ := (h.fits i).requests
  obtain ⟨rfl, hrole⟩ := Role.eq_of_requests (hq.symm.trans hm)
  rcases g.waits_or with hwait | ⟨shared, htok⟩ | ⟨hcached, hdown⟩
  · exact h.good_wait hm (.inl rfl) hwait
  · refine ⟨_, none, ?_, by simp, _, h.fetchS htok hrole⟩
    generalize hdir : s.dir = dir
    rw [(h.dir_of_settled htok).1] at hdir
    obtain rfl := hdir
    cases shared
    all_goals
      show Except.ok (s.deliverRequest i _ _ _, _) = _
      rw [deliverRequest_quiet s i rfl rfl rfl]
      rfl
  · obtain ⟨o, hg, hdir⟩ := h.dir_of_cached hcached hdown
    refine ⟨_, none, ?_, by simp, _, h.choose hg hrole⟩
    rw [hdir]
    show Except.ok (s.deliverRequest i _ _ _, _) = _
    rw [deliverRequest_forward s i rfl rfl rfl]
    rfl

/-- **A `GetM` arrives.** -/
theorem good_getM (hm : s.requests i = .GetM :: rest) :
    Good line v ((s.dir.handle (.request i .GetM)).map fun ctx =>
      (s.deliverRequest i .GetM rest ctx, none)) := by
  obtain ⟨d, hq, -⟩ := (h.fits i).requests
  obtain ⟨rfl, copy, hrole⟩ := Role.eq_of_requests (hq.symm.trans hm)
  rcases g.waits_or with hwait | ⟨shared, htok⟩ | ⟨hcached, hdown⟩
  · exact h.good_wait hm (.inr rfl) hwait
  · refine ⟨_, none, ?_, by simp, _, h.fetchM htok hrole⟩
    obtain ⟨hdir, hsharers⟩ := h.dir_of_settled htok
    cases shared with
    | true =>
      rw [hdir]
      show Except.ok (s.deliverRequest i _ _ _, _) = _
      rw [deliverRequest_multicast s i rfl rfl rfl]
      rfl
    | false =>
      have hempty := hsharers rfl
      rw [hempty] at hdir
      rw [hempty, hdir]
      show Except.ok (s.deliverRequest i _ _ _, _) = _
      rw [deliverRequest_quiet s i rfl rfl rfl]
      simp
  · obtain ⟨o, hg, hdir⟩ := h.dir_of_cached hcached hdown
    refine ⟨_, none, ?_, by simp, _, h.join hg hrole⟩
    rw [hdir]
    show Except.ok (s.deliverRequest i _ _ _, _) = _
    rw [deliverRequest_forward s i rfl rfl rfl]
    rfl

end Coherent

end MSI
