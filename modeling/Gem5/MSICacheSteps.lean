/-
# Steps of the caches of MSI

What the processor asks for, and what a cache makes of the messages that reach it:
forwarded requests and invalidations, data from the directory or from another cache,
and acks.  Each step of a coherent system goes well, sees the latest value, and
leaves a coherent system (`Good`).
-/
import Gem5.MSIInvariant

open Function Finset

namespace MSI

open Ruby Ghost Place Role

variable {N : Type} {b : ℕ}

/-! ## What the caches do

The transitions that occur, on the records that the invariant allows. -/

/-- The states in which a load hits. -/
def CacheState.Readable (st : CacheState) : Prop := st = .S ∨ st = .SM_AD ∨ st = .SM_A ∨ st = .M

namespace Cache

variable (d w : DataBlock b) (a : ℤ)

theorem getState_record (st : CacheState) : (record st d a).getState = st := by
  cases st <;> rfl

variable {d a} {st : CacheState} {msg : CacheIn N b}

theorem handle_stall (event : CacheEvent) (hevent : (record st d a).event msg = some event)
    (htable : transition (N := N) (b := b) st event = some (.run [stall] none)) :
    (record st d a).handle msg = .ok { cache := record st d a, inMsg := msg } := by
  unfold handle
  simp only [hevent, getState_record, htable]
  cases st <;> rfl

theorem handle_load_stall (hI : st ≠ .I) (hst : ¬ st.Readable) :
    (record st d a).handle (N := N) .load = .ok { cache := record st d a, inMsg := .load } := by
  apply handle_stall .Load rfl
  cases st
  all_goals first | rfl | exact absurd rfl hI | exact absurd (by simp [CacheState.Readable]) hst

/-- In a state that waits for something, stores and replacements wait as well. -/
theorem handle_wait_stall (hmsg : msg = .store w ∨ msg = .replacement) (hI : st ≠ .I) (hS : st ≠ .S)
    (hM : st ≠ .M) : (record st d a).handle msg = .ok { cache := record st d a, inMsg := msg } := by
  rcases hmsg with rfl | rfl
  · apply handle_stall .Store rfl
    cases st
    all_goals first | rfl | contradiction
  · apply handle_stall .Replacement rfl
    cases st
    all_goals first | rfl | contradiction

end Cache

/-- The role of a cache after its invalidation. -/
def Role.invalidated : Role N → Role N
  | shared => .idle
  | askM _ => .askM false
  | waitM _ => .waitM false
  | leaving .copy put => .leaving .nothing put
  | r => r

/-- A cache with a copy that an invalidation takes away. -/
def Role.Invalidable : Role N → Prop
  | shared | askM true | waitM true | leaving .copy _ => True
  | _ => False

variable {r : Role N}

theorem Role.Invalidable.source_eq (hr : r.Invalidable) :
    r.invalidated.source = none ∧ r.source = none := by
  cases r with
  | waitS source => exact absurd hr id
  | leaving has put => cases has <;> exact ⟨rfl, rfl⟩
  | _ => exact ⟨rfl, rfl⟩

theorem Role.Invalidable.ne_leaving (hr : r.Invalidable) :
    r.invalidated ≠ .leaving .dirty none ∧ r ≠ .leaving .dirty none := by
  cases r with
  | leaving has put =>
    cases has with
    | dirty => exact absurd hr id
    | _ => simp [invalidated]
  | _ => simp [invalidated]

theorem Cache.handle_inv (hr : r.Invalidable) (d : DataBlock b) (a : ℤ) (k : N) :
    (record r.state d a).handle (.forward (.Inv k))
      = .ok { cache := record r.invalidated.state d a, inMsg := .forward (.Inv k),
              responses := [(k, .InvAck)], popped := true } := by
  unfold Invalidable at hr
  split at hr
  all_goals first | rfl | exact absurd hr id

variable {p : Place N} {l : Local N b}

/-- Only a cache with a copy or one that waits for it is to be invalidated. -/
theorem Place.Allows.invalidable (h : p.Allows r) (hinv : p.inv ≠ none) :
    (∃ source, r = .waitS source) ∨ r.Invalidable := by
  unfold Allows at h
  split at h
  all_goals try first
    | exact absurd h.2 hinv
    | exact .inl ⟨_, rfl⟩
    | exact .inr trivial
    | exact absurd h id
  -- one that is in line
  rcases h with ⟨acks, next, -, hnone⟩ | ⟨next, -, hcopy⟩
  · exact absurd hnone hinv
  · rw [hcopy.mp hinv]
    exact .inr trivial

/-- The record and the channels of a cache after its invalidation. -/
theorem Fits.invalidated {v d : DataBlock b} {k : N} {rest : List (ForwardMsg N)} (h : Fits v p r l)
    (hr : r.Invalidable) (hinv : p.inv = some k) (hf : l.forwards = .Inv k :: rest) :
    Fits v ⟨p.part, none, true⟩ r.invalidated
      ⟨record r.invalidated.state d p.part.acks, l.requests, rest, l.dirData⟩ := by
  have hrest : rest = p.part.next.toList ++ r.putAck := by
    have hf' := h.forwards
    rw [hf, Place.forwards, hinv] at hf'
    exact (List.cons.inj hf').2
  obtain ⟨d', hq, -⟩ := h.requests
  have hallowed := h.allowed
  have hdata := h.dirData
  unfold Invalidable at hr
  split at hr
  · exact ⟨⟨hallowed.1, rfl⟩, ⟨d, rfl, False.elim⟩, ⟨d', hq, False.elim⟩, hrest, hdata⟩
  · exact ⟨⟨hallowed.1, rfl⟩, ⟨d, rfl, fun hf => absurd hf Bool.false_ne_true⟩,
      ⟨d', hq, fun hf => absurd hf Bool.false_ne_true⟩, hrest, hdata⟩
  · rcases hallowed with ⟨acks, next, -, hnone⟩ | ⟨next, hpart, -⟩
    · rw [hinv] at hnone
      cases hnone
    · exact ⟨.inr ⟨next, hpart, by simp⟩, ⟨d, rfl, fun hf => absurd hf Bool.false_ne_true⟩,
        ⟨d', hq, fun hf => absurd hf Bool.false_ne_true⟩, hrest, hdata⟩
  · next put =>
    have hpart : p.part = .outside := by
      cases put with
      | none => exact hallowed
      | some put => exact hallowed.1
    refine ⟨⟨hpart, rfl⟩, ⟨d, rfl, False.elim⟩, ⟨d', ?_, False.elim⟩, ?_, hdata⟩
    · rcases put with - | - | - <;> exact hq
    · cases put <;> exact hrest
  · exact absurd hr id

theorem Role.state_eq_iff (r' : Role N) (hr' : r' = .idle ∨ r' = .shared ∨ r' = .owning) :
    r.state = r'.state ↔ r = r' := by
  rcases hr' with rfl | rfl | rfl
  all_goals
    cases r with
    | askM copy | waitM copy | collecting copy => cases copy <;> simp [state]
    | leaving rest put => cases rest <;> simp [state, Rest.state]
    | _ => simp [state]

theorem Role.state_eq_I : r.state = .I ↔ r = .idle :=
  state_eq_iff .idle (by simp)

theorem Role.state_eq_S : r.state = .S ↔ r = .shared :=
  state_eq_iff .shared (by simp)

theorem Role.state_eq_M : r.state = .M ↔ r = .owning :=
  state_eq_iff .owning (by simp)

/-- A cache in which a load hits has the latest value. -/
theorem Place.fresh_of_readable (h : r.state.Readable) : p.Fresh r := by
  cases r with
  | askM copy | waitM copy => cases copy <;> simp_all [state, CacheState.Readable, Fresh]
  | collecting copy | shared | owning => trivial
  | leaving rest put => cases rest <;> simp [state, Rest.state, CacheState.Readable] at h
  | _ => simp [state, CacheState.Readable] at h

section

variable [DecidableEq N] {m : ForwardMsg N}

/-- A step without fault that sees the latest value and keeps the invariant. -/
def Good (line : Addr) (v : DataBlock b) (out : Outcome (System N b) b) : Prop :=
  ∃ s c, out = .ok (s, c) ∧ (∀ x, c = some x → x.seen = v) ∧
    ∃ g, Coherent s line (valueAfter v c) g

/-- A cache that sends neither data nor responses changes its own record and channels. -/
theorem System.afterCache_eq (s : System N b) (i : N) {ctx : CacheCtx N b}
    (hresp : ctx.responses = []) (hdata : ctx.dataToDir = []) :
    s.afterCache i ctx
      = s.setLocal i ⟨ctx.cache, s.requests i ++ ctx.requests, s.forwards i, s.dirData i⟩
          s.dataToDir s.responses := by
  simp [afterCache, setLocal, hresp, hdata]

/-- What a forwarded message leaves that is popped. -/
theorem System.deliverForward_eq (s : System N b) (i : N) {rest : List (ForwardMsg N)}
    {ctx : CacheCtx N b} (hpop : ctx.popped = true) (hreq : ctx.requests = []) :
    s.deliverForward i m rest ctx
      = s.setLocal i ⟨ctx.cache, s.requests i, rest, s.dirData i⟩
          (update s.dataToDir i (s.dataToDir i ++ ctx.dataToDir))
          (update s.responses i (push (s.responses i) ctx.responses)) := by
  simp [deliverForward, afterCache, setLocal, consume, hpop, hreq]

namespace Coherent

variable {s : System N b} {line : Addr} {v w : DataBlock b} {g : Ghost N}

variable {msg : CacheIn N b} {ctx : CacheCtx N b} {i : N}

section

variable (h : Coherent s line v g)

include h

/-- A cache handles a message of its processor and sends at most a request. -/
theorem good_cacheStep (hctx : (s.caches i).handle msg = .ok ctx)
    (hresp : ctx.responses = []) (hdata : ctx.dataToDir = [])
    (hcompl : ctx.completion = none ∨ ctx.completion = some (.readCallback v))
    (hfits : Fits v (g.place i) r
      ⟨ctx.cache, s.requests i ++ ctx.requests, s.forwards i, s.dirData i⟩)
    (hsource : ∀ j, r = .waitS (.cache j) ↔ g.role i = .waitS (.cache j))
    (hshares : (g.place i).Shares r ↔ (g.place i).Shares (g.role i)) :
    Good line v (s.cacheStep i msg) := by
  have hnext := h.setLocal hfits hsource hshares
  rw [← System.afterCache_eq s i hresp hdata] at hnext
  refine ⟨s.afterCache i ctx, ctx.completion, ?_, ?_, g.setRole i r, ?_⟩
  · unfold System.cacheStep
    rw [hctx]
    rfl
  · rcases hcompl with hc | hc
    · simp [hc]
    · rw [hc]
      rintro x hx
      cases hx
      rfl
  · rcases hcompl with hc | hc <;> rw [hc] <;> exact hnext

/-- A cache makes its processor wait. -/
theorem good_stall (hctx : (s.caches i).handle msg = .ok { cache := s.caches i, inMsg := msg }) :
    Good line v (s.cacheStep i msg) := by
  refine h.good_cacheStep hctx rfl rfl (.inl rfl) ?_ (fun _ => .rfl) .rfl
  rw [List.append_nil]
  exact h.fits i

/-- The processor asks for something, and the cache sends a request for it. -/
theorem good_ask {r0 : Role N} (hrole : g.role i = r0)
    {e : DataBlock b → DataBlock b} {popped : Bool}
    (hctx : ∀ d a, (record r0.state d a).handle msg = .ok
      { cache := record r.state (e d) 0, inMsg := msg, requests := r.requests (e d), popped })
    (hd : (g.place i).Fresh r → ∀ d, ((g.place i).Fresh r0 → d = v) → e d = v)
    (hnone : ∀ d : DataBlock b, r0.requests d = [])
    (hallows : (g.place i).Allows r0 → (g.place i).Allows r ∧ (g.place i).part.acks = 0)
    (hack : r.putAck = r0.putAck) (hsource : r.source = r0.source)
    (hshares : (g.place i).Shares r ↔ (g.place i).Shares r0) :
    Good line v (s.cacheStep i msg) := by
  subst hrole
  have hcache_iff : ∀ j, r = .waitS (.cache j) ↔ g.role i = .waitS (.cache j) := by
    intro j
    rw [← source_eq_some, hsource, source_eq_some]
  have hfits := h.fits i
  obtain ⟨hallowed, hacks⟩ := hallows hfits.allowed
  obtain ⟨d, hc, hfresh⟩ := hfits.cache
  obtain ⟨d', hq, -⟩ := hfits.requests
  have hctx' := hctx d (g.place i).part.acks
  rw [← show s.caches i = record _ d _ from hc] at hctx'
  refine h.good_cacheStep hctx' rfl rfl (.inl rfl) ?_ hcache_iff hshares
  refine ⟨hallowed, ⟨e d, ?_, fun hf => hd hf d hfresh⟩, ⟨e d, ?_, fun hf => hd hf d hfresh⟩, ?_, ?_⟩
  · rw [hacks]
  · show s.requests i ++ r.requests (e d) = _
    rw [show s.requests i = [] from hq.trans (hnone d')]
    rfl
  · apply hfits.forwards.trans
    rw [forwards, forwards, hack]
  · rw [dirAcks, hsource]
    exact hfits.dirData

/-- **The processor loads.** -/
theorem good_load (i : N) : Good line v (s.cacheStep i .load) := by
  have hfits := h.fits i
  obtain ⟨d, hc, hd⟩ := hfits.cache
  replace hc : s.caches i = _ := hc
  by_cases hread : (g.role i).state.Readable
  · obtain rfl := hd (fresh_of_readable hread)
    have hctx : (s.caches i).handle (N := N) .load = .ok
        { cache := s.caches i, inMsg := .load, popped := true, completion := some (.readCallback d) } := by
      rw [hc]
      rcases hread with hst | hst | hst | hst <;> rw [hst] <;> rfl
    refine h.good_cacheStep hctx rfl rfl (.inr rfl) ?_ (fun _ => .rfl) .rfl
    rw [List.append_nil]
    exact hfits
  by_cases hidle : g.role i = .idle
  · refine h.good_ask hidle (r := .askS) (fun _ _ => rfl) False.elim (fun _ => rfl) ?_ rfl rfl ?_
    · exact fun hallowed => ⟨hallowed, by rw [hallowed.1]; rfl⟩
    · simp [Shares, Recorded]
  · apply h.good_stall
    rw [hc]
    exact Cache.handle_load_stall (mt state_eq_I.mp hidle) hread

/-- Once all invalidations are answered, no reader waits for another cache. -/
theorem not_waiting (hne : g.line ≠ []) (hinv : g.inv = ∅) (i j : N) :
    g.role i ≠ .waitS (.cache j) := by
  intro hrole
  have hallowed := (h.fits i).allowed
  rw [hrole] at hallowed
  exact hallowed.2 (busy_of_ne hne i) (inv_of_empty hinv i)

theorem responses_eq_nil (hne : g.line ≠ []) (hinv : g.inv = ∅) (hack : g.ack = ∅)
    (htok : ∀ j, g.tok ≠ .cacheData j) : s.responses = fun _ _ => [] := by
  funext j i
  rw [h.responses, Ghost.responses_eq_nil (h.not_waiting hne hinv i j) (htok j) (by simp [hack])]

/-- A store completes at the head of the line. -/
theorem good_own (hhead : g.line.head? = some i)
    (htok : g.tok.Cached) (hinv : g.inv = ∅) (hrole : g.role i ≠ .leaving .dirty none)
    {out : Outcome (System N b) b}
    (hout : out = .ok
      (s.setLocal i ⟨record .M w 0, [], (g.next i).toList, []⟩ s.dataToDir fun _ _ => [],
        some (.writeCallback v w))) : Good line v out := by
  refine ⟨_, _, hout, ?_, _, h.own hhead htok hinv hrole⟩
  rintro x hx
  cases hx
  rfl

/-- **The processor stores.** -/
theorem good_store (i : N) : Good line v (s.cacheStep i (.store w)) := by
  have hfits := h.fits i
  obtain ⟨d, hc, hd⟩ := hfits.cache
  replace hc : s.caches i = _ := hc
  by_cases hidle : g.role i = .idle
  · refine h.good_ask hidle (r := .askM false) (fun _ _ => rfl) (by simp [Fresh]) (fun _ => rfl) ?_
      rfl rfl ?_
    · exact fun hallowed => ⟨hallowed, by rw [hallowed.1]; rfl⟩
    · simp [Shares, Recorded]
  by_cases hshared : g.role i = .shared
  · refine h.good_ask hshared (r := .askM true) (fun _ _ => rfl) (fun _ _ hd => hd trivial)
      (fun _ => rfl) ?_ rfl rfl ?_
    · exact fun hallowed => ⟨hallowed, by rw [hallowed.1]; rfl⟩
    · simp [Shares, Recorded]
  by_cases hown : g.role i = .owning
  · rw [hown] at hfits hc hd
    obtain ⟨⟨next, hpart⟩, hinv⟩ := hfits.allowed
    obtain ⟨hhead, htok, -, hnext⟩ := head_of_part hpart
    obtain rfl := hd trivial
    have hcounts := h.counts
    simp only [Counts, htok] at hcounts
    obtain ⟨hne, hinv', hack⟩ := hcounts
    have hcached : g.tok.Cached := by
      rw [htok]
      trivial
    obtain ⟨d', hq, -⟩ := hfits.requests
    have hf : s.forwards i = (g.next i).toList := by
      apply hfits.forwards.trans
      rw [forwards, hinv, hpart, hnext]
      simp [Part.next, putAck]
    have hdata : s.dirData i = [] := by
      apply hfits.dirData.trans
      rw [dirAcks_eq_none (by simp) (by simp [hpart])]
      rfl
    apply h.good_own hhead hcached hinv' (by simp [hown])
    unfold System.cacheStep
    rw [hc]
    show Except.ok (s.afterCache i _, _) = _
    rw [System.afterCache_eq s i rfl rfl, show s.requests i = [] from hq, hf, hdata,
      h.responses_eq_nil hne hinv' hack (by simp [htok])]
    rfl
  · apply h.good_stall
    rw [hc]
    exact Cache.handle_wait_stall w (.inl rfl) (mt state_eq_I.mp hidle)
      (mt state_eq_S.mp hshared) (mt state_eq_M.mp hown)

/-- **The line is replaced.** -/
theorem good_replacement (hentry : (s.caches i).entry.isSome) :
    Good line v (s.cacheStep i .replacement) := by
  have hfits := h.fits i
  obtain ⟨d, hc, hd⟩ := hfits.cache
  replace hc : s.caches i = _ := hc
  by_cases hidle : g.role i = .idle
  · rw [hc, hidle] at hentry
    cases hentry
  by_cases hshared : g.role i = .shared
  · refine h.good_ask hshared (r := .leaving .copy (some .PutS)) (fun _ _ => rfl) False.elim
      (fun _ => rfl) ?_ rfl rfl ?_
    · exact fun hallowed => ⟨hallowed, by rw [hallowed.1]; rfl⟩
    · simp [Shares, Recorded]
  by_cases hown : g.role i = .owning
  · refine h.good_ask hown (r := .leaving .dirty (some .PutM)) (fun _ _ => rfl)
      (fun _ _ hd => hd trivial) (fun _ => rfl) ?_ rfl rfl ?_
    · rintro ⟨⟨next, hpart⟩, hinv⟩
      exact ⟨⟨⟨next, hpart⟩, hinv⟩, by rw [hpart]; rfl⟩
    · simp [Shares, Recorded]
  · apply h.good_stall
    rw [hc]
    exact Cache.handle_wait_stall (fun _ => 0) (.inr rfl) (mt state_eq_I.mp hidle)
      (mt state_eq_S.mp hshared) (mt state_eq_M.mp hown)

/-! ## Forwarded messages -/

end

variable {rest : List (ForwardMsg N)} (h : Coherent s line v g)

include h

/-- A cache handles a forwarded message and sends nothing. -/
theorem good_forward
    (hctx : (s.caches i).handle (.forward m) = .ok ctx) (hresp : ctx.responses = [])
    (hdata : ctx.dataToDir = []) (hcompl : ctx.completion = none)
    (hfits : Fits v (g.place i) r
      ⟨ctx.cache, s.requests i ++ ctx.requests, consume ctx.popped m rest, s.dirData i⟩)
    (hsource : ∀ j, r = .waitS (.cache j) ↔ g.role i = .waitS (.cache j))
    (hshares : (g.place i).Shares r ↔ (g.place i).Shares (g.role i)) :
    Good line v (((s.caches i).handle (.forward m)).map fun ctx =>
      (s.deliverForward i m rest ctx, ctx.completion)) := by
  refine ⟨_, none, ?_, by simp, _, h.setLocal hfits hsource hshares⟩
  rw [hctx, ← hcompl]
  show Except.ok (_, _) = _
  unfold System.deliverForward
  rw [System.afterCache_eq s i hresp hdata]
  rfl

/-- A forwarded message has to wait. -/
theorem good_forward_stall (hm : s.forwards i = m :: rest)
    (hctx : (s.caches i).handle (.forward m) = .ok { cache := s.caches i, inMsg := .forward m }) :
    Good line v (((s.caches i).handle (.forward m)).map fun ctx =>
      (s.deliverForward i m rest ctx, ctx.completion)) := by
  refine h.good_forward hctx rfl rfl rfl ?_ (fun _ => .rfl) .rfl
  rw [List.append_nil, show consume false m rest = s.forwards i from hm.symm]
  exact h.fits i

/-- The eviction of a line is over. -/
theorem good_putAck {has : Rest} (hrole : g.role i = .leaving has none)
    (hpart : (g.place i).part.next = none) (hinv : (g.place i).inv = none) :
    Good line v (((s.caches i).handle (.forward .PutAck)).map fun ctx =>
      (s.deliverForward i .PutAck [] ctx, ctx.completion)) := by
  have hfits := h.fits i
  rw [hrole] at hfits
  obtain ⟨d, hc, -⟩ := hfits.cache
  obtain ⟨d', hq, -⟩ := hfits.requests
  have hout : (g.place i).part = .outside := by
    have hallowed := hfits.allowed
    cases has with
    | nothing => exact hallowed.1
    | copy => exact hallowed
    | dirty =>
      rcases hallowed.1 with hout | ⟨m, hhead⟩
      · exact hout
      · rw [hhead] at hpart
        cases hpart
  have hctx : (s.caches i).handle (N := N) (.forward .PutAck) = .ok
      { cache := record .I d (g.place i).part.acks, inMsg := .forward .PutAck, popped := true } := by
    rw [show s.caches i = record has.state d (g.place i).part.acks from hc]
    cases has <;> rfl
  refine h.good_forward (r := .idle) hctx rfl rfl rfl ?_ ?_ ?_
  · rw [List.append_nil]
    refine ⟨⟨hout, hinv⟩, ⟨d, rfl, False.elim⟩, ⟨d', hq, False.elim⟩, ?_, hfits.dirData⟩
    rw [forwards, hinv, hpart]
    rfl
  · simp [hrole]
  · rw [hrole]
    simp [Shares, hpart, Recorded]

/-- **A cache is invalidated** and sends its ack to the head. -/
theorem invalidate {i k : N} (hhead : g.line.head? = some k)
    (hi : i ∈ g.inv) (hfits : Fits v ⟨(g.place i).part, none, true⟩ r l)
    (hsource : ∀ j, r = .waitS (.cache j) ↔ g.role i = .waitS (.cache j))
    (hshares : (⟨(g.place i).part, none, true⟩ : Place N).Shares r ↔
      (g.place i).Shares (g.role i)) :
    let g' : Ghost N :=
      { g with role := update g.role i r, inv := g.inv.erase i, ack := insert i g.ack }
    Coherent
      (s.setLocal i l s.dataToDir
        (update s.responses i (push (s.responses i) [(k, .InvAck)])))
      line v g' := by
  intro g'
  have hack : i ∉ g.ack := disjoint_left.mp h.disjoint hi
  have hcard : g'.inv.card + g'.ack.card = g.inv.card + g.ack.card := by
    have hpos := card_pos.mpr ⟨i, hi⟩
    rw [card_erase_of_mem hi, card_insert_of_notMem hack]
    omega
  have hacks : g'.acks = g.acks := acks_congr rfl hcard
  have hplace : ∀ j, j ≠ i → g'.place j = g.place j := by
    intro j hj
    refine place_congr rfl rfl ?_ Iff.rfl fun _ => ⟨rfl, hacks⟩
    simp [g', hj]
  have hne : g.line ≠ [] := List.ne_nil_of_mem (List.mem_of_mem_head? hhead)
  have hself : g'.place i = ⟨(g.place i).part, none, true⟩ := by
    have hpart : g'.part i = g.part i := part_congr rfl rfl Iff.rfl fun _ => ⟨rfl, hacks⟩
    have hinv : i ∉ g'.inv := notMem_erase i g.inv
    have hbusy : (!g'.line.isEmpty) = true := by simpa using hne
    rw [place, hpart, if_neg hinv, hbusy]
    rfl
  have hdata : ∀ j m, (g'.role m = .waitS (.cache j) ↔ g.role m = .waitS (.cache j)) := by
    intro j m
    by_cases hm : m = i
    · subst hm
      rw [show g'.role m = r from update_self _ _ _, hsource]
    · rw [show g'.role m = g.role m from update_of_ne hm _ _]
  refine ⟨h.nodup, ?_, ?_, h.down, ?_, h.dataToDir, ?_, ?_⟩
  · refine h.counts.of_le rfl rfl rfl hcard.le fun htok => ?_
    rw [hcard]
    have hcounts := h.counts
    simp only [Counts, htok] at hcounts
    exact hcounts.2
  · rw [disjoint_insert_right]
    exact ⟨notMem_erase i g.inv, h.disjoint.mono_left (erase_subset i g.inv)⟩
  · apply h.fits_setLocal rfl hplace
    rw [hself]
    exact hfits
  · intro j m
    show update s.responses i _ j m = _
    by_cases hj : j = i
    · subst hj
      rw [update_self, push_singleton]
      by_cases hm : m = k
      · subst hm
        have hbefore : (g.invAck j m : List (ResponseMsg b)) = [] := if_neg fun hj => hack hj.1
        have hafter : (g'.invAck j m : List (ResponseMsg b)) = [.InvAck] :=
          if_pos ⟨mem_insert_self j g.ack, hhead⟩
        have hsame : g'.data v j m = g.data v j m :=
          if_congr (or_congr (hdata j m) .rfl) rfl rfl
        rw [update_self, h.responses, Ghost.responses, Ghost.responses, hbefore, hafter, hsame,
          List.append_nil]
      · rw [update_of_ne hm, h.responses]
        have hother : g.line.head? ≠ some m := fun hm' => hm (Option.some.inj (hm'.symm.trans hhead))
        refine (responses_congr v (or_congr (hdata j m) .rfl) ?_).symm
        exact iff_of_false (fun hm' => hother hm'.2) fun hm' => hother hm'.2
    · rw [update_of_ne hj, h.responses]
      refine (responses_congr v (or_congr (hdata j m) .rfl) ?_).symm
      simp [g', hj]
  · refine h.dir.congr rfl rfl rfl (shares_congr rfl hplace ?_)
    rw [hself]
    exact hshares

/-- **An invalidation is delivered.** -/
theorem good_inv {i k : N} (hinv : (g.place i).inv = some k) (hm : s.forwards i = .Inv k :: rest) :
    Good line v (((s.caches i).handle (.forward (.Inv k))).map fun ctx =>
      (s.deliverForward i (.Inv k) rest ctx, ctx.completion)) := by
  have hfits := h.fits i
  obtain ⟨d, hc, -⟩ := hfits.cache
  replace hc : s.caches i = _ := hc
  obtain ⟨hi, hhead⟩ : i ∈ g.inv ∧ g.line.head? = some k := by
    have hinv' := hinv
    simp only [place] at hinv'
    split_ifs at hinv' with hi
    exact ⟨hi, hinv'⟩
  rcases hfits.allowed.invalidable (by simp [hinv]) with ⟨source, hrole⟩ | hr
  · apply h.good_forward_stall hm
    rw [hc, hrole]
    rfl
  · have hctx := Cache.handle_inv hr d (g.place i).part.acks k
    rw [← hc] at hctx
    have hbusy : (g.place i).busy = true := by
      apply busy_of_ne
      rintro hnil
      rw [hnil] at hhead
      cases hhead
    refine ⟨_, none, ?_, by simp, _,
      h.invalidate hhead hi (hfits.invalidated (d := d) hr hinv hm) ?_ ?_⟩
    · rw [hctx]
      show Except.ok (s.deliverForward i _ _ _, _) = _
      rw [System.deliverForward_eq s i rfl rfl]
      rw [List.append_nil, update_eq_self]
      rfl
    · intro j
      rw [← source_eq_some, ← source_eq_some, hr.source_eq.1, hr.source_eq.2]
    · rw [shares_of_busy rfl, shares_of_busy hbusy]
      simp [hr.ne_leaving.1, hr.ne_leaving.2]

end Coherent

end

end MSI
