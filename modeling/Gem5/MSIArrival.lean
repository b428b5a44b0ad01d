/-
# Data and acks arrive in MSI

Data that arrives lets a reader go on.  The head of the line stores when it has the
data and the last ack has come; until then it counts the acks, below zero while the
directory has not yet said how many there are.
-/
import Gem5.MSITransfer

open Function Finset

namespace MSI

open MSI.System

open Ruby Ghost Place

variable {N : Type} {b : ℕ} {r : Role N} {next : Option (ForwardMsg N)} {tok : Token N}
  {p : Place N}

/-- The roles of a head that counts acks. -/
def Role.Counting (r : Role N) : Prop := (∃ copy, r = .waitM copy) ∨ ∃ copy, r = .collecting copy

/-! ## What the caches do -/

namespace Cache

variable {d v w : DataBlock b} {a : ℤ}

/-- Data for the head, with all acks. -/
theorem handle_write_dir (copy : Bool) (acks : ℤ) (h : acks + a = 0) :
    (record (Role.waitM (N := N) copy).state d a).handle (N := N) (.dirResponse ⟨v, acks⟩ w)
      = .ok { cache := record .M w 0, inMsg := .dirResponse ⟨v, acks⟩ w, popped := true,
              completion := some (.writeCallback v w) } := by
  cases copy <;> simp [handle, record, Role.state, event, h] <;> rfl

/-- Data for the head, with acks left to wait for. -/
theorem handle_collect (copy : Bool) (acks : ℤ) (h : 0 < acks + a) :
    (record (Role.waitM (N := N) copy).state d a).handle (N := N) (.dirResponse ⟨v, acks⟩ w)
      = .ok { cache := record (Role.collecting (N := N) copy).state v (acks + a),
              inMsg := .dirResponse ⟨v, acks⟩ w, popped := true } := by
  have hlt : ¬ acks + a < 0 := by omega
  have hne : ¬ acks + a = 0 := by omega
  cases copy <;>
    simp [handle, record, Role.state, event, hlt, hne, getState, transition, doTransition,
      runActions, writeDataToCache, storeAcks, h, popResponseQueue, setState]

theorem handle_invAck (hr : r.Counting) (ha : a ≠ 1) :
    (record r.state d a).handle (N := N) (.cacheResponse .InvAck w)
      = .ok { cache := record r.state d (a - 1), inMsg := .cacheResponse .InvAck w,
              popped := true } := by
  rcases hr with ⟨copy, rfl⟩ | ⟨copy, rfl⟩ <;> cases copy <;>
    simp [handle, record, Role.state, event, ha, getState, transition, doTransition, runActions,
      decrAcks, popResponseQueue, setState]

end Cache

/-- What the head of the line is doing, by where the data is. -/
theorem Place.Allows.of_head (h : p.Allows r) {acks : ℤ} (hpart : p.part = .head tok acks next) :
    (∃ copy, r = .waitM copy ∧ ((∃ k, tok = .fetch k ∨ tok = .dirData k) ∨
        copy = false ∧ ∃ j, tok = .cacheData j)) ∨
      (∃ copy, r = .collecting copy ∧ tok = .collect) ∨ r.Holds ∧ tok = .held := by
  unfold Allows at h
  split at h
  all_goals try simp [hpart] at h
  · obtain ⟨⟨_, _, ⟨k, ⟨htok, -⟩ | ⟨htok, -⟩⟩ | ⟨hcopy, hj, -⟩⟩, -⟩ := h
    · exact .inl ⟨_, rfl, .inl ⟨k, .inl htok⟩⟩
    · exact .inl ⟨_, rfl, .inl ⟨k, .inr htok⟩⟩
    · exact .inl ⟨_, rfl, .inr ⟨hcopy, hj⟩⟩
  · exact .inr (.inl ⟨_, rfl, h.1⟩)
  · exact .inr (.inr ⟨.inl rfl, h.1.1⟩)
  all_goals exact .inr (.inr ⟨.inr ⟨_, rfl⟩, h.1.1⟩)

/-- Data with acks is for the head of the line. -/
theorem Place.head_of_dirAcks {acks : ℤ} (hr : r ≠ .waitS .directory) (h : p.dirAcks r = some acks)
    : ∃ k a next, p.part = .head (.dirData k) a next ∧ acks = k := by
  unfold dirAcks at h
  split at h
  · rename_i hsource
    exact absurd (Role.source_eq_some.mp hsource) hr
  · unfold Part.dirAcks at h
    split at h
    · rename_i k a next hpart
      exact ⟨k, a, next, hpart, (Option.some.inj h).symm⟩
    · cases h

/-- The head is not to be invalidated. -/
theorem Place.Allows.inv_of_head (h : p.Allows r) {acks : ℤ} (hpart : p.part = .head tok acks next)
    : p.inv = none := by
  rcases h.of_head hpart with ⟨copy, rfl, -⟩ | ⟨copy, rfl, -⟩ | ⟨rfl | ⟨put, rfl⟩, -⟩
  · rcases h with ⟨acks', next', -, hinv⟩ | ⟨next', hqueued, -⟩
    · exact hinv
    · rw [hpart] at hqueued
      cases hqueued
  · exact h.2
  · exact h.2
  · cases put with
    | none => exact h.2
    | some put =>
      cases put with
      | PutS => exact absurd h id
      | PutM => exact h.2

section

variable [DecidableEq N]

/-- What data from the directory leaves. -/
theorem System.deliverDirData_eq (s : System N b) (i : N) {m : DirData b} {rest : List (DirData b)}
    {ctx : CacheCtx N b} (hpop : ctx.popped = true) (hreq : ctx.requests = [])
    (hdata : ctx.dataToDir = []) (hresp : ctx.responses = []) :
    s.deliverDirData i m rest ctx
      = s.setLocal i ⟨ctx.cache, s.requests i, s.forwards i, rest⟩ s.dataToDir s.responses := by
  simp [deliverDirData, afterCache, setLocal, consume, hpop, hreq, hdata, hresp]

/-- What a response of `j` leaves. -/
theorem System.deliverResponse_eq (s : System N b) (j i : N) {m : ResponseMsg b}
    {rest : List (ResponseMsg b)} {ctx : CacheCtx N b} (hpop : ctx.popped = true)
    (hreq : ctx.requests = []) (hdata : ctx.dataToDir = []) (hresp : ctx.responses = []) :
    s.deliverResponse j i m rest ctx
      = s.setLocal i ⟨ctx.cache, s.requests i, s.forwards i, s.dirData i⟩ s.dataToDir
          (update s.responses j (update (s.responses j) i rest)) := by
  simp [deliverResponse, afterCache, setLocal, consume, hpop, hreq, hdata, hresp]

namespace Ghost

variable {g : Ghost N} {i : N}

theorem not_head_of_outside (h : (g.place i).part = .outside) : g.line.head? ≠ some i := by
  intro hhead
  have hpart := part_of_head hhead
  rw [show g.part i = .outside from h] at hpart
  cases hpart

/-- With an ack that arrives, one less is waited for. -/
theorem Counts.acks_erase (h : g.Counts) {j : N} (hj : j ∈ g.ack) :
    acks { g with ack := g.ack.erase j } = g.acks - 1 := by
  have hpos := card_pos.mpr ⟨j, hj⟩
  have hcard : ((g.ack.erase j).card : ℤ) = g.ack.card - 1 := by
    rw [card_erase_of_mem hj]
    omega
  have hne : g.ack ≠ ∅ := ne_empty_of_mem hj
  unfold Counts at h
  unfold acks
  cases htok : g.tok with
  | fetch k | dirData k | collect =>
    simp only [hcard]
    ring
  | held | cacheData k =>
    simp only [htok] at h
    exact absurd h.2.2 hne
  | _ =>
    simp only [htok] at h
    exact absurd h.2.2.1 hne

omit [DecidableEq N] in
theorem Counts.ne_cacheData (h : g.Counts) {j k : N} (hj : j ∈ g.ack) : g.tok ≠ .cacheData k := by
  intro htok
  simp only [Counts, htok] at h
  exact ne_empty_of_mem hj h.2.2

end Ghost

omit [DecidableEq N] in
theorem Role.Counting.ne_waitS (h : r.Counting) {source : Source N} : r ≠ .waitS source := by
  rcases h with ⟨copy, rfl⟩ | ⟨copy, rfl⟩ <;> simp

omit [DecidableEq N] in
/-- The head counts its acks. -/
theorem Fits.setAcks {v d : DataBlock b} {a a' : ℤ} {l : Local N b}
    (h : Fits v ⟨.head tok a next, none, true⟩ r l) (hr : r.Counting)
    (hd : (⟨.head tok a next, none, true⟩ : Place N).Fresh r → d = v) :
    Fits v ⟨.head tok a' next, none, true⟩ r
      ⟨record r.state d a', l.requests, l.forwards, l.dirData⟩ := by
  have hallowed := h.allowed
  have hdata : l.dirData
      = ((⟨.head tok a' next, none, true⟩ : Place N).dirAcks r).toList.map (DirData.mk v) := by
    rw [h.dirData]
    rcases hr with ⟨copy, rfl⟩ | ⟨copy, rfl⟩ <;> cases tok <;> rfl
  rcases hr with ⟨copy, rfl⟩ | ⟨copy, rfl⟩
  · refine ⟨?_, ⟨d, rfl, hd⟩, h.requests, h.forwards, hdata⟩
    rcases hallowed with ⟨acks, next', hhead, -⟩ | ⟨next', hqueued, -⟩
    · refine .inl ⟨a', next, ?_, rfl⟩
      rcases hhead with ⟨k, hk | hk⟩ | ⟨hcopy, j, hj⟩
      · cases hk
        exact .inl ⟨k, .inl rfl⟩
      · cases hk
        exact .inl ⟨k, .inr rfl⟩
      · cases hj
        exact .inr ⟨hcopy, j, rfl⟩
    · cases hqueued
  · obtain ⟨⟨acks, next', hhead⟩, -⟩ := hallowed
    cases hhead
    exact ⟨⟨⟨a', next, rfl⟩, rfl⟩, ⟨d, rfl, hd⟩, h.requests, h.forwards, hdata⟩

namespace Coherent

variable {s : System N b} {line : Addr} {v w : DataBlock b} {g : Ghost N} {j i : N}

section

variable (h : Coherent s line v g)

include h

theorem notMem_inv (hhead : g.line.head? = some i) : i ∉ g.inv := by
  intro hi
  have hinv := (h.fits i).allowed.inv_of_head (part_of_head hhead)
  simp [place, hi, hhead] at hinv

/-- The channels of a head that counts acks. -/
theorem channels_of_head (hhead : g.line.head? = some i) (hrole : (g.role i).Counting) :
    s.requests i = [] ∧ s.forwards i = (g.next i).toList := by
  have hfits := h.fits i
  rw [place_of_head hhead (h.notMem_inv hhead)] at hfits
  obtain ⟨d, hq, -⟩ := hfits.requests
  have hf := hfits.forwards
  rcases hrole with ⟨copy, hrole⟩ | ⟨copy, hrole⟩ <;> rw [hrole] at hq hf
  · exact ⟨hq, hf.trans (List.append_nil _)⟩
  · exact ⟨hq, hf.trans (List.append_nil _)⟩

/-- **The head has the data and waits for acks.** -/
theorem collect (hhead : g.line.head? = some i) {k : ℕ} (htok : g.tok = .dirData k)
    {copy : Bool} (hrole : g.role i = .waitM copy) (hpos : 0 < g.inv.card + g.ack.card) :
    let g' : Ghost N := { g with role := update g.role i (.collecting copy), tok := .collect }
    Coherent
      (s.setLocal i
        ⟨record (Role.collecting (N := N) copy).state v ((g.inv.card : ℤ) + g.ack.card), [],
          (g.next i).toList, []⟩ s.dataToDir s.responses)
      line v g' := by
  intro g'
  have hcached : g.tok.Cached := by
    rw [htok]
    trivial
  have hnotMem := h.notMem_inv hhead
  have hself : g'.place i
      = ⟨.head .collect ((g.inv.card : ℤ) + g.ack.card) (g.next i), none, true⟩ :=
    place_of_head hhead hnotMem
  have hplace : ∀ j, j ≠ i → g'.place j = g.place j := by
    intro j hj
    refine place_congr rfl rfl Iff.rfl ?_ ?_
    · exact iff_of_false (by simp) (not_read_of_cached hcached j)
    · exact fun hj' => absurd (Option.some.inj (hj'.symm.trans hhead)) hj
  refine ⟨h.nodup, ⟨h.counts.line_ne_nil hcached, hpos⟩, h.disjoint, h.down, ?_, ?_, ?_, ?_⟩
  · apply h.fits_setLocal rfl hplace
    rw [hself]
    exact ⟨⟨⟨_, _, rfl⟩, rfl⟩, ⟨v, rfl, fun _ => rfl⟩, ⟨v, rfl, fun _ => rfl⟩,
      (List.append_nil _).symm, rfl⟩
  · intro j
    show s.dataToDir j = _
    rw [h.dataToDir, if_neg (by simp [htok]), if_neg (by simp)]
  · refine h.responses_update rfl ?_ ?_ ?_
    · simp [hrole]
    · simp [htok]
    · exact fun _ _ => .rfl
  · refine h.dir.of_cached hcached trivial rfl rfl (shares_congr rfl hplace ?_)
    rw [hself, hrole, place_of_head hhead hnotMem, shares_of_busy rfl, shares_of_busy rfl]
    simp [Part.next]

/-- **Data from the directory is delivered.** -/
theorem good_dirData {m : DirData b} {rest : List (DirData b)} (hm : s.dirData i = m :: rest) :
    Good line v (((s.caches i).handle (.dirResponse m w)).map fun ctx =>
      (s.deliverDirData i m rest ctx, ctx.completion)) := by
  have hfits := h.fits i
  obtain ⟨d, hc, -⟩ := hfits.cache
  replace hc : s.caches i = _ := hc
  have hdata : m :: rest = ((g.place i).dirAcks (g.role i)).toList.map (DirData.mk v) :=
    hm.symm.trans hfits.dirData
  by_cases hread : g.role i = .waitS .directory
  · -- a reader
    rw [hread] at hfits hc hdata
    cases hdata
    obtain ⟨hpart, hinv⟩ := hfits.allowed
    rw [hpart] at hc
    obtain ⟨d', hq, -⟩ := hfits.requests
    have hnew : Fits v (g.place i) .shared ⟨record .S v 0, s.requests i, s.forwards i, []⟩ := by
      refine ⟨⟨hpart, hinv⟩, ⟨v, ?_, fun _ => rfl⟩, ⟨v, hq, fun _ => rfl⟩, hfits.forwards, ?_⟩
      · rfl
      · rw [dirAcks_eq_none (by simp) (by simp [hpart])]
        rfl
    refine ⟨_, some (.readCallback v), ?_, ?_, _, h.setLocal hnew ?_ ?_⟩
    · rw [hc]
      show Except.ok (s.deliverDirData i _ _ _, _) = _
      rw [deliverDirData_eq s i rfl rfl rfl rfl]
      rfl
    · rintro x hx
      cases hx
      rfl
    · simp [hread]
    · rw [hread]
      simp [Shares, Role.Recorded]
  -- the head of the line
  cases hacks : (g.place i).dirAcks (g.role i) with
  | none =>
    rw [hacks] at hdata
    cases hdata
  | some acks =>
    rw [hacks] at hdata
    cases hdata
    obtain ⟨k, a, next, hpart, rfl⟩ := head_of_dirAcks hread hacks
    obtain ⟨hhead, htok, ha, -⟩ := head_of_part hpart
    have hcached : g.tok.Cached := by
      rw [htok]
      trivial
    obtain ⟨copy, hrole⟩ : ∃ copy, g.role i = .waitM copy := by
      rcases hfits.allowed.of_head hpart with ⟨copy, hrole, -⟩ | ⟨copy, -, htok'⟩ | ⟨-, htok'⟩
      · exact ⟨copy, hrole⟩
      · cases htok'
      · cases htok'
    obtain ⟨hq, hf⟩ := h.channels_of_head hhead (.inl ⟨copy, hrole⟩)
    have hsum : (k : ℤ) + a = (g.inv.card : ℤ) + g.ack.card := by
      rw [← ha]
      simp only [acks, htok]
      ring
    rw [hrole, hpart, show (Part.head (.dirData k) a next).acks = a from rfl] at hc
    by_cases hzero : g.inv.card + g.ack.card = 0
    · have hinv : g.inv = ∅ := card_eq_zero.mp (by omega)
      have hack : g.ack = ∅ := card_eq_zero.mp (by omega)
      have hctx := Cache.handle_write_dir (N := N) (d := d) (v := v) (w := w) (a := a) copy k
        (by omega)
      rw [← hc] at hctx
      apply h.good_own hhead hcached hinv (by simp [hrole])
      rw [hctx]
      show Except.ok (s.deliverDirData i _ _ _, _) = _
      rw [deliverDirData_eq s i rfl rfl rfl rfl, hq, hf,
        h.responses_eq_nil (h.counts.line_ne_nil hcached) hinv hack (by simp [htok])]
      rfl
    · have hctx := Cache.handle_collect (N := N) (d := d) (v := v) (w := w) (a := a) copy k
        (by omega)
      rw [← hc] at hctx
      refine ⟨_, none, ?_, by simp, _, h.collect hhead htok hrole (by omega)⟩
      rw [hctx]
      show Except.ok (s.deliverDirData i _ _ _, _) = _
      rw [deliverDirData_eq s i rfl rfl rfl rfl, hq, hf, hsum]
      rfl

end

/-- A response is taken, and it was the only one from `j` to `i`. -/
theorem update_responses (R : N → N → List (ResponseMsg b)) (j i k m : N) :
    update R j (update (R j) i []) k m = if k = j ∧ m = i then [] else R k m := by
  by_cases hk : k = j
  · subst hk
    by_cases hm : m = i
    · subst hm
      simp
    · simp [hm]
  · simp [hk]

variable (h : Coherent s line v g)

include h

/-- **Data arrives at a reader** from another cache. -/
theorem arrive (hrole : g.role i = .waitS (.cache j)) :
    Coherent
      (s.setLocal i ⟨record .S v 0, s.requests i, s.forwards i, s.dirData i⟩ s.dataToDir
        (update s.responses j (update (s.responses j) i []))) line v (g.setRole i .shared) := by
  have hfits := h.fits i
  rw [hrole] at hfits
  obtain ⟨hpart, hinv⟩ := hfits.allowed
  obtain ⟨d', hq, -⟩ := hfits.requests
  apply h.setLocal_responses
  · refine ⟨⟨hpart, hinv⟩, ⟨v, ?_, fun _ => rfl⟩, ⟨v, hq, fun _ => rfl⟩, hfits.forwards, hfits.dirData⟩
    rfl
  · rw [hrole]
    simp [Shares, Role.Recorded]
  · intro k m
    rw [update_responses]
    by_cases hm : m = i
    · subst hm
      have hhead : g.line.head? ≠ some m := not_head_of_outside hpart
      have hafter : (g.setRole m .shared).responses v k m = [] := by
        simp [Ghost.responses, Ghost.data, Ghost.invAck, Ghost.setRole, hhead]
      rw [hafter]
      split_ifs with hkm
      · rfl
      · have hk : j ≠ k := fun hk => hkm ⟨hk.symm, rfl⟩
        rw [h.responses]
        simp [Ghost.responses, Ghost.data, Ghost.invAck, hrole, hhead, hk]
    · rw [if_neg fun hkm => hm hkm.2, h.responses]
      refine (responses_congr v ?_ (by rfl)).symm
      rw [role_setRole_of_ne g _ hm]
      exact .rfl

/-- **An ack arrives** and others are left. -/
theorem takeAck (hhead : g.line.head? = some i) (hj : j ∈ g.ack) (hcount : (g.role i).Counting)
    (hcollect : g.tok = .collect → 1 < g.inv.card + g.ack.card) {d : DataBlock b}
    (hd : (g.place i).Fresh (g.role i) → d = v) :
    let g' : Ghost N := { g with ack := g.ack.erase j }
    Coherent
      (s.setLocal i
        ⟨record (g.role i).state d (g.acks - 1), s.requests i, s.forwards i, s.dirData i⟩ s.dataToDir
        (update s.responses j (update (s.responses j) i [])))
      line v g' := by
  intro g'
  have hcard : g'.inv.card + g'.ack.card = g.inv.card + g.ack.card - 1 := by
    have hpos := card_pos.mpr ⟨j, hj⟩
    simp only [g', card_erase_of_mem hj]
    omega
  have hacks : g'.acks = g.acks - 1 := h.counts.acks_erase hj
  have hnotMem := h.notMem_inv hhead
  have hself : g'.place i = ⟨.head g.tok (g.acks - 1) (g.next i), none, true⟩ := by
    rw [← hacks]
    exact place_of_head hhead hnotMem
  have hold : g.place i = ⟨.head g.tok g.acks (g.next i), none, true⟩ := place_of_head hhead hnotMem
  have hplace : ∀ m, m ≠ i → g'.place m = g.place m := by
    intro m hm
    refine place_congr rfl rfl Iff.rfl Iff.rfl ?_
    exact fun hm' => absurd (Option.some.inj (hm'.symm.trans hhead)) hm
  have hrole : g'.role = update g.role i (g.role i) := (update_eq_self i g.role).symm
  refine ⟨h.nodup, ?_, ?_, h.down, ?_, h.dataToDir, ?_, ?_⟩
  · refine h.counts.of_le rfl rfl rfl (by omega) fun htok => ?_
    have hmore := hcollect htok
    omega
  · exact h.disjoint.mono_right (erase_subset j g.ack)
  · apply h.fits_setLocal hrole hplace
    have hfits := h.fits i
    rw [hold] at hfits hd
    rw [hself]
    exact hfits.setAcks hcount hd
  · intro k m
    show update s.responses j _ k m = _
    rw [update_responses]
    split_ifs with hkm
    · obtain ⟨rfl, rfl⟩ := hkm
      symm
      exact Ghost.responses_eq_nil hcount.ne_waitS (h.counts.ne_cacheData hj) (notMem_erase k g.ack)
    · rw [h.responses]
      symm
      apply responses_congr v (by rfl)
      by_cases hk : k = j
      · have hm : g.line.head? ≠ some m := by
          intro hm
          exact hkm ⟨hk, Option.some.inj (hm.symm.trans hhead)⟩
        exact iff_of_false (fun hm' => hm hm'.2) fun hm' => hm hm'.2
      · simp [g', hk]
  · refine h.dir.congr rfl rfl rfl (shares_congr hrole hplace ?_)
    rw [hself, hold, shares_of_busy rfl, shares_of_busy rfl]
    simp [Part.next]

/-- When the last response is taken, there is no other one. -/
theorem responses_taken (hne : g.line ≠ []) (hinv : g.inv = ∅) (hhead : g.line.head? = some i)
    (honly : ∀ k, g.tok = .cacheData k ∨ k ∈ g.ack → k = j) :
    update s.responses j (update (s.responses j) i []) = fun _ _ => [] := by
  funext k m
  rw [update_responses]
  split_ifs with hkm
  · rfl
  · have hnot : g.line.head? = some m → ¬ (g.tok = .cacheData k ∨ k ∈ g.ack) := by
      intro hhead' hk
      exact hkm ⟨honly k hk, Option.some.inj (hhead'.symm.trans hhead)⟩
    have hdata : g.data v k m = [] := by
      apply if_neg
      rintro (hrole | ⟨htok, hhead'⟩)
      · exact h.not_waiting hne hinv m k hrole
      · exact hnot hhead' (.inl htok)
    have hack : (g.invAck k m : List (ResponseMsg b)) = [] :=
      if_neg fun hk => hnot hk.2 (.inr hk.1)
    rw [h.responses, Ghost.responses, hdata, hack]
    rfl

/-- Only data from the directory is in that channel of the head. -/
theorem dirData_of_counting (hrole : (g.role i).Counting) (htok : ∀ k, g.tok ≠ .dirData k) :
    s.dirData i = [] := by
  apply (h.fits i).dirData.trans
  rw [dirAcks_eq_none hrole.ne_waitS]
  · rfl
  · intro k acks next hpart
    exact htok k (head_of_part hpart).2.1

theorem good_readData (hread : g.role i = .waitS (.cache j)) :
    Good line v (((s.caches i).handle (.cacheResponse (.Data v) w)).map fun ctx =>
      (s.deliverResponse j i (.Data v) [] ctx, ctx.completion)) := by
  obtain ⟨d, hc, -⟩ := (h.fits i).cache
  rw [hread] at hc
  refine ⟨_, some (.readCallback v), ?_, ?_, _, h.arrive hread⟩
  · rw [show s.caches i = _ from hc]
    show Except.ok (s.deliverResponse j i _ _ _, _) = _
    rw [deliverResponse_eq s j i rfl rfl rfl rfl]
    rfl
  · rintro x hx
    cases hx
    rfl

theorem good_headData (htok : g.tok = .cacheData j) (hhead : g.line.head? = some i) :
    Good line v (((s.caches i).handle (.cacheResponse (.Data v) w)).map fun ctx =>
      (s.deliverResponse j i (.Data v) [] ctx, ctx.completion)) := by
  have hfits := h.fits i
  obtain ⟨d, hc, -⟩ := hfits.cache
  have hcounts := h.counts
  simp only [Counts, htok] at hcounts
  obtain ⟨hne, hinv, hack⟩ := hcounts
  obtain ⟨copy, hrole⟩ : ∃ copy, g.role i = .waitM copy := by
    rcases hfits.allowed.of_head (part_of_head hhead) with
      ⟨copy, hrole, -⟩ | ⟨copy, -, htok'⟩ | ⟨-, htok'⟩
    · exact ⟨copy, hrole⟩
    · rw [htok] at htok'
      cases htok'
    · rw [htok] at htok'
      cases htok'
  have hcount : (g.role i).Counting := .inl ⟨copy, hrole⟩
  obtain ⟨hq, hf⟩ := h.channels_of_head hhead hcount
  have hdirData := h.dirData_of_counting hcount (by simp [htok])
  have hnone := h.responses_taken hne hinv (j := j) hhead (by simp [htok, hack])
  rw [hrole] at hc
  have hcached : g.tok.Cached := by
    rw [htok]
    trivial
  apply h.good_own hhead hcached hinv (by simp [hrole])
  rw [show s.caches i = _ from hc]
  cases copy
  all_goals
    show Except.ok (s.deliverResponse j i _ _ _, _) = _
    rw [deliverResponse_eq s j i rfl rfl rfl rfl, hq, hf, hdirData, hnone]
    rfl

/-- One of several acks. -/
theorem good_someAck (hj : j ∈ g.ack) (hhead : g.line.head? = some i) (hcount : (g.role i).Counting)
    (hacks : g.acks ≠ 1) (hcollect : g.tok = .collect → 1 < g.inv.card + g.ack.card) :
    Good line v (((s.caches i).handle (.cacheResponse .InvAck w)).map fun ctx =>
      (s.deliverResponse j i .InvAck [] ctx, ctx.completion)) := by
  obtain ⟨d, hc, hd⟩ := (h.fits i).cache
  rw [show (g.place i).part = .head g.tok g.acks (g.next i) from part_of_head hhead] at hc
  have hctx := Cache.handle_invAck (d := d) (w := w) hcount hacks
  rw [show record _ d g.acks = s.caches i from hc.symm] at hctx
  refine ⟨_, none, ?_, by simp, _, h.takeAck hhead hj hcount hcollect hd⟩
  rw [hctx]
  show Except.ok (s.deliverResponse j i _ _ _, _) = _
  rw [deliverResponse_eq s j i rfl rfl rfl rfl]

theorem good_lastAck (hj : j ∈ g.ack) (hhead : g.line.head? = some i) {copy : Bool}
    (hrole : g.role i = .collecting copy) (htok : g.tok = .collect)
    (hlast : g.inv.card + g.ack.card = 1) :
    Good line v (((s.caches i).handle (.cacheResponse .InvAck w)).map fun ctx =>
      (s.deliverResponse j i .InvAck [] ctx, ctx.completion)) := by
  obtain ⟨d, hc, hd⟩ := (h.fits i).cache
  rw [hrole] at hc hd
  obtain rfl : d = v := hd trivial
  have hpos := card_pos.mpr ⟨j, hj⟩
  have hinv : g.inv = ∅ := card_eq_zero.mp (by omega)
  have hone : ∀ k ∈ g.ack, k = j := fun k hk =>
    card_le_one.mp (by omega : g.ack.card ≤ 1) k hk j hj
  have hacks : g.acks = 1 := by
    simp only [acks, htok]
    omega
  have hcount : (g.role i).Counting := .inr ⟨copy, hrole⟩
  obtain ⟨hq, hf⟩ := h.channels_of_head hhead hcount
  have hdirData := h.dirData_of_counting hcount (by simp [htok])
  have hcached : g.tok.Cached := by
    rw [htok]
    trivial
  have hnone := h.responses_taken (h.counts.line_ne_nil hcached) hinv hhead (by
    rintro k (hk | hk)
    · rw [htok] at hk
      cases hk
    · exact hone k hk)
  rw [show (g.place i).part = .head g.tok g.acks (g.next i) from part_of_head hhead, hacks] at hc
  apply h.good_own hhead hcached hinv (by simp [hrole])
  rw [show s.caches i = _ from hc]
  cases copy
  all_goals
    show Except.ok (s.deliverResponse j i _ _ _, _) = _
    rw [deliverResponse_eq s j i rfl rfl rfl rfl, hq, hf, hdirData, hnone]
    rfl

theorem good_invAck (hj : j ∈ g.ack) (hhead : g.line.head? = some i) :
    Good line v (((s.caches i).handle (.cacheResponse .InvAck w)).map fun ctx =>
      (s.deliverResponse j i .InvAck [] ctx, ctx.completion)) := by
  have hcounts := h.counts
  rcases (h.fits i).allowed.of_head (part_of_head hhead) with
    ⟨copy, hrole, htok⟩ | ⟨copy, hrole, htok⟩ | ⟨-, htok⟩
  · -- the directory has not yet said how many there are: the count is not positive
    refine h.good_someAck hj hhead (.inl ⟨copy, hrole⟩) ?_ ?_
    · rcases htok with ⟨k, htok | htok⟩ | ⟨-, k, htok⟩
      · simp only [Counts, htok] at hcounts
        simp only [acks, htok]
        omega
      · simp only [Counts, htok] at hcounts
        simp only [acks, htok]
        omega
      · exact absurd htok (h.counts.ne_cacheData hj)
    · rcases htok with ⟨k, htok | htok⟩ | ⟨-, k, htok⟩ <;> simp [htok]
  · by_cases hlast : g.inv.card + g.ack.card = 1
    · exact h.good_lastAck hj hhead hrole htok hlast
    · have hpos := card_pos.mpr ⟨j, hj⟩
      refine h.good_someAck hj hhead (.inr ⟨copy, hrole⟩) ?_ fun _ => ?_
      · simp only [acks, htok]
        omega
      · omega
  · simp only [Counts, htok] at hcounts
    exact absurd hcounts.2.2 (ne_empty_of_mem hj)

/-- **A response of another cache is delivered.** -/
theorem good_response {m : ResponseMsg b} {rest : List (ResponseMsg b)}
    (hm : s.responses j i = m :: rest) :
    Good line v (((s.caches i).handle (.cacheResponse m w)).map fun ctx =>
      (s.deliverResponse j i m rest ctx, ctx.completion)) := by
  have hresp : m :: rest = g.data v j i ++ g.invAck j i := hm.symm.trans (h.responses j i)
  by_cases hread : g.role i = .waitS (.cache j)
  · have hfits := h.fits i
    rw [hread] at hfits
    have hhead : g.line.head? ≠ some i := not_head_of_outside hfits.allowed.1
    have hone : g.data v j i ++ g.invAck j i = [.Data v] := by
      simp [data, invAck, hread, hhead]
    rw [hone] at hresp
    cases hresp
    exact h.good_readData hread
  by_cases hown : g.tok = .cacheData j ∧ g.line.head? = some i
  · have hack : j ∉ g.ack := fun hj => h.counts.ne_cacheData hj hown.1
    have hone : g.data v j i ++ g.invAck j i = [.Data v] := by
      simp [data, invAck, hown, hack]
    rw [hone] at hresp
    cases hresp
    exact h.good_headData hown.1 hown.2
  · have hdata : g.data v j i = [] := if_neg (not_or.mpr ⟨hread, hown⟩)
    rw [hdata, List.nil_append, invAck] at hresp
    split_ifs at hresp with hack
    cases hresp
    exact h.good_invAck hack.1 hack.2

end Coherent

end

end MSI
