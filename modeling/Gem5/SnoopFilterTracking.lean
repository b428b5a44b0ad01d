/-
# What the snoop filter keeps track of

No entry is empty between calls; therefore a request that is to be sent again leaves the
entries as they were.  The requested mask of a line changes in two ways only: an accepted
request of a cache sets the bit of its port, a response to the port clears it.
-/
import Gem5.Bitfield
import Gem5.SnoopFilter

open Function Option Finmap
open BitVec hiding or_comm and_comm not_or

namespace SnoopFilter

variable {f : SnoopFilter}

/-! ## Masks -/

variable {p q : ℕ} {x : BitVec 256}

theorem localResponsePortId_lt (hpq : p < q) (hp : f.isSnooping p) :
    f.localResponsePortId p < f.localResponsePortId q := by
  rw [isSnooping, List.getD_eq_getElem?_getD] at hp
  have hlen : p < f.cpuSidePorts.length := by
    by_contra hge
    rw [List.getElem?_eq_none (Nat.le_of_not_lt hge)] at hp
    cases hp
  rw [List.getElem?_eq_getElem hlen, getD_some] at hp
  have hsucc : (f.cpuSidePorts.take (p + 1)).countP id = (f.cpuSidePorts.take p).countP id + 1 := by
    rw [List.take_succ_eq_append_getElem hlen, List.countP_append, List.countP_singleton, hp]
    rfl
  have hle : (f.cpuSidePorts.take (p + 1)).countP id ≤ (f.cpuSidePorts.take q).countP id :=
    (List.take_sublist_take_left hpq).countP_le
  rw [localResponsePortId, localResponsePortId]
  omega

theorem localResponsePortId_lt_size (hp : f.isSnooping p) : f.localResponsePortId p < 256 := by
  have hlt := localResponsePortId_lt (q := max (p + 1) f.cpuSidePorts.length) (by omega) hp
  have htake : f.cpuSidePorts.take (max (p + 1) f.cpuSidePorts.length) = f.cpuSidePorts :=
    List.take_of_length_le (le_max_right _ _)
  have hle := f.ports_le
  rw [localResponsePortId, localResponsePortId, htake] at hlt
  rw [localResponsePortId]
  omega

theorem localResponsePortId_inj (hp : f.isSnooping p) (hq : f.isSnooping q)
    (h : f.localResponsePortId p = f.localResponsePortId q) : p = q := by
  rcases Nat.lt_trichotomy p q with hlt | heq | hlt
  · exact absurd h (localResponsePortId_lt hlt hp).ne
  · exact heq
  · exact absurd h.symm (localResponsePortId_lt hlt hq).ne

/-- Does a mask have the bit of a port? -/
def HasPort (f : SnoopFilter) (mask : BitVec 256) (port : ℕ) : Prop :=
  mask &&& f.portToMask port ≠ 0

theorem and_oneHot_ne_zero {k : ℕ} (hk : k < 256) :
    x &&& (1#256 <<< k) ≠ 0 ↔ x.getLsbD k = true := by
  rw [← twoPow_eq, and_twoPow]
  split_ifs with hbit
  · refine iff_of_true (fun hzero => ?_) hbit
    simpa [hk] using congrArg (getLsbD · k) hzero
  · exact iff_of_false (fun hne => hne rfl) hbit

variable {mask : BitVec 256}

theorem hasPort_iff :
    f.HasPort mask p ↔ f.isSnooping p ∧ mask.getLsbD (f.localResponsePortId p) = true := by
  rw [HasPort, portToMask]
  cases hp : f.isSnooping p with
  | false => simp
  | true =>
    simp only [Bool.not_true, true_and]
    exact and_oneHot_ne_zero (localResponsePortId_lt_size hp)

theorem getLsbD_portToMask (hp : f.isSnooping p) (hq : f.isSnooping q) :
    (f.portToMask p).getLsbD (f.localResponsePortId q) = decide (p = q) := by
  have hlt := localResponsePortId_lt_size hq
  rw [portToMask, hp]
  rcases eq_or_ne p q with rfl | hne
  · simp [hlt]
  · have hids : f.localResponsePortId p ≠ f.localResponsePortId q :=
      fun heq => hne (localResponsePortId_inj hp hq heq)
    simp [hne]
    omega

theorem hasPort_or (hp : f.isSnooping p) :
    f.HasPort (mask ||| f.portToMask p) q ↔ q = p ∨ f.HasPort mask q := by
  rw [hasPort_iff, hasPort_iff]
  by_cases hq : f.isSnooping q
  · simp [hq, getLsbD_portToMask hp hq, @eq_comm ℕ p q, or_comm]
  · have hne : q ≠ p := fun heq => hq (heq ▸ hp)
    simp [hq, hne]

theorem hasPort_and_not (hp : f.isSnooping p) :
    f.HasPort (mask &&& ~~~f.portToMask p) q ↔ q ≠ p ∧ f.HasPort mask q := by
  rw [hasPort_iff, hasPort_iff, getLsbD_and]
  by_cases hq : f.isSnooping q
  · rw [getLsbD_not, getLsbD_portToMask hp hq, decide_eq_true (localResponsePortId_lt_size hq)]
    simp [hq, @eq_comm ℕ p q, and_comm]
  · simp [hq]

/-! ## Lines -/

/-- The lowest bit of a line address tells if the line is secure. -/
theorem lineAddr_inj {a b : BitVec 64} {s t : Bool} (h : f.lineAddr a s = f.lineAddr b t) :
    a &&& ~~~(f.linesize - 1) = b &&& ~~~(f.linesize - 1) ∧ s = t := by
  have hmask : f.linesize - 1 = mask f.lineBits := by
    rw [mask, if_neg (Nat.not_le.mpr f.lineBits_lt)]
    rfl
  have hlow : ∀ c : BitVec 64, (c &&& ~~~(f.linesize - 1)).getLsbD 0 = false := by
    intro c
    rw [getLsbD_and, getLsbD_not, hmask, getLsbD_mask _ _ (by omega),
      decide_eq_true f.lineBits_pos]
    simp
  have hbit : ∀ r : Bool, (if r then 1 else 0 : BitVec 64).getLsbD 0 = r := by
    intro r
    cases r <;> rfl
  have hst : s = t := by
    have h0 := congrArg (fun c : BitVec 64 => c.getLsbD 0) h
    simp only [lineAddr, getLsbD_or] at h0
    rwa [hlow, hlow, hbit, hbit, Bool.false_or] at h0
  subst hst
  refine ⟨eq_of_getLsbD_eq ?_, rfl⟩
  intro i hi
  have hi' := congrArg (fun c : BitVec 64 => c.getLsbD i) h
  simp only [lineAddr, getLsbD_or] at hi'
  rcases Nat.eq_zero_or_pos i with rfl | hpos
  · rw [hlow, hlow]
  · have hhigh : (if s then 1 else 0 : BitVec 64).getLsbD i = false := by
      cases s with
      | false => simp
      | true =>
        have hne : ¬ i = 0 := by omega
        simp [hne]
    rwa [hhigh, Bool.or_false, Bool.or_false] at hi'

/-! ## Entries -/

section

variable (m : SnoopFilterCache)

/-- Every entry has a requestor or a holder. -/
def NoNullEntry : Prop :=
  ∀ line item, m.lookup line = some item → item.requested ||| item.holder ≠ 0

/-- The requested mask of a line, empty if there is no entry. -/
def requestedAt (line : BitVec 64) : BitVec 256 :=
  ((m.lookup line).getD ⟨0, 0⟩).requested

theorem lookup_eraseIfNullEntry_of_ne {line line' : BitVec 64}
    (hne : line' ≠ line) : (eraseIfNullEntry m line).lookup line' = m.lookup line' := by
  rw [eraseIfNullEntry]
  split
  · rfl
  · split_ifs
    · rw [lookup_erase_ne hne]
    · rfl

/-- An entry that was put in is there unless it is null. -/
theorem lookup_eraseIfNullEntry_insert (line : BitVec 64) (item : SnoopItem) :
    (eraseIfNullEntry (m.insert line item) line).lookup line =
      if item.requested ||| item.holder = 0 then none else some item := by
  rw [eraseIfNullEntry, lookup_insert]
  simp only
  split_ifs
  · rw [lookup_erase]
  · rw [lookup_insert]

end

variable {m : SnoopFilterCache}

theorem NoNullEntry.insert (hm : NoNullEntry m) {line : BitVec 64} {item : SnoopItem}
    (hitem : item.requested ||| item.holder ≠ 0) : NoNullEntry (m.insert line item) := by
  intro line' item' hlookup
  rcases eq_or_ne line' line with rfl | hne
  · rw [lookup_insert] at hlookup
    rwa [← some.inj hlookup]
  · rw [lookup_insert_of_ne _ hne] at hlookup
    exact hm line' item' hlookup

theorem NoNullEntry.put (hm : NoNullEntry m) (line : BitVec 64)
    (item : SnoopItem) : NoNullEntry (eraseIfNullEntry (m.insert line item) line) := by
  intro line' item' hlookup
  rcases eq_or_ne line' line with rfl | hne
  · rw [lookup_eraseIfNullEntry_insert] at hlookup
    split_ifs at hlookup with hnull
    rwa [← some.inj hlookup]
  · rw [lookup_eraseIfNullEntry_of_ne _ hne, lookup_insert_of_ne _ hne] at hlookup
    exact hm line' item' hlookup

theorem requestedAt_insert (m : SnoopFilterCache) (line : BitVec 64) (item : SnoopItem) :
    requestedAt (m.insert line item) = update (requestedAt m) line item.requested := by
  funext line'
  rcases eq_or_ne line' line with rfl | hne
  · rw [requestedAt, lookup_insert, update_self, getD_some]
  · rw [requestedAt, lookup_insert_of_ne _ hne, update_of_ne hne, requestedAt]

theorem requestedAt_put (m : SnoopFilterCache) (line : BitVec 64) (item : SnoopItem) :
    requestedAt (eraseIfNullEntry (m.insert line item) line) =
      update (requestedAt m) line item.requested := by
  funext line'
  rcases eq_or_ne line' line with rfl | hne
  · rw [requestedAt, lookup_eraseIfNullEntry_insert, update_self]
    split_ifs with hnull
    · exact (or_eq_zero_iff.mp hnull).1.symm
    · rfl
  · rw [requestedAt, lookup_eraseIfNullEntry_of_ne _ hne, lookup_insert_of_ne _ hne,
      update_of_ne hne, requestedAt]

/-! ## Requests -/

/-- A request that the port waits for until the filter sees the response. -/
def tracked (f : SnoopFilter) (pkt : SnoopPacket) (port : ℕ) : Bool :=
  f.allocates pkt port && pkt.needsResponse && !pkt.cacheResponding

variable {pkt : SnoopPacket}

theorem requested_requestItem {item item' : SnoopItem}
    (h : requestItem pkt mask item = some item') :
    item'.requested =
      if pkt.needsResponse && !pkt.cacheResponding then item.requested ||| mask
      else item.requested := by
  rw [requestItem] at h
  split_ifs at h with hresp hcache <;> cases h <;> simp_all

variable {s s₁ : State} {port : ℕ} {r : List ℕ × ℕ} {c : Call}

/-- What `lookupRequest` leaves for `finishRequest`. -/
theorem lookupRequest_cases (h : f.lookupRequest s pkt port = some (r, s₁)) :
    (f.tracked pkt port = false ∧ s₁ = { s with it := none }) ∨
      ∃ item', s₁ = { cachedLocations := s.cachedLocations.insert (f.lineOf pkt) item'
                      it := some (f.lineOf pkt)
                      retryItem := (s.cachedLocations.lookup (f.lineOf pkt)).getD ⟨0, 0⟩ } ∧
        item'.requested =
          if f.tracked pkt port then
            requestedAt s.cachedLocations (f.lineOf pkt) ||| f.portToMask port
          else requestedAt s.cachedLocations (f.lineOf pkt) := by
  simp only [lookupRequest] at h
  cases halloc : f.allocates pkt port with
  | false =>
    have htracked : f.tracked pkt port = false := by simp [tracked, halloc]
    rw [halloc] at h
    simp only [Bool.false_eq_true, if_false, map_some] at h
    split_ifs at h with hmiss
    · cases h
      exact .inl ⟨htracked, rfl⟩
    · cases h
      refine .inr ⟨_, rfl, ?_⟩
      rw [htracked]
      rfl
  | true =>
    rw [halloc] at h
    simp only [Bool.not_true, Bool.and_false, if_true] at h
    obtain ⟨item', hitem, heq⟩ := map_eq_some_iff.mp h
    cases heq
    refine .inr ⟨item', rfl, ?_⟩
    rw [requested_requestItem hitem, tracked, halloc]
    rfl

/-- **Putting the old value back restores the entries**: one that was there is not null,
and one that was not is removed. -/
theorem NoNullEntry.restore (hm : NoNullEntry m) (line : BitVec 64) (item' : SnoopItem) :
    eraseIfNullEntry ((m.insert line item').insert line ((m.lookup line).getD ⟨0, 0⟩)) line = m := by
  apply ext_lookup
  intro line'
  rcases eq_or_ne line' line with rfl | hne
  · rw [lookup_eraseIfNullEntry_insert]
    cases hlookup : m.lookup line' with
    | none => rfl
    | some item =>
      exact if_neg (hm line' item hlookup)
  · rw [lookup_eraseIfNullEntry_of_ne _ hne, lookup_insert_of_ne _ hne, lookup_insert_of_ne _ hne]

section

variable (hs : NoNullEntry s.cachedLocations)

include hs

theorem NoNullEntry.retry (h : f.lookupRequest s pkt port = some (r, s₁)) :
    ∃ s2, f.finishRequest s₁ true pkt.addr pkt.isSecure = some s2 ∧
      s2.cachedLocations = s.cachedLocations := by
  rcases lookupRequest_cases h with ⟨-, rfl⟩ | ⟨item', rfl, -⟩
  · exact ⟨_, rfl, rfl⟩
  · refine ⟨_, if_neg fun hne => hne rfl, ?_⟩
    exact hs.restore (f.lineOf pkt) item'

theorem NoNullEntry.accept {s2 : State} (h : f.lookupRequest s pkt port = some (r, s₁))
    (hfinish : f.finishRequest s₁ false pkt.addr pkt.isSecure = some s2) :
    NoNullEntry s2.cachedLocations ∧
      requestedAt s2.cachedLocations =
        if f.tracked pkt port then
          update (requestedAt s.cachedLocations) (f.lineOf pkt)
            (requestedAt s.cachedLocations (f.lineOf pkt) ||| f.portToMask port)
        else requestedAt s.cachedLocations := by
  rcases lookupRequest_cases h with ⟨htracked, rfl⟩ | ⟨item', rfl, hitem⟩
  · cases hfinish
    rw [htracked]
    exact ⟨hs, rfl⟩
  · rw [finishRequest] at hfinish
    simp only [Bool.false_eq_true, if_false] at hfinish
    split_ifs at hfinish
    cases hfinish
    refine ⟨hs.put _ _, ?_⟩
    rw [requestedAt_put, hitem]
    split_ifs
    · rfl
    · exact update_eq_self _ _

/-! ## Calls -/

/-- What a call does to the requested masks. -/
def effect (f : SnoopFilter) (requested : BitVec 64 → BitVec 256) : Call → BitVec 64 → BitVec 256
  | .request pkt port willRetry =>
    if f.tracked pkt port && !willRetry then
      update requested (f.lineOf pkt)
        (requested (f.lineOf pkt) ||| f.portToMask port)
    else requested
  | .updateSnoopResponse pkt _ port | .updateResponse pkt port =>
    if pkt.isUncacheable || !f.isSnooping port then requested
    else
      update requested (f.lineOf pkt)
        (requested (f.lineOf pkt) &&& ~~~f.portToMask port)
  | .lookupSnoop _ | .updateSnoopForward _ => requested

variable {s' : State}

theorem NoNullEntry.lookupSnoop (h : f.lookupSnoop s pkt = some (r, s')) :
    NoNullEntry s'.cachedLocations ∧
      requestedAt s'.cachedLocations = requestedAt s.cachedLocations := by
  rw [SnoopFilter.lookupSnoop] at h
  cases hitem : s.cachedLocations.lookup (f.lineOf pkt) with
  | none =>
    simp only [hitem] at h
    split_ifs at h
    cases h
    exact ⟨hs, rfl⟩
  | some item =>
    simp only [hitem] at h
    split_ifs at h with _ _ hclear
    · cases h
      refine ⟨hs.put _ _, ?_⟩
      rw [requestedAt_put, update_eq_self_iff, requestedAt, hitem]
      rfl
    · cases h
      exact ⟨hs, rfl⟩

theorem NoNullEntry.updateSnoopForward (h : f.updateSnoopForward s pkt = some s') :
    NoNullEntry s'.cachedLocations ∧
      requestedAt s'.cachedLocations = requestedAt s.cachedLocations := by
  rw [SnoopFilter.updateSnoopForward] at h
  cases hitem : s.cachedLocations.lookup (f.lineOf pkt) with
  | none =>
    simp only [hitem] at h
    split_ifs at h
    cases h
    exact ⟨hs, rfl⟩
  | some item =>
    simp only [hitem] at h
    split_ifs at h
    · cases h
      refine ⟨hs.put _ _, ?_⟩
      rw [requestedAt_put, update_eq_self_iff, requestedAt, hitem]
      rfl
    · cases h
      exact ⟨hs, rfl⟩

omit hs in
/-- A mask with a bit in it is not empty. -/
theorem or_ne_zero_of_and_ne_zero (h : ¬ x &&& mask = 0) (y z : BitVec 256) :
    y ||| (z ||| mask) ≠ 0 := by
  intro hzero
  apply h
  rw [(or_eq_zero_iff.mp (or_eq_zero_iff.mp hzero).2).2]
  exact and_zero

theorem NoNullEntry.updateSnoopResponse {rspPort reqPort : ℕ}
    (h : f.updateSnoopResponse s pkt rspPort reqPort = some s') :
    NoNullEntry s'.cachedLocations ∧ requestedAt s'.cachedLocations =
      f.effect (requestedAt s.cachedLocations) (.updateSnoopResponse pkt rspPort reqPort) := by
  simp only [SnoopFilter.updateSnoopResponse] at h
  rw [effect]
  split at h
  · cases h
  split at h
  · rename_i hskip
    cases h
    exact ⟨hs, (if_pos hskip).symm⟩
  rename_i hskip
  rw [if_neg hskip]
  split_ifs at h with hholder hrequest
  all_goals
    cases h
    refine ⟨hs.insert (or_ne_zero_of_and_ne_zero hrequest _ _), ?_⟩
    rw [requestedAt_insert]
    rfl

theorem NoNullEntry.updateResponse (h : f.updateResponse s pkt port = some s') :
    NoNullEntry s'.cachedLocations ∧ requestedAt s'.cachedLocations =
      f.effect (requestedAt s.cachedLocations) (.updateResponse pkt port) := by
  simp only [SnoopFilter.updateResponse] at h
  rw [effect]
  split at h
  · cases h
  split at h
  · rename_i hskip
    cases h
    exact ⟨hs, (if_pos hskip).symm⟩
  rename_i hskip
  rw [if_neg hskip]
  cases hitem : s.cachedLocations.lookup (f.lineOf pkt) with
  | none =>
    -- no entry, and no bit to clear
    rw [hitem] at h
    cases h
    refine ⟨hs, ?_⟩
    have hzero : requestedAt s.cachedLocations (f.lineOf pkt) = 0 := by
      rw [requestedAt, hitem]
      rfl
    rw [eq_comm, update_eq_self_iff, hzero]
    exact zero_and
  | some item =>
    have hrequested : requestedAt s.cachedLocations (f.lineOf pkt) = item.requested := by
      rw [requestedAt, hitem]
      rfl
    rw [hrequested]
    simp only [hitem] at h
    split at h
    · cases h
    rename_i hbit
    split at h
    · cases h
      exact ⟨hs.put _ _, requestedAt_put _ _ _⟩
    · cases h
      exact ⟨hs.insert (or_ne_zero_of_and_ne_zero hbit _ _), requestedAt_insert _ _ _⟩

/-- **What a call does**: no null entry is left, and the requested masks change as
`effect` says. -/
theorem NoNullEntry.step (h : f.step s c = some s') : NoNullEntry s'.cachedLocations ∧
      requestedAt s'.cachedLocations = f.effect (requestedAt s.cachedLocations) c := by
  cases c with
  | request pkt port willRetry =>
    obtain ⟨⟨r, s₁⟩, hlookup, hfinish⟩ := bind_eq_some_iff.mp h
    cases willRetry with
    | true =>
      obtain ⟨s2, hfinish', hsame⟩ := hs.retry hlookup
      obtain rfl := some.inj (hfinish'.symm.trans hfinish)
      rw [hsame]
      refine ⟨hs, ?_⟩
      rw [effect, if_neg (by simp)]
    | false =>
      obtain ⟨hnull, heffect⟩ := hs.accept hlookup hfinish
      refine ⟨hnull, ?_⟩
      rw [heffect, effect, Bool.not_false, Bool.and_true]
  | lookupSnoop pkt =>
    obtain ⟨⟨r, s₁⟩, hlookup, rfl⟩ := map_eq_some_iff.mp h
    exact hs.lookupSnoop hlookup
  | updateSnoopResponse pkt rspPort reqPort => exact hs.updateSnoopResponse h
  | updateSnoopForward pkt => exact hs.updateSnoopForward h
  | updateResponse pkt port => exact hs.updateResponse h

/-! ## Requests in flight -/

end

/-- A packet for the line of an address, in the secure or in the other memory space. -/
def SameLine (f : SnoopFilter) (pkt : SnoopPacket) (addr : BitVec 64) (secure : Bool) : Prop :=
  pkt.addr &&& ~~~(f.linesize - 1) = addr &&& ~~~(f.linesize - 1) ∧ pkt.isSecure = secure

variable {addr : BitVec 64} {secure : Bool} {requested : BitVec 64 → BitVec 256}

theorem lineOf_eq_iff : f.lineOf pkt = f.lineAddr addr secure ↔ f.SameLine pkt addr secure := by
  constructor
  · exact lineAddr_inj
  · rintro ⟨haddr, hsecure⟩
    rw [lineOf, lineAddr, lineAddr, haddr, hsecure]

/-- An accepted cacheable request of a cache at the port that needs a response, with no
cache responding yet. -/
def Asks (f : SnoopFilter) (port : ℕ) (addr : BitVec 64) (secure : Bool) : Call → Prop
  | .request pkt p willRetry => p = port ∧ willRetry = false ∧ f.isSnooping p ∧
      pkt.isUncacheable = false ∧ pkt.fromCache ∧ pkt.needsResponse ∧
      pkt.cacheResponding = false ∧ f.SameLine pkt addr secure
  | _ => False

/-- A response to a cacheable request of the port. -/
def Answers (f : SnoopFilter) (port : ℕ) (addr : BitVec 64) (secure : Bool) : Call → Prop
  | .updateSnoopResponse pkt _ p | .updateResponse pkt p =>
    p = port ∧ pkt.isUncacheable = false ∧ f.SameLine pkt addr secure
  | _ => False

theorem tracked_iff :
    f.tracked pkt port ↔ f.isSnooping port ∧ pkt.isUncacheable = false ∧ pkt.fromCache ∧
      pkt.needsResponse ∧ pkt.cacheResponding = false := by
  simp only [tracked, allocates, Bool.and_eq_true, Bool.not_eq_true']
  tauto

/-- The bit of a port after the response to some port. -/
theorem hasPort_answer :
    f.HasPort ((if pkt.isUncacheable || !f.isSnooping p then requested
        else update requested (f.lineOf pkt)
          (requested (f.lineOf pkt) &&& ~~~f.portToMask p)) (f.lineAddr addr secure)) port ↔
      f.HasPort (requested (f.lineAddr addr secure)) port ∧
        ¬ (p = port ∧ pkt.isUncacheable = false ∧ f.SameLine pkt addr secure) := by
  split_ifs with hskip
  · refine (and_iff_left_of_imp ?_).symm
    rintro hport ⟨rfl, hcacheable, -⟩
    rw [hcacheable, (hasPort_iff.mp hport).1] at hskip
    cases hskip
  · rw [Bool.or_eq_true, not_or, Bool.not_eq_true, Bool.not_eq_true', Bool.not_eq_false] at hskip
    by_cases hline : f.lineAddr addr secure = f.lineOf pkt
    · have hsame := lineOf_eq_iff.mp hline.symm
      rw [hline, update_self, hasPort_and_not hskip.2, and_comm]
      refine and_congr_right fun _ => not_congr ?_
      exact ⟨fun heq => ⟨heq.symm, hskip.1, hsame⟩, fun h => h.1.symm⟩
    · rw [update_of_ne hline]
      refine (and_iff_left ?_).symm
      rintro ⟨-, -, hsame⟩
      exact hline (lineOf_eq_iff.mpr hsame).symm

/-- **The bit of a port after a call.** -/
theorem hasPort_effect :
    f.HasPort (f.effect requested c (f.lineAddr addr secure)) port ↔ f.Asks port addr secure c ∨
        f.HasPort (requested (f.lineAddr addr secure)) port ∧ ¬ f.Answers port addr secure c := by
  cases c with
  | request pkt p willRetry =>
    have hanswer : ¬ f.Answers port addr secure (.request pkt p willRetry) := fun h => h
    rw [effect, and_iff_left hanswer]
    by_cases hasks : f.tracked pkt p && !willRetry
    · rw [if_pos hasks]
      rw [Bool.and_eq_true, Bool.not_eq_true', tracked_iff] at hasks
      obtain ⟨⟨hsnoops, hcacheable, hcache, hresp, hnone⟩, haccept⟩ := hasks
      by_cases hline : f.lineAddr addr secure = f.lineOf pkt
      · have hsame := lineOf_eq_iff.mp hline.symm
        rw [hline, update_self, hasPort_or hsnoops]
        refine or_congr_left ⟨?_, fun h => h.1.symm⟩
        rintro rfl
        exact ⟨rfl, haccept, hsnoops, hcacheable, hcache, hresp, hnone, hsame⟩
      · rw [update_of_ne hline]
        refine (or_iff_right ?_).symm
        rintro ⟨-, -, -, -, -, -, -, hsame⟩
        exact hline (lineOf_eq_iff.mpr hsame).symm
    · rw [if_neg hasks]
      refine (or_iff_right ?_).symm
      rintro ⟨-, haccept, hsnoops, hcacheable, hcache, hresp, hnone, -⟩
      apply hasks
      rw [Bool.and_eq_true, tracked_iff, haccept]
      exact ⟨⟨hsnoops, hcacheable, hcache, hresp, hnone⟩, rfl⟩
  | lookupSnoop pkt => simp [effect, Asks, Answers]
  | updateSnoopResponse pkt rspPort p =>
    rw [effect, hasPort_answer]
    simp [Asks, Answers]
  | updateSnoopForward pkt => simp [effect, Asks, Answers]
  | updateResponse pkt p =>
    rw [effect, hasPort_answer]
    simp [Asks, Answers]

/-- A run without a panic leaves no null entry, and the bit of a port is set exactly if an
accepted request of it has had no response since. -/
theorem run_tracks {calls : List Call} (h : runSteps f.step .new calls = some s) :
    NoNullEntry s.cachedLocations ∧ ∀ port addr secure,
      f.HasPort (requestedAt s.cachedLocations (f.lineAddr addr secure)) port ↔
        Since (f.Asks port addr secure) (f.Answers port addr secure) calls := by
  induction calls using List.reverseRecOn generalizing s with
  | nil =>
    cases h
    constructor
    · intro line item hlookup
      cases hlookup
    · intro port addr secure
      refine iff_of_false ?_ (not_since_nil _ _)
      intro hport
      exact hport zero_and
  | append_singleton calls c ih =>
    obtain ⟨t, ht, hstep⟩ := exists_of_runSteps_concat h
    obtain ⟨hnull, hbits⟩ := ih ht
    obtain ⟨hnull', heffect⟩ := hnull.step hstep
    refine ⟨hnull', ?_⟩
    intro port addr secure
    rw [heffect, hasPort_effect, hbits, since_concat]

/-- **The snoop filter's bookkeeping**: after any calls that do not panic no entry is
null; a request that is looked up and will be sent again leaves the entries as they were;
and the requested bit of a port for a line is set exactly if the port had an accepted
request for the line and no response since. -/
theorem bookkeeping {calls : List Call} {s : State} (h : runSteps f.step .new calls = some s) :
    NoNullEntry s.cachedLocations ∧ (∀ pkt port r s₁, f.lookupRequest s pkt port = some (r, s₁) →
        ∃ s₂, f.finishRequest s₁ true pkt.addr pkt.isSecure = some s₂ ∧
          s₂.cachedLocations = s.cachedLocations) ∧ ∀ port addr secure,
        f.HasPort (requestedAt s.cachedLocations (f.lineAddr addr secure)) port ↔
          Since (f.Asks port addr secure) (f.Answers port addr secure) calls := by
  obtain ⟨hnull, hbits⟩ := run_tracks h
  refine ⟨hnull, ?_, hbits⟩
  intro pkt port r s₁ hlookup
  exact hnull.retry hlookup

/-- A read request of a cache for the line at `0x40`. -/
def readShared : SnoopPacket where
  addr := 0x40
  isSecure := false
  isUncacheable := false
  isCacheMaintenance := false
  isRequest := true
  isResponse := false
  fromCache := true
  needsResponse := true
  needsWritable := false
  isInvalidate := false
  isEviction := false
  isWriteback := false
  cacheResponding := false
  hasSharers := false
  isBlockCached := false

/-- Two snooping ports and lines of 64 bytes. -/
def twoPorts : SnoopFilter where
  cpuSidePorts := [true, true]
  lineBits := 6
  lookupLatency := 1
  maxEntryCount := 1024
  ports_le := by decide
  lineBits_pos := by decide
  lineBits_lt := (by decide : 7 ≤ 64)

theorem bookkeeping_readShared :
    ∃ s, runSteps twoPorts.step .new
        [.request readShared 1 true, .request readShared 0 false] = some s ∧
      NoNullEntry s.cachedLocations ∧
      twoPorts.HasPort (requestedAt s.cachedLocations (twoPorts.lineAddr 0x40 false)) 0 := by
  obtain ⟨s, hs⟩ : ∃ s, runSteps twoPorts.step .new
      [.request readShared 1 true, .request readShared 0 false] = some s :=
    ⟨_, rfl⟩
  obtain ⟨hnull, -, hbits⟩ := bookkeeping hs
  refine ⟨s, hs, hnull, (hbits 0 0x40 false).mpr ?_⟩
  exact ⟨[.request readShared 1 true], _, [], rfl,
    ⟨rfl, rfl, rfl, rfl, rfl, rfl, rfl, rfl, rfl⟩, by simp⟩

end SnoopFilter
