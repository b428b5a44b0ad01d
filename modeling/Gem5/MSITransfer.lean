/-
# The data moves on in MSI

The holder of the line hands it over to the next one in line (`handOver`), or shares
it with a reader and the directory, which ends the line (`handDown`).
-/
import Gem5.MSICacheSteps

open Function List

namespace MSI

open Ruby Ghost Place

variable {N : Type} {b : ℕ} {r : Role N} {p : Place N}

/-! ## What the caches do -/

/-- A request of the directory for the data. -/
def ForwardMsg.Wants (m : ForwardMsg N) : Prop := (∃ r, m = .GetS r) ∨ ∃ r, m = .GetM r

/-- The role of a cache that holds the line, after it has given it away. -/
def Role.handedOver : Role N → Role N
  | leaving .dirty put => .leaving .nothing put
  | _ => .idle

/-- The role of a cache that holds the line, after it has shared it. -/
def Role.handedDown : Role N → Role N
  | leaving .dirty put => .leaving .copy put
  | _ => .shared

/-- A cache that holds the line. -/
def Role.Holds (r : Role N) : Prop := r = .owning ∨ ∃ put, r = .leaving .dirty put

/-! ## Places and roles -/

namespace Ghost

variable [DecidableEq N] {g : Ghost N} {i : N} {m : ForwardMsg N}

theorem place_of_outside (hi : i ∉ g.line) (hne : g.line ≠ []) (htok : g.tok ≠ .read i)
    (hdown : g.down ≠ some i) (hinv : i ∉ g.inv) : g.place i = ⟨.outside, none, true⟩ := by
  have hhead : g.line.head? ≠ some i := fun hhead => hi (mem_of_mem_head? hhead)
  simp [place, part, hhead, hi, htok, hdown, hinv, hne]

theorem place_of_nil (hline : g.line = []) (htok : g.tok ≠ .read i) (hdown : g.down = none) :
    g.place i = ⟨.outside, none, false⟩ := by
  simp [place, part, hline, htok, hdown]

/-- What is forwarded to the head: the `GetM` of the next one, or a `GetS` if it is alone. -/
theorem next_head (hnodup : g.line.Nodup) (hhead : g.line.head? = some i)
    (hnext : g.next i = some m) : (∃ k l, g.line = i :: k :: l ∧ m = .GetM k) ∨
      ∃ x, g.line = [i] ∧ g.down = some x ∧ m = .GetS x := by
  cases hline : g.line with
  | nil =>
    rw [hline] at hhead
    cases hhead
  | cons o l =>
    rw [hline] at hhead hnodup
    obtain rfl : o = i := Option.some.inj hhead
    rw [next, hline, behind_head] at hnext
    cases l with
    | cons k l =>
      simp only [head?_cons, Option.some.injEq] at hnext
      exact .inl ⟨k, l, rfl, hnext.symm⟩
    | nil =>
      cases hdown : g.down with
      | none => simp [hdown] at hnext
      | some x =>
        simp only [head?_nil, getLast?_singleton, if_true, hdown, Option.map_some,
          Option.some.injEq] at hnext
        exact .inr ⟨x, rfl, rfl, hnext.symm⟩

theorem next_of_part (h : (g.place i).part.next = some m) : g.next i = some m := by
  change (g.part i).next = some m at h
  unfold part at h
  split_ifs at h
  · exact h
  · exact h
  all_goals cases h

theorem wants_of_next (h : g.next i = some m) : m.Wants := by
  unfold next at h
  split at h
  · exact .inr ⟨_, (Option.some.inj h).symm⟩
  · split_ifs at h
    obtain ⟨x, -, rfl⟩ := Option.map_eq_some_iff.mp h
    exact .inl ⟨x, rfl⟩

end Ghost

/-- One that is in line behind the head waits for it. -/
theorem Place.Allows.waitM_of_queued {next : Option (ForwardMsg N)} (h : p.Allows r)
    (hpart : p.part = .queued next) : ∃ copy, r = .waitM copy ∧ (p.inv ≠ none ↔ copy = true) := by
  unfold Allows at h
  split at h
  all_goals try simp [hpart] at h
  exact ⟨_, rfl, h⟩

theorem Place.Allows.waitS_of_chosen (h : p.Allows r) (hpart : p.part = .chosen) :
    r = .waitS .forwarded := by
  unfold Allows at h
  split at h
  all_goals first | rfl | simp [hpart] at h

theorem Place.Allows.waitS_of_reading (h : p.Allows r) (hpart : p.part = .reading) :
    r = .waitS .memory := by
  unfold Allows at h
  split at h
  all_goals first | rfl | simp [hpart] at h

/-- When the line ends, one that is not to be invalidated stays as it is. -/
theorem Fits.of_busy {v : DataBlock b} {part : Part N} {l : Local N b}
    (h : Fits v ⟨part, none, true⟩ r l) : Fits v ⟨part, none, false⟩ r l := by
  refine ⟨?_, h.cache, h.requests, h.forwards, h.dirData⟩
  have hallowed := h.allowed
  unfold Allows at hallowed ⊢
  split at hallowed
  all_goals first | exact hallowed | exact ⟨hallowed.1, nofun⟩

/-- Outside of a line, only those that are to be invalidated have been sharers. -/
theorem Place.Allows.not_recorded (h : (⟨.outside, none, true⟩ : Place N).Allows r) :
    ¬ r.Recorded := by
  unfold Allows at h
  split at h
  all_goals first | exact id | simp at h

/-- A request for the data is forwarded to those in line, which wait or hold it. -/
theorem Place.Allows.of_next (h : p.Allows r) {m : ForwardMsg N} (hnext : p.part.next = some m) :
    (∃ copy, r = .waitM copy) ∨ (∃ copy, r = .collecting copy) ∨
      r.Holds ∧ p.part = .head .held 0 (some m) := by
  have hheld : (∃ next, p.part = .head .held 0 next) → p.part = .head .held 0 (some m) := by
    rintro ⟨next, hpart⟩
    rw [hpart] at hnext ⊢
    rw [show next = some m from hnext]
  unfold Allows at h
  split at h
  all_goals try first
    | exact .inl ⟨_, rfl⟩
    | exact .inr (.inl ⟨_, rfl⟩)
    | exact .inr (.inr ⟨.inl rfl, hheld h.1⟩)
    | exact .inr (.inr ⟨.inr ⟨_, rfl⟩, hheld h.1⟩)
    | simp [h, Part.next] at hnext
  rcases h.1 with hpart | ⟨m', hpart⟩
  · simp [hpart] at hnext
  · exact .inr (.inr ⟨.inr ⟨_, rfl⟩, hheld ⟨_, hpart⟩⟩)

section

variable {v d : DataBlock b} {l : Local N b} {m : ForwardMsg N} {rest : List (ForwardMsg N)}

theorem Fits.handedOver (h : Fits v ⟨.head .held 0 (some m), none, true⟩ r l) (hr : r.Holds)
    (hf : l.forwards = m :: rest) :
    Fits v ⟨.outside, none, true⟩ r.handedOver
      ⟨record r.handedOver.state d 0, l.requests, rest, l.dirData⟩ := by
  obtain ⟨d', hq, -⟩ := h.requests
  have hrest : rest = r.putAck := (cons.inj (hf.symm.trans h.forwards)).2
  rcases hr with rfl | ⟨put, rfl⟩
  · exact ⟨⟨rfl, rfl⟩, ⟨d, rfl, False.elim⟩, ⟨d', hq, False.elim⟩, hrest, h.dirData⟩
  · refine ⟨⟨rfl, rfl⟩, ⟨d, rfl, False.elim⟩, ⟨d', ?_, False.elim⟩, ?_, h.dirData⟩
    · cases put with
      | none => exact hq
      | some put => cases put <;> exact hq
    · cases put <;> exact hrest

theorem Fits.handedDown (h : Fits v ⟨.head .held 0 (some m), none, true⟩ r l) (hr : r.Holds)
    (hf : l.forwards = m :: rest) :
    Fits v ⟨.outside, none, false⟩ r.handedDown
      ⟨record r.handedDown.state v 0, l.requests, rest, l.dirData⟩ := by
  obtain ⟨d', hq, -⟩ := h.requests
  have hrest : rest = r.putAck := (cons.inj (hf.symm.trans h.forwards)).2
  rcases hr with rfl | ⟨put, rfl⟩
  · exact ⟨⟨rfl, nofun⟩, ⟨v, rfl, fun _ => rfl⟩, ⟨v, hq, fun _ => rfl⟩, hrest, h.dirData⟩
  · cases put with
    | none => exact ⟨rfl, ⟨v, rfl, False.elim⟩, ⟨d', hq, False.elim⟩, hrest, h.dirData⟩
    | some put =>
      cases put with
      | PutS => exact absurd h.allowed id
      | PutM => exact ⟨⟨rfl, nofun⟩, ⟨v, rfl, False.elim⟩, ⟨d', hq, False.elim⟩, hrest, h.dirData⟩

/-- The one behind the head gets the data next. -/
theorem Fits.head_of_queued {next : Option (ForwardMsg N)}
    (h : Fits v ⟨.queued next, none, true⟩ r l) (j : N) :
    Fits v ⟨.head (.cacheData j) 0 next, none, true⟩ r l := by
  obtain ⟨copy, rfl, hcopy⟩ := h.allowed.waitM_of_queued rfl
  obtain rfl : copy = false := by simpa using hcopy
  exact ⟨.inl ⟨0, _, .inr ⟨rfl, j, rfl⟩, rfl⟩, h.cache, h.requests, h.forwards, h.dirData⟩

end

/-! ## The line after a transfer -/

variable {g : Ghost N} {i k x m : N} {l : List N}

namespace Ghost

/-- The head `i` has the data, and `l` is behind it. -/
structure HeldBy (g : Ghost N) (i : N) (l : List N) : Prop where
  line : g.line = i :: l
  tok : g.tok = .held
  inv : g.inv = ∅
  ack : g.ack = ∅
  nodup : g.line.Nodup
  down : ∀ x, g.down = some x → x ∉ g.line

namespace HeldBy

theorem ne_nil (hg : g.HeldBy i l) : g.line ≠ [] := by simp [hg.line]

theorem cached (hg : g.HeldBy i l) : g.tok.Cached := by
  rw [hg.tok]
  trivial

theorem notMem_inv (hg : g.HeldBy i l) (m : N) : m ∉ g.inv := by simp [hg.inv]

theorem notMem_tail (hg : g.HeldBy i (k :: l)) : i ∉ k :: l := by
  have hnodup := hg.nodup
  rw [hg.line] at hnodup
  exact (nodup_cons.mp hnodup).1

theorem ne_second (hg : g.HeldBy i (k :: l)) : k ≠ i := by
  rintro rfl
  exact hg.notMem_tail mem_cons_self

theorem reader_ne (hg : g.HeldBy i []) (hx : g.down = some x) : x ≠ i := by
  rintro rfl
  exact hg.down x hx (by simp [hg.line])

end HeldBy

end Ghost

variable [DecidableEq N]

/-- One response, where there was none. -/
theorem sent_single (i k j m : N) (x : ResponseMsg b) :
    update (fun _ _ => []) i (push (fun _ => []) [(k, x)]) j m
      = if j = i ∧ m = k then [x] else [] := by
  rw [push_singleton]
  by_cases hj : j = i
  · subst hj
    by_cases hm : m = k
    · subst hm
      simp
    · simp [hm]
  · simp [hj]

namespace Ghost

/-- The head has sent the data to the next one, and leaves the line to `l`. -/
def handOver (g : Ghost N) (i : N) (r : Role N) (l : List N) : Ghost N :=
  { g with role := update g.role i r, line := l, tok := .cacheData i }

/-- The head has sent the data to the reader `x` and to the directory. -/
def handDown (g : Ghost N) (i : N) (r : Role N) (x : N) : Ghost N where
  role := update (update g.role i r) x (.waitS (.cache i))
  line := []
  tok := .downgrade i
  inv := ∅
  ack := ∅
  down := none

namespace HeldBy

theorem place_self (hg : g.HeldBy i l) :
    g.place i = ⟨.head .held g.acks (g.next i), none, true⟩ := by
  rw [← hg.tok]
  exact place_of_head (by simp [hg.line]) (hg.notMem_inv i)

section

variable (hg : g.HeldBy i (k :: l))

include hg

/-- The others have the same one behind them. -/
theorem next_handOver (hm : m ≠ i) : (g.handOver i r (k :: l)).next m = g.next m := by
  rw [Ghost.next, Ghost.next, hg.line, behind_tail hm]
  rfl

theorem place_handOver_self : (g.handOver i r (k :: l)).place i = ⟨.outside, none, true⟩ := by
  refine place_of_outside hg.notMem_tail (by simp [handOver]) (by simp [handOver]) ?_
    (hg.notMem_inv i)
  exact fun hdown => hg.down i hdown (by simp [hg.line])

theorem place_second : g.place k = ⟨.queued (g.next k), none, true⟩ := by
  simp [place, part, hg.line, hg.ne_second.symm, hg.notMem_inv k]

theorem place_handOver_second :
    (g.handOver i r (k :: l)).place k = ⟨.head (.cacheData i) 0 (g.next k), none, true⟩ := by
  rw [← hg.next_handOver (r := r) hg.ne_second]
  exact place_of_head rfl (hg.notMem_inv k)

theorem place_handOver_other (hm : m ≠ i) (hmk : m ≠ k) :
    (g.handOver i r (k :: l)).place m = g.place m := by
  have hpart : (g.handOver i r (k :: l)).part m = g.part m := by
    refine part_ext ?_ ?_ ?_ (hg.next_handOver hm) ?_ .rfl
    · simp [handOver, hg.line, hm.symm, hmk.symm]
    · simp [hg.line, hm.symm]
    · simp [handOver, hg.line, hm]
    · simp [handOver, hg.tok]
  have hinv : m ∉ (g.handOver i r (k :: l)).inv := hg.notMem_inv m
  rw [place, place, hpart, if_neg hinv, if_neg (hg.notMem_inv m), hg.line]
  rfl

/-- The directory does not see that the line moves on. -/
theorem shares_handOver (m : N) :
    ((g.handOver i r (k :: l)).place m).Shares ((g.handOver i r (k :: l)).role m) ↔
      (g.place m).Shares (g.role m) := by
  by_cases hm : m = i
  · subst hm
    rw [hg.place_handOver_self, hg.place_self, shares_of_busy rfl, shares_of_busy rfl]
    simp [Part.next, Ghost.next, hg.line]
  rw [show (g.handOver i r (k :: l)).role m = g.role m from update_of_ne hm _ _]
  by_cases hmk : m = k
  · subst hmk
    rw [hg.place_handOver_second, hg.place_second, shares_of_busy rfl, shares_of_busy rfl]
    simp [Part.next]
  · rw [hg.place_handOver_other hm hmk]

end

theorem place_handDown : (g.handDown i r x).place m = ⟨.outside, none, false⟩ :=
  place_of_nil rfl (by simp [handDown]) rfl

theorem role_handDown_reader : (g.handDown i r x).role x = .waitS (.cache i) := update_self _ _ _

section

variable (hg : g.HeldBy i []) (hx : g.down = some x)

include hg hx

theorem role_handDown_self : (g.handDown i r x).role i = r := by
  simp [handDown, (hg.reader_ne hx).symm]

omit hg hx in
theorem role_handDown_other (hmi : m ≠ i) (hmx : m ≠ x) :
    (g.handDown i r x).role m = g.role m := by
  simp [handDown, hmi, hmx]

theorem place_reader : g.place x = ⟨.chosen, none, true⟩ := by
  have hne := (hg.reader_ne hx)
  simp [place, part, hg.line, hne, hne.symm, hg.tok, hx, hg.notMem_inv]

theorem place_other (hmi : m ≠ i) (hmx : m ≠ x) : g.place m = ⟨.outside, none, true⟩ :=
  place_of_outside (by simp [hg.line, hmi]) hg.ne_nil (by simp [hg.tok])
    (by simpa [hx] using hmx.symm) (hg.notMem_inv m)

end

end HeldBy

end Ghost

namespace Coherent

variable {s : System N b} {line : Addr} {v w : DataBlock b} {m : ForwardMsg N}
  {rest : List (ForwardMsg N)}

variable (h : Coherent s line v g)

include h

theorem heldBy (hline : g.line = i :: l) (htok : g.tok = .held) :
    g.HeldBy i l := by
  have hcounts := h.counts
  simp only [Counts, htok] at hcounts
  exact ⟨hline, htok, hcounts.2.1, hcounts.2.2, h.nodup, h.down⟩

/-- The data that the holder sends to `k` is the only response on its way. -/
theorem responses_sent {g' : Ghost N} (hg : g.HeldBy i l) (hack : g'.ack = ∅)
    (hdata : ∀ j m, (g'.role m = .waitS (.cache j) ∨
      g'.tok = .cacheData j ∧ g'.line.head? = some m) ↔ j = i ∧ m = k) (j m : N) :
    update s.responses i (push (s.responses i) [(k, .Data v)]) j m = g'.responses v j m := by
  have hnone : (g'.invAck j m : List (ResponseMsg b)) = [] := if_neg (by simp [hack])
  rw [h.responses_eq_nil hg.ne_nil hg.inv hg.ack (by simp [hg.tok]), sent_single,
    Ghost.responses, hnone, append_nil]
  exact (if_congr (hdata j m) rfl rfl).symm

/-- **The holder hands the line over** to the next one. -/
theorem handOver (hline : g.line = i :: k :: l) (htok : g.tok = .held)
    {loc : Local N b} (hfits : Fits v ⟨.outside, none, true⟩ r loc) (hsource : r.source = none) :
    Coherent
      (s.setLocal i loc s.dataToDir (update s.responses i (push (s.responses i) [(k, .Data v)])))
      line v (g.handOver i r (k :: l)) := by
  have hg := h.heldBy hline htok
  have hrole_i : (g.handOver i r (k :: l)).role i = r := update_self _ _ _
  have hrole : ∀ m, m ≠ i → (g.handOver i r (k :: l)).role m = g.role m := fun m hm =>
    update_of_ne hm _ _
  refine ⟨?_, ⟨by simp [Ghost.handOver], hg.inv, hg.ack⟩, h.disjoint, ?_, ?_, ?_, ?_, ?_⟩
  · have hnodup := hg.nodup
    rw [hline] at hnodup
    exact hnodup.of_cons
  · intro m hm hm'
    apply h.down m hm
    rw [hline]
    exact mem_cons_of_mem i hm'
  · intro m
    by_cases hm : m = i
    · subst hm
      rw [System.localAt_setLocal, hg.place_handOver_self, hrole_i]
      exact hfits
    rw [System.localAt_setLocal_of_ne _ _ _ _ hm, hrole m hm]
    have hfits_m := h.fits m
    by_cases hmk : m = k
    · subst hmk
      rw [hg.place_second] at hfits_m
      rw [hg.place_handOver_second]
      exact hfits_m.head_of_queued i
    · rw [hg.place_handOver_other hm hmk]
      exact hfits_m
  · intro j
    show s.dataToDir j = _
    rw [h.dataToDir j]
    simp [htok, Ghost.handOver]
  · refine h.responses_sent hg hg.ack fun j m => ?_
    constructor
    · rintro (hwaits | ⟨htok', hhead⟩)
      · exfalso
        by_cases hm : m = i
        · subst hm
          rw [hrole_i, ← Role.source_eq_some, hsource] at hwaits
          cases hwaits
        · rw [hrole m hm] at hwaits
          exact h.not_waiting hg.ne_nil hg.inv m j hwaits
      · exact ⟨(Token.cacheData.inj htok').symm, (Option.some.inj hhead).symm⟩
    · rintro ⟨rfl, rfl⟩
      exact .inr ⟨rfl, rfl⟩
  · refine h.dir.of_cached hg.cached trivial rfl ?_ hg.shares_handOver
    rw [hline]
    rfl

/-- The directory, when the holder shares the line: it waits for the data. -/
theorem dirFits_handDown {i x : N} (hg : g.HeldBy i []) (hx : g.down = some x)
    (hrec : r.Recorded ↔ g.role i ≠ .leaving .dirty none) :
    DirFits s.dir s.responseFromMemory s.mem line v (g.handDown i r x) := by
  have hdir := h.dir
  refine ⟨hdir.addr, ?_, ?_, by simp [Ghost.handDown], ?_, hdir.empty, ?_⟩
  · apply hdir.dirState.trans
    rw [dirState_of_cached hg.cached, if_neg (by simp [hx])]
    rfl
  · apply hdir.owner.trans
    rw [owner, if_neg (by simp [hx])]
    rfl
  · intro _ m
    apply (hdir.sharers (not_fetch_of_cached hg.cached) m).trans
    rw [HeldBy.place_handDown, shares_of_not_busy (p := ⟨.outside, none, false⟩) rfl]
    by_cases hmi : m = i
    · subst hmi
      rw [hg.place_self, hg.role_handDown_self hx, hrec, shares_of_busy rfl]
      simp [Part.next, Ghost.next, hg.line, hx]
    by_cases hmx : m = x
    · subst hmx
      rw [hg.place_reader hx, HeldBy.role_handDown_reader, shares_of_busy rfl]
      simp [Role.Recorded]
    · have hallowed := (h.fits m).allowed
      rw [hg.place_other hx hmi hmx] at hallowed
      rw [hg.place_other hx hmi hmx, HeldBy.role_handDown_other hmi hmx, shares_of_busy rfl]
      exact iff_of_false (by simp [Part.next]) hallowed.not_recorded
  · exact (Token.queue_of_cached hg.cached).mp hdir.queue

/-- **The holder shares the line** with the reader and the directory, and the line of
waiting caches ends. -/
theorem handDown (hline : g.line = [i]) (htok : g.tok = .held) (hx : g.down = some x)
    {loc : Local N b} (hfits : Fits v ⟨.outside, none, false⟩ r loc) (hsource : r.source = none)
    (hrec : r.Recorded ↔ g.role i ≠ .leaving .dirty none) :
    Coherent
      (s.setLocal i loc (update s.dataToDir i (s.dataToDir i ++ [v]))
        (update s.responses i (push (s.responses i) [(x, .Data v)])))
      line v (g.handDown i r x) := by
  have hg := h.heldBy hline htok
  refine ⟨nodup_nil, ⟨rfl, rfl, rfl, rfl⟩, Finset.disjoint_empty_left _, ?_, ?_, ?_, ?_,
    h.dirFits_handDown hg hx hrec⟩
  · simp [Ghost.handDown]
  · intro m
    rw [HeldBy.place_handDown]
    by_cases hmi : m = i
    · subst hmi
      rw [System.localAt_setLocal, hg.role_handDown_self hx]
      exact hfits
    rw [System.localAt_setLocal_of_ne _ _ _ _ hmi]
    have hfits_m := h.fits m
    by_cases hmx : m = x
    · subst hmx
      rw [hg.place_reader hx] at hfits_m
      rw [hfits_m.allowed.waitS_of_chosen rfl] at hfits_m
      rw [HeldBy.role_handDown_reader]
      exact ⟨⟨rfl, nofun⟩, hfits_m.cache, hfits_m.requests, hfits_m.forwards, hfits_m.dirData⟩
    · rw [hg.place_other hx hmi hmx] at hfits_m
      rw [HeldBy.role_handDown_other hmi hmx]
      exact hfits_m.of_busy
  · intro j
    show update s.dataToDir i _ j = if Token.downgrade i = .downgrade j then [v] else []
    have hnone : ∀ j, s.dataToDir j = [] := by
      intro j
      rw [h.dataToDir, if_neg (by simp [htok])]
    by_cases hj : j = i
    · subst hj
      rw [update_self, hnone, if_pos rfl]
      rfl
    · rw [update_of_ne hj, hnone, if_neg (by simpa using Ne.symm hj)]
  · refine h.responses_sent hg rfl fun j m => ?_
    constructor
    · rintro (hwaits | ⟨htok', -⟩)
      · by_cases hmx : m = x
        · subst hmx
          rw [HeldBy.role_handDown_reader] at hwaits
          exact ⟨(Source.cache.inj (Role.waitS.inj hwaits)).symm, rfl⟩
        exfalso
        by_cases hmi : m = i
        · subst hmi
          rw [hg.role_handDown_self hx, ← Role.source_eq_some, hsource] at hwaits
          cases hwaits
        · rw [HeldBy.role_handDown_other hmi hmx] at hwaits
          exact h.not_waiting hg.ne_nil hg.inv m j hwaits
      · cases htok'
    · rintro ⟨rfl, rfl⟩
      exact .inl HeldBy.role_handDown_reader

/-- **A request for the data is delivered.** -/
theorem good_wants (hinv : (g.place i).inv = none) (hnext : (g.place i).part.next = some m)
    (hm : s.forwards i = m :: rest) :
    Good line v (((s.caches i).handle (.forward m)).map fun ctx =>
      (s.deliverForward i m rest ctx, ctx.completion)) := by
  have hfits := h.fits i
  obtain ⟨d, hc, hd⟩ := hfits.cache
  replace hc : s.caches i = _ := hc
  have hwants : m.Wants := wants_of_next (next_of_part hnext)
  rcases hfits.allowed.of_next hnext with ⟨copy, hrole⟩ | ⟨copy, hrole⟩ | ⟨hr, hpart⟩
  · apply h.good_forward_stall hm
    rw [hc, hrole]
    rcases hwants with ⟨k, rfl⟩ | ⟨k, rfl⟩ <;> cases copy <;> rfl
  · apply h.good_forward_stall hm
    rw [hc, hrole]
    rcases hwants with ⟨k, rfl⟩ | ⟨k, rfl⟩ <;> cases copy <;> rfl
  obtain ⟨hhead, htok, -, hnext'⟩ := head_of_part hpart
  have hne : g.line ≠ [] := ne_nil_of_mem (mem_of_mem_head? hhead)
  have hplace : g.place i = ⟨.head .held 0 (some m), none, true⟩ := by
    rw [← hpart, ← hinv, ← busy_of_ne hne i]
  have hfresh : d = v := by
    apply hd
    rw [hplace]
    rcases hr with hrole | ⟨put, hrole⟩ <;> rw [hrole]
    · trivial
    · simp [Fresh]
  subst hfresh
  rw [hplace] at hfits
  rcases next_head h.nodup hhead hnext' with ⟨k, l, hline, rfl⟩ | ⟨x, hline, hdown, rfl⟩
  · refine ⟨_, none, ?_, by simp, _, h.handOver hline htok (hfits.handedOver (d := d) hr hm) ?_⟩
    · rw [hc]
      rcases hr with hrole | ⟨put, hrole⟩
      all_goals
        rw [hrole]
        show Except.ok (s.deliverForward i _ _ _, _) = _
        rw [System.deliverForward_eq s i rfl rfl]
        rw [append_nil, update_eq_self]
        rfl
    · rcases hr with hrole | ⟨put, hrole⟩ <;> rw [hrole] <;> rfl
  · refine ⟨_, none, ?_, by simp, _, h.handDown hline htok hdown (hfits.handedDown hr hm) ?_ ?_⟩
    · rw [hc]
      rcases hr with hrole | ⟨put, hrole⟩
      all_goals
        rw [hrole]
        show Except.ok (s.deliverForward i _ _ _, _) = _
        rw [System.deliverForward_eq s i rfl rfl]
        rfl
    · rcases hr with hrole | ⟨put, hrole⟩ <;> rw [hrole] <;> rfl
    · rcases hr with hrole | ⟨put, hrole⟩ <;> rw [hrole]
      · simp [Role.handedDown, Role.Recorded]
      · cases put <;> simp [Role.handedDown, Role.Recorded]

/-- **A forwarded message is delivered.** -/
theorem good_deliver_forward (hm : s.forwards i = m :: rest) :
    Good line v (((s.caches i).handle (.forward m)).map fun ctx =>
      (s.deliverForward i m rest ctx, ctx.completion)) := by
  have hf : m :: rest = (g.place i).forwards (g.role i) := hm.symm.trans (h.fits i).forwards
  unfold forwards at hf
  cases hinv : (g.place i).inv with
  | some k =>
    rw [hinv] at hf
    cases hf
    exact h.good_inv hinv hm
  | none =>
    rw [hinv] at hf
    cases hnext : (g.place i).part.next with
    | some m' =>
      rw [hnext] at hf
      cases hf
      exact h.good_wants hinv hnext hm
    | none =>
      rw [hnext] at hf
      cases hrole : g.role i with
      | leaving has put =>
        rw [hrole] at hf
        cases put with
        | none =>
          cases hf
          exact h.good_putAck hrole hnext hinv
        | some put => cases hf
      | _ =>
        rw [hrole] at hf
        cases hf

end Coherent

end MSI
