/-
# The event queue refines bins of stacks

The representation invariant of `EventQueue` and its preservation by `insert`
and `remove`.  `BinsRep s hd b` says that the pointers of the store `s`,
followed from `hd`, spell out the bins `b`.
-/
import Gem5.Bins
import Gem5.EventQueue
import Gem5.Run

open List Store Option Event
open Bins hiding erase erase_append

/-! ## Keys -/

/-- The ordering key of an event: its tick, then its priority. -/
abbrev EventKey := ℕ ×ₗ ℤ

namespace Event

def key (e : Event) : EventKey := toLex (e.when, e.priority)

variable (l r : Event)

theorem lt_iff : l.lt r = true ↔ l.key < r.key := by
  simp [lt, key, Prod.Lex.lt_iff]

theorem le_iff : l.le r = true ↔ l.key ≤ r.key := by
  simp [le, key, Prod.Lex.le_iff]

theorem eq_iff : l.eq r = true ↔ l.key = r.key := by
  simp [eq, key]

theorem ne_iff : l.ne r = true ↔ l.key ≠ r.key := by
  rw [Ne, ← eq_iff]
  simp [ne, eq]
  tauto

/-- What relinking an event cannot change. -/
def core (e : Event) : Event := { e with nextBin := none, nextInBin := none }

/-- What the bins read of an event. -/
def links (e : Event) : Option EventPtr × Option EventPtr × EventKey :=
  (e.nextBin, e.nextInBin, e.key)

end Event

/-! ## Stores that differ in links only -/

/-- `s'` is `s` with some links changed: same cells, same keys and flags. -/
structure LinksOnly (s s' : Store Event) : Prop where
  size : s'.size = s.size
  core : ∀ p, (s'.read p).map core = (s.read p).map core

variable {e : Event} {p : EventPtr} {s : Store Event}

namespace LinksOnly

variable {s' s'' : Store Event}

theorem refl (s : Store Event) : LinksOnly s s := ⟨rfl, fun _ => rfl⟩

theorem trans (h : LinksOnly s s') (h' : LinksOnly s' s'') : LinksOnly s s'' :=
  ⟨h'.size.trans h.size, fun p => (h'.core p).trans (h.core p)⟩

theorem write {e e' : Event} (h : s.read p = some e) (he : e'.core = e.core) :
    LinksOnly s (s.write p e') :=
  ⟨by simp, map_read_write h he⟩

theorem read (h : LinksOnly s s') (hp : s.read p = some e) :
    ∃ e', s'.read p = some e' ∧ e'.core = e.core :=
  exists_read_of_map (h.core p) hp

theorem read_back (h : LinksOnly s s') {e' : Event} (hp : s'.read p = some e') :
    ∃ e, s.read p = some e ∧ e.core = e'.core :=
  exists_read_of_map (h.core p).symm hp

end LinksOnly

/-! ## The representation invariant -/

/-- The bin `stack` with key `k` starts at `hd` and its top leads to `next`. -/
structure BinRep (s : Store Event) (hd : Option EventPtr) (k : EventKey)
    (stack : List EventPtr) (next : Option EventPtr) : Prop where
  chain : Store.Chain nextInBin s hd stack none
  key : ∀ p ∈ stack, ∃ e, s.read p = some e ∧ e.key = k
  top : ∃ p e, hd = some p ∧ s.read p = some e ∧ e.nextBin = next

/-- The bins `b` start at `hd`. -/
def BinsRep (s : Store Event) : Option EventPtr → Bins EventKey EventPtr → Prop
  | hd, [] => hd = none
  | hd, (k, stack) :: b => ∃ next, BinRep s hd k stack next ∧ BinsRep s next b

namespace BinRep

variable {s' : Store Event} {hd next : Option EventPtr} {k : EventKey} {stack : List EventPtr}

theorem stack_cons (h : BinRep s hd k stack next) :
    ∃ top below, stack = top :: below ∧ hd = some top := by
  obtain ⟨p, -, rfl, -⟩ := h.top
  cases stack with
  | nil => exact absurd h.chain (by simp [Store.Chain])
  | cons q qs =>
    obtain ⟨hq, -⟩ := h.chain
    exact ⟨q, qs, rfl, hq⟩

theorem read_top (h : BinRep s (some p) k stack next) :
    ∃ e, s.read p = some e ∧ e.nextBin = next ∧ e.key = k := by
  obtain ⟨q, e, hq, he, hnext⟩ := h.top
  cases hq
  obtain ⟨top, below, rfl, htop⟩ := h.stack_cons
  cases htop
  obtain ⟨e', he', hk⟩ := h.key p (by simp)
  rw [he] at he'
  cases he'
  exact ⟨e, he, hnext, hk⟩

/-- A bin only depends on the links and keys of its members. -/
theorem congr (h : BinRep s hd k stack next)
    (hlink : ∀ p ∈ stack, (s'.read p).map links = (s.read p).map links) :
    BinRep s' hd k stack next := by
  have hread : ∀ p ∈ stack, ∀ e, s.read p = some e →
      ∃ e', s'.read p = some e' ∧ e'.nextBin = e.nextBin ∧ e'.nextInBin = e.nextInBin ∧
        e'.key = e.key := by
    intro p hp e he
    obtain ⟨e', he', heq⟩ := exists_read_of_map (hlink p hp) he
    simp only [links, Prod.mk.injEq] at heq
    exact ⟨e', he', heq⟩
  refine ⟨?_, ?_, ?_⟩
  · apply h.chain.congr
    intro p hp
    obtain ⟨e, he⟩ := h.chain.read_mem p hp
    obtain ⟨e', he', -, hin, -⟩ := hread p hp e he
    rw [he, he', map_some, map_some, hin]
  · intro p hp
    obtain ⟨e, he, hk⟩ := h.key p hp
    obtain ⟨e', he', -, -, hk'⟩ := hread p hp e he
    exact ⟨e', he', hk'.trans hk⟩
  · obtain ⟨top, below, rfl, rfl⟩ := h.stack_cons
    obtain ⟨e, he, hnext, -⟩ := h.read_top
    obtain ⟨e', he', hb, -, -⟩ := hread top (by simp) e he
    exact ⟨top, e', rfl, he', hb.trans hnext⟩

/-- A bin survives writes elsewhere. -/
theorem frame (h : BinRep s hd k stack next) (hs : ∀ p ∈ stack, s'.read p = s.read p) :
    BinRep s' hd k stack next :=
  h.congr fun p hp => by rw [hs p hp]

/-- Redirecting the top's `nextBin` redirects the bin. -/
theorem relink {top : EventPtr} (h : BinRep s (some top) k stack next) (he : s.read top = some e)
    (next' : Option EventPtr) :
    BinRep (s.write top { e with nextBin := next' }) (some top) k stack next' := by
  have hself := read_write_self (w := { e with nextBin := next' }) he
  refine ⟨h.chain.congr fun p _ => map_read_write he (by rfl) p, ?_, ⟨top, _, rfl, hself, rfl⟩⟩
  intro p hp
  obtain ⟨e', he', hk⟩ := h.key p hp
  have hkey := map_read_write (w := { e with nextBin := next' }) (f := Event.key) he rfl p
  obtain ⟨e'', he'', hk'⟩ := exists_read_of_map hkey he'
  exact ⟨e'', he'', hk'.trans hk⟩

end BinRep

namespace BinsRep

variable {s' : Store Event} {hd : Option EventPtr} {b : Bins EventKey EventPtr}

section

variable (h : BinsRep s hd b)

include h

theorem exists_binRep : ∀ x ∈ b, ∃ hd next, BinRep s hd x.1 x.2 next := by
  induction b generalizing hd with
  | nil => simp
  | cons x b ih =>
    obtain ⟨next, hbin, hrest⟩ := h
    exact forall_mem_cons.mpr ⟨⟨hd, next, hbin⟩, ih hrest⟩

theorem read_mem : ∀ p ∈ b.elems, ∃ e, s.read p = some e := by
  intro p hp
  obtain ⟨x, hx, hp⟩ := mem_elems.mp hp
  obtain ⟨_, _, hbin⟩ := h.exists_binRep x hx
  exact hbin.chain.read_mem p hp

theorem congr (hlink : ∀ p ∈ b.elems, (s'.read p).map links = (s.read p).map links) :
    BinsRep s' hd b := by
  induction b generalizing hd with
  | nil => exact h
  | cons x b ih =>
    obtain ⟨next, hbin, hrest⟩ := h
    exact ⟨next, hbin.congr fun p hp => hlink p (mem_elems_cons.mpr (.inl hp)),
      ih hrest fun p hp => hlink p (mem_elems_cons.mpr (.inr hp))⟩

theorem frame (hs : ∀ p ∈ b.elems, s'.read p = s.read p) : BinsRep s' hd b :=
  h.congr fun p hp => by rw [hs p hp]

/-- A queued event is in the bin with its key. -/
theorem exists_bin (hp : s.read p = some e) (hmem : p ∈ b.elems) :
    ∃ x ∈ b, p ∈ x.2 ∧ x.1 = e.key := by
  obtain ⟨x, hx, hmem⟩ := mem_elems.mp hmem
  obtain ⟨_, _, hbin⟩ := h.exists_binRep x hx
  obtain ⟨e', he', hk⟩ := hbin.key p hmem
  rw [hp] at he'
  cases he'
  exact ⟨x, hx, hmem, hk.symm⟩

/-- Distinct queued events number at most the size of the store. -/
theorem length_le_size (hnd : b.elems.Nodup) : b.elems.length ≤ s.size :=
  Store.length_le_size hnd h.read_mem

/-- There are no more bins than events. -/
theorem length_le_elems : b.length ≤ b.elems.length := by
  induction b generalizing hd with
  | nil => simp
  | cons x b ih =>
    obtain ⟨k, stack⟩ := x
    obtain ⟨next, hbin, hrest⟩ := h
    obtain ⟨top, below, rfl, -⟩ := hbin.stack_cons
    have hle := ih hrest
    simp only [length_cons, elems_cons, length_append]
    omega

end

/-- The bins behind the one of `p` are replaced by the bins `b'` at `r`: by induction on the
bins in front of it. -/
theorem relink {s1 : Store Event} {pre post b' : Bins EventKey EventPtr} {k : EventKey}
    {pe : Event} {below : List EventPtr} {r : Option EventPtr}
    (h : BinsRep s hd (pre ++ (k, p :: below) :: post)) (hpe : s1.read p = some pe)
    (hrep : BinsRep s1 r b') (hp : p ∉ b'.elems)
    (hnd : (Bins.elems (pre ++ (k, p :: below) :: post)).Nodup)
    (hframe : ∀ q ∈ Bins.elems (pre ++ (k, p :: below) :: post), q ∉ post.elems →
      s1.read q = s.read q) :
    BinsRep (s1.write p { pe with nextBin := r }) hd (pre ++ (k, p :: below) :: b') := by
  induction pre generalizing hd with
  | nil =>
    obtain ⟨next, hbin, -⟩ := h
    rw [nil_append, elems_cons, nodup_append] at hnd
    have hold : BinRep s1 hd k (p :: below) next := hbin.frame fun q hq =>
      hframe q (mem_elems_cons.mpr (.inl hq)) fun hq' => hnd.2.2 q hq q hq' rfl
    obtain ⟨_, _, htop, rfl⟩ := hold.stack_cons
    cases htop
    refine ⟨r, hold.relink hpe r, hrep.frame fun q hq => read_write_ne ?_⟩
    rintro rfl
    exact hp hq
  | cons x pre ih =>
    obtain ⟨next, hbin, hrest⟩ := h
    rw [cons_append, elems_cons, nodup_append] at hnd
    refine ⟨next, hbin.frame fun q hq => ?_, ih hrest hnd.2.1
      fun q hq => hframe q (mem_elems_cons.mpr (.inr hq))⟩
    have hne : ∀ q' ∈ Bins.elems (pre ++ (k, p :: below) :: post), q ≠ q' := hnd.2.2 q hq
    rw [read_write_ne (hne p (by simp))]
    exact hframe q (mem_elems_cons.mpr (.inl hq)) fun hq' => hne q (by simp [hq']) rfl

end BinsRep

/-! ## The search -/

/-- `findBin` stops behind the last bin that is below the event: by induction on the bins
still ahead. -/
theorem EventQueue.findBin_spec (rest : Bins EventKey EventPtr) :
    ∀ (prev : EventPtr) (k : EventKey) (below : List EventPtr) (next : Option EventPtr) (n : ℕ),
      BinRep s (some prev) k (prev :: below) next → BinsRep s next rest →
      Bins.WF ((k, prev :: below) :: rest) → k < e.key → rest.length < n →
      ∃ p c pre k' below' post, findBin s e n prev next = some (p, c) ∧
        (k, prev :: below) :: rest = pre ++ (k', p :: below') :: post ∧ BinsRep s c post ∧
        (∀ x ∈ pre, x.1 < e.key) ∧ k' < e.key ∧ ∀ x ∈ post, e.key ≤ x.1 := by
  induction rest with
  | nil =>
    intro prev k below next n _ hrest _ hk hn
    obtain ⟨m, rfl⟩ : ∃ m, n = m + 1 := ⟨n - 1, by omega⟩
    obtain rfl : next = none := hrest
    exact ⟨prev, none, [], k, below, [], rfl, rfl, rfl, by simp, hk, by simp⟩
  | cons x rest ih =>
    obtain ⟨k', stack⟩ := x
    intro prev k below next n _ hrest hwf hk hn
    obtain ⟨m, rfl⟩ : ∃ m, n = m + 1 := ⟨n - 1, by omega⟩
    obtain ⟨next', hbin', hrest'⟩ := id hrest
    obtain ⟨c, below', rfl, rfl⟩ := hbin'.stack_cons
    obtain ⟨ce, hce, hcnext, hck⟩ := hbin'.read_top
    by_cases hlt : k' < e.key
    · -- the search moves on to the next bin
      obtain ⟨p, c', pre, kp, belowp, post, hfind, heq, hpost, hpre, hkp, hle⟩ :=
        ih c k' below' next' m hbin' hrest' hwf.tail hlt (by simpa using hn)
      refine ⟨p, c', (k, prev :: below) :: pre, kp, belowp, post, ?_, by rw [heq]; rfl, hpost, ?_,
        hkp, hle⟩
      · simpa [findBin, hce, lt_iff, hck, hlt, hcnext] using hfind
      · exact forall_mem_cons.mpr ⟨hk, hpre⟩
    · refine ⟨prev, some c, [], k, below, (k', c :: below') :: rest, ?_, rfl, hrest, by simp, hk, ?_⟩
      · simp [findBin, hce, lt_iff, hck, hlt]
      · intro x hx
        rcases mem_cons.mp hx with rfl | hx
        · exact not_lt.mp hlt
        · exact (not_lt.mp hlt).trans (hwf.tail.head_lt x hx).le

/-! ## `insert` refines `push` -/

variable {b : Bins EventKey EventPtr} {q : EventQueue} {s' : Store Event}

namespace Event

variable {event : EventPtr}

/-- `insertBefore` puts the event in front of, or on top of, the bin it is
given, provided no bin there is below the event. -/
theorem insertBefore_spec {curr : Option EventPtr} (hrep : BinsRep s curr b)
    (he : s.read event = some e) (hnot : event ∉ b.elems) (hle : ∀ x ∈ b, e.key ≤ x.1) :
    ∃ e', insertBefore s event curr = some (s.write event e', event) ∧ e'.core = e.core ∧
      BinsRep (s.write event e') (some event) (Bins.push e.key event b) := by
  have hself : ∀ e', (s.write event e').read event = some e' := fun e' =>
    read_write_self he
  have hframe : ∀ e', ∀ p ∈ b.elems, (s.write event e').read p = s.read p := fun e' p hp =>
    read_write_ne (fun h => hnot (h ▸ hp))
  -- a bin that holds the new event alone
  have hnew : ∀ next, BinRep (s.write event { e with nextBin := next, nextInBin := none })
      (some event) e.key [event] next := by
    intro next
    refine ⟨⟨rfl, _, hself _, rfl⟩, ?_, ⟨event, _, rfl, hself _, rfl⟩⟩
    intro p hp
    rw [mem_singleton] at hp
    subst hp
    exact ⟨_, hself _, rfl⟩
  cases b with
  | nil =>
    obtain rfl : curr = none := hrep
    refine ⟨{ e with nextBin := none, nextInBin := none }, ?_, rfl, ?_⟩
    · simp [insertBefore, he]
    · exact ⟨none, hnew none, rfl⟩
  | cons x b =>
    obtain ⟨k, stack⟩ := x
    obtain ⟨next, hbin, hrest⟩ := id hrep
    obtain ⟨c, below, rfl, rfl⟩ := hbin.stack_cons
    obtain ⟨ce, hce, hcnext, hck⟩ := hbin.read_top
    rw [Bins.push]
    by_cases hlt : e.key < k
    · refine ⟨{ e with nextBin := some c, nextInBin := none }, ?_, rfl, ?_⟩
      · simp [insertBefore, he, hce, lt_iff, hck, hlt]
      · rw [if_pos hlt]
        exact ⟨some c, hnew (some c), hrep.frame (hframe _)⟩
    · have heq : e.key = k := le_antisymm (hle (k, c :: below) (by simp)) (not_lt.mp hlt)
      refine ⟨{ e with nextBin := ce.nextBin, nextInBin := some c }, ?_, rfl, ?_⟩
      · simp [insertBefore, he, hce, lt_iff, hck, hlt]
      · rw [if_neg hlt, if_pos heq]
        have hold : BinRep (s.write event { e with nextBin := ce.nextBin, nextInBin := some c })
            (some c) k (c :: below) next :=
          hbin.frame fun p hp => hframe _ p (mem_elems_cons.mpr (.inl hp))
        refine ⟨next, ⟨⟨rfl, _, hself _, hold.chain⟩, ?_, ⟨event, _, rfl, hself _, hcnext⟩⟩,
          hrest.frame fun p hp => hframe _ p (mem_elems_cons.mpr (.inr hp))⟩
        intro p hp
        rcases mem_cons.mp hp with rfl | hp
        · exact ⟨_, hself _, heq⟩
        · exact hold.key p hp

end Event

namespace EventQueue

variable {event : EventPtr}

/-- **`insert` refines `push`.** -/
theorem insert_spec (hrep : BinsRep q.store q.head b) (hwf : b.WF) (hnd : b.elems.Nodup)
    (he : q.store.read event = some e) (hnot : event ∉ b.elems) :
    ∃ q', q.insert event = some q' ∧ q'.curTick = q.curTick ∧
      BinsRep q'.store q'.head (Bins.push e.key event b) ∧ LinksOnly q.store q'.store := by
  have hsize := hrep.length_le_elems.trans (hrep.length_le_size hnd)
  obtain ⟨s, hd, t⟩ := q
  cases b with
  | nil =>
    obtain rfl : hd = none := id hrep
    obtain ⟨e', hins, hcore, hrep'⟩ := insertBefore_spec hrep he hnot (by simp)
    refine ⟨⟨s.write event e', some event, t⟩, ?_, rfl, hrep', LinksOnly.write he hcore⟩
    simp [insert, he, hins]
  | cons x b =>
    obtain ⟨k, stack⟩ := x
    obtain ⟨next, hbin, hrest⟩ := id hrep
    obtain ⟨top, below, rfl, htop⟩ := hbin.stack_cons
    obtain rfl : hd = some top := htop
    obtain ⟨te, hte, htnext, htk⟩ := hbin.read_top
    by_cases hle : e.key ≤ k
    · have hall : ∀ x ∈ (k, top :: below) :: b, e.key ≤ x.1 := by
        intro x hx
        rcases mem_cons.mp hx with rfl | hx
        · exact hle
        · exact hle.trans (hwf.head_lt x hx).le
      obtain ⟨e', hins, hcore, hrep'⟩ := insertBefore_spec hrep he hnot hall
      refine ⟨⟨s.write event e', some event, t⟩, ?_, rfl, hrep', LinksOnly.write he hcore⟩
      simp [insert, he, hte, le_iff, htk, hle, hins]
    · obtain ⟨p, c, pre, k', below', post, hfind, heq, hpost, hpre, hk', hall⟩ :=
        findBin_spec b top k below next (s.size + 1) hbin hrest hwf (not_le.mp hle)
          (by simp at hsize; omega)
      rw [heq] at hrep hnd hnot ⊢
      obtain ⟨e', hins, hcore, hrep'⟩ := insertBefore_spec hpost he
        (fun h => hnot (by simp [h])) hall
      have hp : p ≠ event := fun h => hnot (by simp [h])
      have hlast := notMem_of_nodup hnd
      obtain ⟨pe, hpe⟩ := hrep.read_mem p (by simp)
      rw [← read_write_ne hp] at hpe
      rw [push_append hpre, Bins.push, if_neg (not_lt.mpr hk'.le), if_neg hk'.ne']
      refine ⟨⟨(s.write event e').write p { pe with nextBin := some event }, some top, t⟩, ?_, rfl,
        hrep.relink hpe hrep' ?_ hnd ?_, (LinksOnly.write he hcore).trans (LinksOnly.write hpe rfl)⟩
      · simp [insert, he, hte, le_iff, htk, hle, htnext, hfind, hins, modify_eq hpe]
      · intro h
        rcases mem_elems_push.mp h with h | h
        · exact hp h
        · exact hlast h
      · intro q hq _
        exact read_write_ne fun h => hnot (h ▸ hq)

end EventQueue

/-! ## `remove` refines `erase` -/

namespace Event

variable {event : EventPtr}

/-- What unlinking inside a bin cannot change: everything but `nextInBin`. -/
def upToInBin (e : Event) : Event := { e with nextInBin := none }

/-- The search loop of `removeItem` takes the event out of the stack below
`curr`, by induction on that stack. -/
theorem unlinkInBin_spec (below : List EventPtr) :
    ∀ (curr : EventPtr) (ce : Event) (n : ℕ), s.read curr = some ce →
      Store.Chain nextInBin s ce.nextInBin below none → (curr :: below).Nodup →
      event ∈ below → below.length ≤ n → ∃ s', unlinkInBin s event n curr ce.nextInBin = some s' ∧
        Store.Chain nextInBin s' (some curr) (curr :: below.erase event) none ∧
        (∀ q, q ∉ curr :: below → s'.read q = s.read q) ∧ s'.size = s.size ∧
        ∀ q, (s'.read q).map upToInBin = (s.read q).map upToInBin := by
  induction below with
  | nil =>
    intro curr ce n _ _ _ hmem
    simp at hmem
  | cons x xs ih =>
    intro curr ce n hce hchain hnd hmem hn
    obtain ⟨m, rfl⟩ : ∃ m, n = m + 1 := ⟨n - 1, by simp at hn; omega⟩
    obtain ⟨hx, xe, hxe, hxs⟩ := hchain
    have hcurr : curr ∉ x :: xs := (nodup_cons.mp hnd).1
    by_cases hev : event = x
    · -- found: bypass it
      subst hev
      refine ⟨s.write curr { ce with nextInBin := xe.nextInBin }, ?_, ?_, ?_, by simp,
        map_read_write hce rfl⟩
      · rw [hx]
        simp [unlinkInBin, hxe, modify_eq hce]
      · rw [erase_cons_head]
        refine ⟨rfl, _, read_write_self hce, hxs.congr ?_⟩
        intro p hp
        rw [read_write_ne (fun h => hcurr (by simp [← h, hp]))]
      · intro q hq
        exact read_write_ne (fun h => hq (by simp [h]))
    · have hmem' : event ∈ xs := (mem_cons.mp hmem).resolve_left hev
      obtain ⟨s', hun, hch, hframe, hsize, hup⟩ :=
        ih x xe m hxe hxs (nodup_cons.mp hnd).2 hmem' (by simpa using hn)
      refine ⟨s', ?_, ?_, ?_, hsize, hup⟩
      · rw [hx]
        simp [unlinkInBin, hxe, hev, hun]
      · rw [erase_cons_tail (by simpa using Ne.symm hev)]
        refine ⟨rfl, ce, ?_, ?_⟩
        · rw [hframe curr hcurr, hce]
        · rw [hx]
          exact hch
      · intro q hq
        exact hframe q (fun h => hq (by simp at h ⊢; tauto))

theorem read_of_upToInBin (hup : ∀ q, (s'.read q).map upToInBin = (s.read q).map upToInBin)
    (hp : s.read p = some e) :
    ∃ e', s'.read p = some e' ∧ e'.core = e.core ∧ e'.nextBin = e.nextBin := by
  obtain ⟨e', he', hu⟩ := exists_read_of_map (hup p) hp
  refine ⟨e', he', ?_, ?_⟩
  · show e'.upToInBin.core = e.upToInBin.core
    rw [hu]
  · show e'.upToInBin.nextBin = e.upToInBin.nextBin
    rw [hu]

theorem linksOnly_of_upToInBin (hsize : s'.size = s.size)
    (hup : ∀ q, (s'.read q).map upToInBin = (s.read q).map upToInBin) : LinksOnly s s' := by
  refine ⟨hsize, ?_⟩
  intro p
  have h := congrArg (Option.map core) (hup p)
  rw [Option.map_map, Option.map_map] at h
  exact h

section

variable {top : EventPtr} {k : EventKey} {stack below : List EventPtr} {next : Option EventPtr}

section

variable (hbin : BinRep s (some top) k (top :: below) next)

include hbin

theorem chain_below {te : Event} (hte : s.read top = some te) :
    Store.Chain nextInBin s te.nextInBin below none := by
  obtain ⟨-, te', hte', hch⟩ := hbin.chain
  obtain rfl := mem_unique hte hte'
  exact hch

/-- The top of a bin: the event below it takes over the link to the next bin. -/
theorem removeItem_top : ∃ s' r, removeItem s top top = some (s', r) ∧ (below = [] → r = next) ∧
      (below ≠ [] → BinRep s' r k below next) ∧
      (∀ q, q ∉ top :: below → s'.read q = s.read q) ∧ LinksOnly s s' := by
  obtain ⟨te, hte, htnext, -⟩ := hbin.read_top
  have hchain := chain_below hbin hte
  cases below with
  | nil =>
    have hin : te.nextInBin = none := hchain
    refine ⟨s, next, ?_, fun _ => rfl, fun h => absurd rfl h, fun _ _ => rfl, LinksOnly.refl s⟩
    simp [removeItem, hte, hin, htnext]
  | cons x xs =>
    obtain ⟨hin, xe, hxe, hxs⟩ := id hchain
    have hold : BinRep s (some x) k (x :: xs) xe.nextBin :=
      ⟨⟨rfl, xe, hxe, hxs⟩, fun p hp => hbin.key p (mem_cons_of_mem _ hp),
        ⟨x, xe, rfl, hxe, rfl⟩⟩
    refine ⟨s.write x { xe with nextBin := next }, some x, ?_, fun h => absurd h (by simp),
      fun _ => hold.relink hxe next, ?_, LinksOnly.write hxe rfl⟩
    · simp [removeItem, hte, hin, modify_eq hxe, htnext]
    · intro q hq
      exact read_write_ne (fun h => hq (by simp [h]))

/-- An event further down: the top stays. -/
theorem removeItem_below (hnd : (top :: below).Nodup) (hev : event ≠ top) (hmem : event ∈ below) :
    ∃ s', removeItem s event top = some (s', some top) ∧
      BinRep s' (some top) k (top :: below.erase event) next ∧
      (∀ q, q ∉ top :: below → s'.read q = s.read q) ∧ LinksOnly s s' := by
  obtain ⟨te, hte, htnext, -⟩ := hbin.read_top
  have hsize : below.length ≤ s.size :=
    Store.length_le_size (nodup_cons.mp hnd).2
      (fun p hp => hbin.chain.read_mem p (mem_cons_of_mem _ hp))
  obtain ⟨s', hun, hch, hframe, hsz, hup⟩ :=
    unlinkInBin_spec below top te s.size hte (chain_below hbin hte) hnd hmem hsize
  refine ⟨s', ?_, ⟨hch, ?_, ?_⟩, hframe, linksOnly_of_upToInBin hsz hup⟩
  · simp [removeItem, hte, hev, hun]
  · intro p hp
    have hp' : p ∈ top :: below := by
      rcases mem_cons.mp hp with rfl | hp
      · simp
      · exact mem_cons_of_mem _ (mem_of_mem_erase hp)
    obtain ⟨e, he, hk⟩ := hbin.key p hp'
    obtain ⟨e', he', hcore, -⟩ := read_of_upToInBin hup he
    exact ⟨e', he', (congrArg key hcore).trans hk⟩
  · obtain ⟨te', hte', -, hnb⟩ := read_of_upToInBin hup hte
    exact ⟨top, te', rfl, hte', hnb.trans htnext⟩

end

/-- `removeItem` takes the event out of its bin; an emptied bin is replaced by
what followed it. -/
theorem removeItem_spec (hbin : BinRep s (some top) k stack next) (hnd : stack.Nodup)
    (hmem : event ∈ stack) : ∃ s' r, removeItem s event top = some (s', r) ∧
      (stack.erase event = [] → r = next) ∧
      (stack.erase event ≠ [] → BinRep s' r k (stack.erase event) next) ∧
      (∀ q, q ∉ stack → s'.read q = s.read q) ∧ LinksOnly s s' := by
  obtain ⟨t, below, rfl, ht⟩ := hbin.stack_cons
  cases ht
  by_cases hev : event = top
  · subst hev
    rw [erase_cons_head]
    exact removeItem_top hbin
  · have hmem' : event ∈ below := (mem_cons.mp hmem).resolve_left hev
    obtain ⟨s', hrem, hbin', hframe, hlinks⟩ := removeItem_below hbin hnd hev hmem'
    rw [erase_cons_tail (by simpa using Ne.symm hev)]
    exact ⟨s', some top, hrem, fun h => absurd h (by simp), fun _ => hbin', hframe, hlinks⟩

end

end Event

namespace EventQueue

variable {event : EventPtr}

/-- `removeItem` on the bin at the head of the bins erases the event there. -/
theorem removeItem_rep {top : EventPtr} {k : EventKey} {stack : List EventPtr}
    {next : Option EventPtr} (hbin : BinRep s (some top) k stack next) (hrest : BinsRep s next b)
    (hnd : (Bins.elems ((k, stack) :: b)).Nodup) (hmem : event ∈ stack) :
    ∃ s' r, removeItem s event top = some (s', r) ∧
      BinsRep s' r (Bins.erase k event ((k, stack) :: b)) ∧
      (∀ q, q ∉ stack → s'.read q = s.read q) ∧ LinksOnly s s' := by
  rw [elems_cons, nodup_append] at hnd
  obtain ⟨s', r, hrem, hnil, hcons, hframe, hlinks⟩ := removeItem_spec hbin hnd.1 hmem
  have hrest' : BinsRep s' next b := hrest.frame fun p hp => hframe p fun h => hnd.2.2 p h p hp rfl
  refine ⟨s', r, hrem, ?_, hframe, hlinks⟩
  rw [Bins.erase, if_pos rfl]
  by_cases h : stack.erase event = []
  · rw [if_pos h, hnil h]
    exact hrest'
  · rw [if_neg h]
    exact ⟨next, hcons h, hrest'⟩

/-- **`remove` refines `erase`**, and never panics on a queued event. -/
theorem remove_spec (hrep : BinsRep q.store q.head b) (hwf : b.WF) (hnd : b.elems.Nodup)
    (he : q.store.read event = some e) (hmem : event ∈ b.elems) :
    ∃ q', q.remove event = some q' ∧ q'.curTick = q.curTick ∧
      BinsRep q'.store q'.head (Bins.erase e.key event b) ∧ LinksOnly q.store q'.store := by
  have hsize := hrep.length_le_elems.trans (hrep.length_le_size hnd)
  obtain ⟨s, hd, t⟩ := q
  cases b with
  | nil => simp at hmem
  | cons x b =>
    obtain ⟨k, stack⟩ := x
    obtain ⟨next, hbin, hrest⟩ := id hrep
    obtain ⟨top, below, rfl, htop⟩ := hbin.stack_cons
    obtain rfl : hd = some top := htop
    obtain ⟨te, hte, htnext, htk⟩ := hbin.read_top
    obtain ⟨x, hx, hxmem, hxk⟩ := hrep.exists_bin he hmem
    by_cases hkey : te.key = e.key
    · -- the head's bin
      have hmem' : event ∈ top :: below := by
        rcases mem_cons.mp hx with rfl | hx
        · exact hxmem
        · have hlt : k < x.1 := hwf.head_lt x hx
          rw [hxk, ← hkey, htk] at hlt
          exact absurd hlt (lt_irrefl k)
      obtain ⟨s', r, hrem, hrep', -, hlinks⟩ := removeItem_rep hbin hrest hnd hmem'
      refine ⟨⟨s', r, t⟩, ?_, rfl, ?_, hlinks⟩
      · simp [remove, he, hte, eq_iff, hkey, hrem]
      · rw [← hkey, htk]
        exact hrep'
    · have hmem' : event ∈ Bins.elems b := by
        rcases mem_cons.mp hx with rfl | hx
        · exact absurd (htk.trans hxk) hkey
        · exact mem_elems.mpr ⟨x, hx, hxmem⟩
      have hk : k < e.key := by
        obtain ⟨x, hx, -, hxk⟩ := hrest.exists_bin he hmem'
        rw [← hxk]
        exact hwf.head_lt x hx
      obtain ⟨p, c, pre, k', below', post, hfind, heq, hpost, hpre, hk', hall⟩ :=
        findBin_spec b top k below next (s.size + 1) hbin hrest hwf hk (by simp at hsize; omega)
      rw [heq] at hrep hnd hx hwf ⊢
      -- the event is in the first bin that is not below it
      have hxpost : x ∈ post := by
        rcases mem_append.mp hx with hx | hx
        · exact absurd hxk (hpre x hx).ne
        · rcases mem_cons.mp hx with rfl | hx
          · exact absurd hxk hk'.ne
          · exact hx
      obtain ⟨y, post, rfl⟩ := exists_cons_of_ne_nil (ne_nil_of_mem hxpost)
      obtain rfl : x = y := by
        rcases mem_cons.mp hxpost with rfl | hx
        · rfl
        · have hsorted := (pairwise_append.mp hwf.sorted).2.1.of_cons
          have hlt := (pairwise_cons.mp hsorted).1 x hx
          rw [hxk] at hlt
          exact absurd hlt (hall y (by simp)).not_gt
      obtain ⟨ky, stack⟩ := x
      obtain rfl : ky = e.key := hxk
      obtain ⟨next', hbin', hrest'⟩ := hpost
      obtain ⟨c', below'', rfl, rfl⟩ := hbin'.stack_cons
      obtain ⟨ce, hce, -, hck⟩ := hbin'.read_top
      have hlast := notMem_of_nodup hnd
      have hnd' : (Bins.elems ((e.key, c' :: below'') :: post)).Nodup := by
        rw [elems_append] at hnd
        exact hnd.of_append_right.of_append_right
      obtain ⟨s1, r, hrem, hrep', hframe, hlinks⟩ := removeItem_rep hbin' hrest' hnd' hxmem
      obtain ⟨pe, hpe⟩ := hrep.read_mem p (by simp)
      rw [← hframe p fun h => hlast (mem_elems_cons.mpr (.inl h))] at hpe
      rw [Bins.erase_append hpre, Bins.erase, if_neg hk'.ne']
      refine ⟨⟨s1.write p { pe with nextBin := r }, some top, t⟩, ?_, rfl,
        hrep.relink hpe hrep' ?_ hnd ?_, hlinks.trans (LinksOnly.write hpe rfl)⟩
      · simp [remove, he, hte, eq_iff, hkey, htnext, hfind, hce, ne_iff, hck, hrem,
          modify_eq hpe]
      · exact fun h => hlast (mem_of_mem_elems_erase h)
      · exact fun q _ hq => hframe q fun h => hq (mem_elems_cons.mpr (.inl h))

end EventQueue

/-! ## The queue invariant -/

/-- The key of the event at `p`. -/
def keyOf (s : Store Event) (p : EventPtr) : EventKey :=
  ((s.read p).map key).getD (toLex (0, 0))

theorem keyOf_of_read (h : s.read p = some e) : keyOf s p = e.key := by
  rw [keyOf, h]
  rfl

theorem LinksOnly.keyOf_eq (h : LinksOnly s s') : keyOf s' = keyOf s := by
  funext p
  have hkey := congrArg (Option.map key) (h.core p)
  rw [Option.map_map, Option.map_map] at hkey
  exact congrArg (Option.getD · _) hkey

/-- The queue holds the events `ref`, most recently inserted first. -/
structure Queued (q : EventQueue) (ref : List EventPtr) : Prop where
  nodup : ref.Nodup
  rep : ∃ b, BinsRep q.store q.head b ∧ Tracks (keyOf q.store) b ref

namespace Queued

variable {ref : List EventPtr} {event : EventPtr}

theorem empty (h : q.head = none) : Queued q [] :=
  ⟨nodup_nil, [], h, Tracks.nil⟩

theorem read (h : Queued q ref) (hmem : event ∈ ref) : ∃ e, q.store.read event = some e := by
  obtain ⟨b, hrep, htr⟩ := h.rep
  exact hrep.read_mem event (htr.mem_elems.mpr hmem)

theorem insert (h : Queued q ref) (he : q.store.read event = some e) (hnot : event ∉ ref) :
    ∃ q', q.insert event = some q' ∧ q'.curTick = q.curTick ∧ Queued q' (event :: ref) ∧
      LinksOnly q.store q'.store := by
  obtain ⟨b, hrep, htr⟩ := h.rep
  obtain ⟨q', hq', htick, hrep', hlinks⟩ := EventQueue.insert_spec hrep htr.wf
    (htr.elems_nodup h.nodup) he (fun hm => hnot (htr.mem_elems.mp hm))
  refine ⟨q', hq', htick, ⟨nodup_cons.mpr ⟨hnot, h.nodup⟩, _, hrep', ?_⟩, hlinks⟩
  rw [hlinks.keyOf_eq, ← keyOf_of_read he]
  exact htr.push event

theorem remove (h : Queued q ref) (hmem : event ∈ ref) :
    ∃ q', q.remove event = some q' ∧ q'.curTick = q.curTick ∧ Queued q' (ref.erase event) ∧
      LinksOnly q.store q'.store := by
  obtain ⟨b, hrep, htr⟩ := h.rep
  obtain ⟨e, he⟩ := h.read hmem
  obtain ⟨q', hq', htick, hrep', hlinks⟩ := EventQueue.remove_spec hrep htr.wf
    (htr.elems_nodup h.nodup) he (htr.mem_elems.mpr hmem)
  refine ⟨q', hq', htick, ⟨h.nodup.erase event, _, hrep', ?_⟩, hlinks⟩
  rw [hlinks.keyOf_eq, ← keyOf_of_read he]
  exact htr.erase h.nodup event

/-- Writes that keep the links and keys of the queued events keep the queue. -/
theorem congr {q' : EventQueue} (h : Queued q ref) (hhd : q'.head = q.head)
    (hlink : ∀ p ∈ ref, (q'.store.read p).map links = (q.store.read p).map links) :
    Queued q' ref := by
  obtain ⟨b, hrep, htr⟩ := h.rep
  refine ⟨h.nodup, b, ?_, htr.congr_key ?_⟩
  · rw [hhd]
    exact hrep.congr fun p hp => hlink p (htr.mem_elems.mp hp)
  · intro p hp
    obtain ⟨e, he⟩ := h.read hp
    obtain ⟨e', he', heq⟩ := exists_read_of_map (hlink p hp) he
    simp only [links, Prod.mk.injEq] at heq
    rw [keyOf_of_read he', keyOf_of_read he, heq.2.2]

end Queued

/-! ## Walking the queue -/

theorem BinsRep.walkBins_eq {hd : Option EventPtr} (h : BinsRep s hd b) (hnd : b.elems.Nodup)
    {n : ℕ} (hn : b.length ≤ n) : EventQueue.walkBins s n hd = some (b.map Prod.snd) := by
  induction b generalizing hd n with
  | nil =>
    obtain rfl : hd = none := h
    cases n <;> rfl
  | cons x b ih =>
    obtain ⟨k, stack⟩ := x
    obtain ⟨m, rfl⟩ : ∃ m, n = m + 1 := ⟨n - 1, by simp at hn; omega⟩
    obtain ⟨next, hbin, hrest⟩ := h
    obtain ⟨top, below, rfl, rfl⟩ := hbin.stack_cons
    obtain ⟨te, hte, htnext, -⟩ := hbin.read_top
    rw [elems_cons, nodup_append] at hnd
    have hlen : (top :: below).length ≤ s.size := Store.length_le_size hnd.1 hbin.chain.read_mem
    have hstack := hbin.chain.walk_eq hlen
    have hbins := ih hrest hnd.2.1 (by simpa using hn)
    simp only [EventQueue.walkBins, hte, bind_eq_bind, bind_some, hstack, htnext, hbins]
    rfl

theorem Queued.walk {ref : List EventPtr} (h : Queued q ref) :
    ∃ b, q.walk = some (b.map Prod.snd) ∧ Tracks (keyOf q.store) b ref := by
  obtain ⟨b, hrep, htr⟩ := h.rep
  have hnd := htr.elems_nodup h.nodup
  exact ⟨b, hrep.walkBins_eq hnd (hrep.length_le_elems.trans (hrep.length_le_size hnd)), htr⟩

/-! ## Sequences of insertions and removals -/

/-- A call on the queue, or a new time and priority for an event that is not
queued. -/
inductive QueueOp where
  | insert (event : EventPtr)
  | remove (event : EventPtr)
  | assign (event : EventPtr) (when : Tick) (priority : Priority)
  deriving DecidableEq, Repr

namespace QueueOp

def exec (q : EventQueue) : QueueOp → Option EventQueue
  | insert event => q.insert event
  | remove event => q.remove event
  | assign event when priority =>
    q.update event fun e => { e with when := when, priority := priority }

def execAll (q : EventQueue) (ops : List QueueOp) : Option EventQueue :=
  runSteps exec q ops

/-- The events inserted and not removed, most recently inserted first. -/
def held (ref : List EventPtr) : QueueOp → List EventPtr
  | insert event => event :: ref
  | remove event => ref.erase event
  | assign _ _ _ => ref

/-- Callers remove queued events only, insert events that are not queued, and
leave the time and priority of queued events alone. -/
def Allowed (s : Store Event) (ref : List EventPtr) : QueueOp → Prop
  | insert event => event ∉ ref ∧ ∃ e, s.read event = some e
  | remove event => event ∈ ref
  | assign event _ _ => event ∉ ref ∧ ∃ e, s.read event = some e

def AllAllowed (s : Store Event) (ref : List EventPtr) : List QueueOp → Prop
  | [] => True
  | op :: ops => op.Allowed s ref ∧ AllAllowed s (op.held ref) ops

/-- One allowed call succeeds and keeps the invariant. -/
theorem exec_spec {ref : List EventPtr} {op : QueueOp} (h : Queued q ref)
    (hs : ∀ p, (∃ e, s.read p = some e) → ∃ e, q.store.read p = some e) (hop : op.Allowed s ref) :
    ∃ q', exec q op = some q' ∧ Queued q' (op.held ref) ∧
      ∀ p, (∃ e, s.read p = some e) → ∃ e, q'.store.read p = some e := by
  have hkeep : ∀ q' : EventQueue, LinksOnly q.store q'.store →
      ∀ p, (∃ e, s.read p = some e) → ∃ e, q'.store.read p = some e := by
    intro q' hlinks p hp
    obtain ⟨e, he⟩ := hs p hp
    obtain ⟨e', he', -⟩ := hlinks.read he
    exact ⟨e', he'⟩
  cases op with
  | insert event =>
    obtain ⟨e, he⟩ := hs event hop.2
    obtain ⟨q', hq', -, hqd, hlinks⟩ := h.insert he hop.1
    exact ⟨q', hq', hqd, hkeep q' hlinks⟩
  | remove event =>
    obtain ⟨q', hq', -, hqd, hlinks⟩ := h.remove hop
    exact ⟨q', hq', hqd, hkeep q' hlinks⟩
  | assign event when priority =>
    obtain ⟨e, he⟩ := hs event hop.2
    refine ⟨{ q with store := q.store.write event { e with when := when, priority := priority } },
      ?_, h.congr rfl ?_, ?_⟩
    · simp [exec, EventQueue.update, modify_eq he]
    · intro p hp
      rw [read_write_ne (fun heq : p = event => hop.1 (heq ▸ hp))]
    · intro p hp
      by_cases hpe : p = event
      · subst hpe
        exact ⟨_, read_write_self he⟩
      · obtain ⟨e', he'⟩ := hs p hp
        exact ⟨e', by rw [← he']; exact read_write_ne hpe⟩

/-- A whole sequence of allowed calls succeeds and keeps the invariant. -/
theorem execAll_spec (ops : List QueueOp) : ∀ (q : EventQueue) (ref : List EventPtr), Queued q ref →
      (∀ p, (∃ e, s.read p = some e) → ∃ e, q.store.read p = some e) → AllAllowed s ref ops →
      ∃ q', execAll q ops = some q' ∧ Queued q' (ops.foldl held ref) := by
  induction ops with
  | nil =>
    intro q ref h _ _
    exact ⟨q, rfl, h⟩
  | cons op ops ih =>
    intro q ref h hs hops
    obtain ⟨q1, hq1, h1, hs1⟩ := exec_spec h hs hops.1
    obtain ⟨q', hq', h'⟩ := ih q1 (op.held ref) h1 hs1 hops.2
    refine ⟨q', ?_, h'⟩
    rw [execAll, runSteps_cons, hq1]
    exact hq'

end QueueOp

/-- **The queue's representation.**  From an empty queue, every sequence of allowed insertions
and removals succeeds; the walk visits exactly the events in the queue, each once; the keys of
the bins strictly increase; and the events of one bin share their key, the last one first. -/
theorem insert_remove_walk (q₀ : EventQueue) (h₀ : q₀.head = none) (ops : List QueueOp)
    (hops : QueueOp.AllAllowed q₀.store [] ops) :
    ∃ q bins, QueueOp.execAll q₀ ops = some q ∧ q.walk = some bins ∧
      bins.flatten.Perm (ops.foldl QueueOp.held []) ∧ bins.flatten.Nodup ∧
      (∀ bin ∈ bins, bin ≠ []) ∧
      (bins.filterMap List.head?).Pairwise (fun t t' => keyOf q.store t < keyOf q.store t') ∧
      (∀ bin ∈ bins, ∀ p ∈ bin, ∀ p' ∈ bin, keyOf q.store p = keyOf q.store p') ∧
      ∀ bin ∈ bins, bin.Sublist (ops.foldl QueueOp.held []) := by
  obtain ⟨q, hq, hqd⟩ := QueueOp.execAll_spec ops q₀ [] (Queued.empty h₀) (fun _ hp => hp) hops
  obtain ⟨b, hwalk, htr⟩ := hqd.walk
  refine ⟨q, b.map Prod.snd, hq, hwalk, htr.perm hqd.nodup, htr.elems_nodup hqd.nodup,
    ?_, ?_, ?_, ?_⟩
  · intro bin hbin
    obtain ⟨x, hx, rfl⟩ := mem_map.mp hbin
    exact htr.wf.nonempty x hx
  · rw [filterMap_map, pairwise_filterMap]
    apply htr.wf.sorted.imp_of_mem
    intro x y hx hy hlt t ht t' ht'
    rw [htr.key_eq hx (mem_of_mem_head? ht), htr.key_eq hy (mem_of_mem_head? ht')]
    exact hlt
  · intro bin hbin p hp p' hp'
    obtain ⟨x, hx, rfl⟩ := mem_map.mp hbin
    rw [htr.key_eq hx hp, htr.key_eq hx hp']
  · intro bin hbin
    obtain ⟨x, hx, rfl⟩ := mem_map.mp hbin
    rw [htr.eq_filter hx]
    exact filter_sublist

/-- Two events of one bin and an earlier one: the removal of the later bin's
bottom leaves its top in place. -/
theorem insert_remove_walk_three :
    ∃ q bins, QueueOp.execAll
        ⟨⟨[some ⟨none, none, 5, 0, Event.Initialized⟩, some ⟨none, none, 5, 0, Event.Initialized⟩,
          some ⟨none, none, 3, 0, Event.Initialized⟩]⟩, none, 0⟩
        [.insert 0, .insert 1, .insert 2, .remove 0] = some q ∧ q.walk = some bins ∧
      bins.flatten.Perm [2, 1] := by
  obtain ⟨q, bins, hq, hwalk, hperm, -⟩ := insert_remove_walk
    ⟨⟨[some ⟨none, none, 5, 0, Event.Initialized⟩, some ⟨none, none, 5, 0, Event.Initialized⟩,
      some ⟨none, none, 3, 0, Event.Initialized⟩]⟩, none, 0⟩ rfl
    [.insert 0, .insert 1, .insert 2, .remove 0]
    ⟨⟨by simp, _, rfl⟩, ⟨by simp [QueueOp.held], _, rfl⟩, ⟨by simp [QueueOp.held], _, rfl⟩,
      by simp [QueueOp.Allowed, QueueOp.held], trivial⟩
  exact ⟨q, bins, hq, hwalk, hperm⟩
