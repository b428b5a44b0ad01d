/-
# Store forwarding in the load/store queue of the Minor CPU

`LSQ::tryToSendToTransfers` of `cpu/minor/lsq.cc` for loads, with the search of the store
buffer.  A request that crosses lines is split into fragments that are translated one by
one, so its bytes need not be contiguous in physical memory.  The search compares
intervals: each starts at the first fragment of a request and has the size of the whole
request.
-/
import Gem5.Bitfield

open List

namespace MinorLSQ

abbrev Byte := BitVec 8

/-! ## Requests -/

/-- The part of a request in one line, translated. -/
structure Fragment where
  /-- Where it starts in the request, `fragment_addr - base_addr`. -/
  offset : ℕ
  size : ℕ
  paddr : Addr

/-- What the search looks at in a request. -/
structure LSQRequest where
  threadId : ℕ
  /-- It has a packet; a barrier has none. -/
  packet : Bool
  isCacheMaintenance : Bool
  isLLSC : Bool
  isStrictlyOrdered : Bool
  isSwap : Bool
  isAtomic : Bool
  isRelease : Bool
  /-- One for each byte. -/
  byteEnable : List Bool
  /-- The translated fragments; a request within a line is a fragment itself. -/
  fragments : List Fragment

/-- A slot of the store buffer; `data` is the data of its packet. -/
structure Store extends LSQRequest where
  data : ℕ → Byte

inductive AddrRangeCoverage
  | partialAddrRangeCoverage
  | fullAddrRangeCoverage
  | noAddrRangeCoverage
  deriving DecidableEq

open AddrRangeCoverage

/-- The loop of `makeFragmentRequests`.  Fragments without an enabled byte are left out. -/
def fragmentsFrom (lineWidth : ℕ) (byteEnable : List Bool) (translate : ℕ → Addr) :
    ℕ → ℕ → ℕ → List Fragment
  | 0, _, _ => []
  | n + 1, offset, size =>
    let next := offset + size
    let others := fragmentsFrom lineWidth byteEnable translate n next
      (min lineWidth (byteEnable.length - next))
    if ((byteEnable.drop offset).take size).any id then
      ⟨offset, size, translate offset⟩ :: others
    else others

/-- The fragments of a request that crosses lines, each with its own translation. -/
def makeFragmentRequests (lineWidth : ℕ) (baseAddr : Addr) (byteEnable : List Bool)
    (translate : Addr → Addr) : List Fragment :=
  let wholeSize := byteEnable.length
  let firstFragmentSize := lineWidth - baseAddr.toNat % lineWidth
  let lastFragmentSize := (baseAddr + BitVec.ofNat 64 wholeSize).toNat % lineWidth
  let middleFragmentCount := (wholeSize - (firstFragmentSize + lastFragmentSize)) / lineWidth
  let numFragments := 1 + middleFragmentCount + if lastFragmentSize = 0 then 0 else 1
  fragmentsFrom lineWidth byteEnable (fun offset => translate (baseAddr + BitVec.ofNat 64 offset))
    numFragments 0 firstFragmentSize

namespace LSQRequest

variable (r : LSQRequest)

def size : ℕ := r.byteEnable.length

/-- The address of the whole request is that of its first fragment. -/
def paddr : Addr := (r.fragments.headD ⟨0, 0, 0⟩).paddr

def isMasked : Bool := r.byteEnable.contains false

def bufferable : Bool :=
  !(r.isStrictlyOrdered || r.isLLSC || r.isSwap || r.isAtomic || r.isRelease)

/-- Where byte `i` of the request lies. -/
def phys (i : ℕ) : Option Addr :=
  (r.fragments.find? fun f => f.offset ≤ i ∧ i < f.offset + f.size).map fun f =>
    f.paddr + BitVec.ofNat 64 (i - f.offset)

/-- Byte `i` is enabled and lies at `a`. -/
def Accesses (i : ℕ) (a : Addr) : Prop :=
  r.byteEnable.getD i false = true ∧ r.phys i = some a

instance (r : LSQRequest) (i : ℕ) (a : Addr) : Decidable (r.Accesses i a) :=
  inferInstanceAs (Decidable (_ ∧ _))

/-- The byte that a store leaves at `a`. -/
def writer (a : Addr) : Option ℕ :=
  (List.range r.size).reverse.find? fun i => r.Accesses i a

end LSQRequest

/-! ## The search -/

def containsAddrRangeOf (req1Addr : Addr) (req1Size : ℕ) (req2Addr : Addr) (req2Size : ℕ) :
    AddrRangeCoverage :=
  let req2EndAddr := req2Addr + BitVec.ofNat 64 req2Size
  let req1EndAddr := req1Addr + BitVec.ofNat 64 req1Size
  if req2EndAddr ≤ req1Addr ∨ req1EndAddr ≤ req2Addr then noAddrRangeCoverage
  else if req1Addr ≤ req2Addr ∧ req2EndAddr ≤ req1EndAddr then fullAddrRangeCoverage
  else partialAddrRangeCoverage

/-- `LSQRequest::containsAddrRangeOf`. -/
def LSQRequest.coverage (r other : LSQRequest) : AddrRangeCoverage :=
  let ret := containsAddrRangeOf r.paddr r.size other.paddr other.size
  if ret = fullAddrRangeCoverage ∧ r.isMasked then partialAddrRangeCoverage else ret

/-- The slots that the search for `load` looks at. -/
def LSQRequest.Considered (slot load : LSQRequest) : Prop :=
  slot.packet = true ∧ slot.threadId = load.threadId ∧ slot.isCacheMaintenance = false

instance (slot load : LSQRequest) : Decidable (slot.Considered load) :=
  inferInstanceAs (Decidable (_ ∧ _ ∧ _))

/-- The youngest slot that overlaps `load`, and how. -/
def canForwardDataToLoad (slots : List Store) (load : LSQRequest) :
    Option (Store × AddrRangeCoverage) :=
  (slots.reverse.find? fun slot =>
    slot.Considered load ∧ slot.coverage load ≠ noAddrRangeCoverage).map fun slot =>
      (slot, slot.coverage load)

/-- The bytes that are copied into the packet of the load. -/
def forwardStoreData (load : LSQRequest) (store : Store) (i : ℕ) : Byte :=
  let addrOffset := load.paddr - store.paddr
  store.data (addrOffset.toNat + i)

inductive LSQRequestState
  | InTranslation
  | Translated
  | RequestIssuing
  | Failed
  | Complete
  deriving DecidableEq

/-- What else `tryToSendToTransfers` looks at. -/
structure Context where
  /-- `state == MemoryNeedsRetry`. -/
  needsRetry : Bool
  requestState : LSQRequestState
  /-- The load is the front of `requests`. -/
  isFront : Bool
  unreservedRemainingSpace : ℕ
  instIsRightStream : Bool
  hasPacketsInMemSystem : Bool
  translationFault : Bool
  numStoresInTransfers : ℕ
  instIsHeadInst : Bool
  canSendToMemorySystem : Bool

inductive Outcome
  /-- It is tried again later. -/
  | wait
  /-- It goes on without an access. -/
  | skip
  | forward (data : ℕ → Byte)
  | access

def Context.send (c : Context) : Outcome := if c.canSendToMemorySystem then .access else .wait

/-- The last part of `tryToSendToTransfers`, from the search of the store buffer on. -/
def access (c : Context) (slots : List Store) (load : LSQRequest) : Outcome :=
  if load.isLLSC then c.send
  else
    match canForwardDataToLoad slots load with
    | some (store, fullAddrRangeCoverage) => .forward (forwardStoreData load store)
    | some (_, partialAddrRangeCoverage) => .wait
    | _ => c.send

def tryToSendToTransfers (c : Context) (slots : List Store) (load : LSQRequest) : Outcome :=
  if c.needsRetry ∨ c.requestState = .InTranslation ∨ ¬ c.isFront ∨
      c.unreservedRemainingSpace = 0 then .wait
  else if c.requestState = .Complete ∨ c.requestState = .Failed then .skip
  else if ¬ c.instIsRightStream then if c.hasPacketsInMemSystem then .wait else .skip
  else if c.translationFault then .skip
  else if c.numStoresInTransfers ≠ 0 then .wait
  -- the store buffer is not drained
  else if load.isRelease ∧ slots ≠ [] then .wait
  else if ¬ load.bufferable ∧
      (¬ c.instIsHeadInst ∨ (canForwardDataToLoad slots load).isSome) then .wait
  else access c slots load

/-! ## What a load may see -/

/-- What the youngest store that writes at `a` wrote there. -/
def youngest (slots : List Store) (load : LSQRequest) (a : Addr) : Option Byte :=
  slots.reverse.findSome? fun slot =>
    if slot.Considered load then (slot.writer a).map slot.data else none

/-- **The load sees the youngest store**: it is sent to memory only if no store writes one of
its bytes, and what it is forwarded is on each byte what the youngest store wrote. -/
def Exact (slots : List Store) (load : LSQRequest) : Outcome → Prop
  | .wait | .skip => True
  | .access => ∀ i a, load.Accesses i a → ∀ slot ∈ slots, slot.Considered load → slot.writer a = none
  | .forward data => ∀ i a, load.Accesses i a → youngest slots load a = some (data i)

/-- **The intervals are good enough**: if the search finds no store, none writes a byte of the
load; if it finds one that has all of it, that one has the bytes where they are looked for, and
no younger one writes them. -/
structure Faithful (slots : List LSQRequest) (load : LSQRequest) : Prop where
  missed : load.isRelease = false →
    (∀ slot ∈ slots, slot.Considered load → slot.coverage load = noAddrRangeCoverage) →
    ∀ slot ∈ slots, slot.Considered load → ∀ i a, load.Accesses i a → slot.writer a = none
  found : load.bufferable = true → ∀ older store younger, slots = older ++ store :: younger →
    store.Considered load → store.coverage load = fullAddrRangeCoverage →
    (∀ slot ∈ younger, slot.Considered load → slot.coverage load = noAddrRangeCoverage) →
    ∀ i a, load.Accesses i a → store.writer a = some ((load.paddr - store.paddr).toNat + i) ∧
      ∀ slot ∈ younger, slot.Considered load → slot.writer a = none

section Search

variable {slots : List Store} {load : LSQRequest}

/-- What the search finds. -/
theorem canForwardDataToLoad_cases (slots : List Store) (load : LSQRequest) :
    (canForwardDataToLoad slots load = none ∧
      ∀ slot ∈ slots, slot.Considered load → slot.coverage load = noAddrRangeCoverage) ∨
    ∃ older store younger, slots = older ++ store :: younger ∧ store.Considered load ∧
      canForwardDataToLoad slots load = some (store, store.coverage load) ∧
      store.coverage load ≠ noAddrRangeCoverage ∧
      ∀ slot ∈ younger, slot.Considered load → slot.coverage load = noAddrRangeCoverage := by
  unfold canForwardDataToLoad
  cases hfind : slots.reverse.find? fun slot =>
      slot.Considered load ∧ slot.coverage load ≠ noAddrRangeCoverage with
  | none =>
    refine .inl ⟨rfl, fun slot hslot hconsidered => ?_⟩
    have hnot := find?_eq_none.mp hfind slot (mem_reverse.mpr hslot)
    simpa [hconsidered] using hnot
  | some store =>
    obtain ⟨hstore, younger, older, heq, hyounger⟩ := find?_eq_some_iff_append.mp hfind
    obtain ⟨hconsidered, hcoverage⟩ := of_decide_eq_true hstore
    refine .inr ⟨older.reverse, store, younger.reverse, ?_, hconsidered, rfl, hcoverage, ?_⟩
    · rw [← slots.reverse_reverse, heq]
      simp
    · intro slot hslot hslot'
      simpa [hslot'] using hyounger slot (mem_reverse.mp hslot)

theorem youngest_append (older younger : List Store) (store : Store) (a : Addr) :
    youngest (older ++ store :: younger) load a = (youngest younger load a).or
      ((if store.Considered load then (store.writer a).map store.data else none).or
        (youngest older load a)) := by
  simp only [youngest, reverse_append, reverse_cons, append_assoc, findSome?_append, findSome?_cons]
  cases if store.Considered load then (store.writer a).map store.data else none <;> rfl

theorem youngest_eq_none_iff {a : Addr} : youngest slots load a = none ↔
    ∀ slot ∈ slots, slot.Considered load → slot.writer a = none := by
  simp [youngest]

/-- The intervals are good enough for what the search decides. -/
theorem Faithful.exact_access (h : Faithful (slots.map Store.toLSQRequest) load)
    (hdrained : load.isRelease = false ∨ slots = []) (c : Context)
    (hbufferable : load.bufferable = true ∨ canForwardDataToLoad slots load = none) :
    Exact slots load (access c slots load) := by
  have hsend : canForwardDataToLoad slots load = none → Exact slots load c.send := by
    intro hnone
    unfold Context.send
    split_ifs
    · rcases canForwardDataToLoad_cases slots load with ⟨-, hno⟩ | ⟨_, _, _, -, -, hsome, -⟩
      · intro i a ha slot hslot hconsidered
        have hrelease := hdrained.resolve_right (ne_nil_of_mem hslot)
        exact h.missed hrelease (forall_mem_map.mpr hno) slot.toLSQRequest
          (mem_map_of_mem hslot) hconsidered i a ha
      · rw [hnone] at hsome
        cases hsome
    · trivial
  unfold access
  split_ifs with hllsc
  · exact hsend (hbufferable.resolve_left (by simp [LSQRequest.bufferable, hllsc]))
  · rcases canForwardDataToLoad_cases slots load with
      ⟨hnone, -⟩ | ⟨older, store, younger, rfl, hconsidered, hsome, hcoverage, hno⟩
    · rw [hnone]
      exact hsend hnone
    · rw [hsome]
      cases hstore : store.coverage load with
      | partialAddrRangeCoverage => trivial
      | noAddrRangeCoverage => exact absurd hstore hcoverage
      | fullAddrRangeCoverage =>
        intro i a ha
        have hfull := hbufferable.resolve_right (by simp [hsome])
        obtain ⟨hwriter, hyounger⟩ := h.found hfull _ _ _ map_append hconsidered hstore
          (forall_mem_map.mpr hno) i a ha
        rw [youngest_append, youngest_eq_none_iff.mpr (forall_mem_map.mp hyounger),
          if_pos hconsidered, hwriter]
        rfl

/-- A load that nothing holds up. -/
def Context.ready : Context where
  needsRetry := false
  requestState := .Translated
  isFront := true
  unreservedRemainingSpace := 1
  instIsRightStream := true
  hasPacketsInMemSystem := false
  translationFault := false
  numStoresInTransfers := 0
  instIsHeadInst := true
  canSendToMemorySystem := true

theorem tryToSendToTransfers_ready (hrelease : load.isRelease = false)
    (hbufferable : load.bufferable = true ∨ canForwardDataToLoad slots load = none) :
    tryToSendToTransfers .ready slots load = access .ready slots load := by
  rcases hbufferable with hbufferable | hnone
  · simp [tryToSendToTransfers, Context.ready, hrelease, hbufferable]
  · simp [tryToSendToTransfers, Context.ready, hrelease, hnone]

/-- The store of zeros. -/
def LSQRequest.zeros (r : LSQRequest) : Store := ⟨r, fun _ => 0⟩

theorem youngest_zeros_ne_one (l : List LSQRequest) (a : Addr) :
    youngest (l.map LSQRequest.zeros) load a ≠ some 1 := by
  intro hone
  obtain ⟨slot, hslot, hone⟩ := exists_of_findSome?_eq_some hone
  obtain ⟨r, -, rfl⟩ := mem_map.mp (mem_reverse.mp hslot)
  split_ifs at hone
  obtain ⟨k, -, hk⟩ := Option.map_eq_some_iff.mp hone
  exact absurd (show (0 : Byte) = 1 from hk) (by decide)

end Search

/-- **When a load sees the youngest store**: whatever the stores write and whatever else is
going on, exactly if the intervals are good enough. -/
theorem forwarding_exact_iff (reqs : List LSQRequest) (load : LSQRequest) :
    (∀ (c : Context) (slots : List Store), slots.map Store.toLSQRequest = reqs →
      Exact slots load (tryToSendToTransfers c slots load)) ↔ Faithful reqs load := by
  have hzeros : ∀ l : List LSQRequest, (l.map LSQRequest.zeros).map Store.toLSQRequest = l := by
    simp [Function.comp_def, LSQRequest.zeros]
  constructor
  · intro h
    constructor
    · intro hrelease hno slot hslot hconsidered i a ha
      have hnone : canForwardDataToLoad (reqs.map LSQRequest.zeros) load = none := by
        rcases canForwardDataToLoad_cases (reqs.map LSQRequest.zeros) load with
          ⟨hnone, -⟩ | ⟨older, store, younger, heq, hstore, -, hcoverage, -⟩
        · exact hnone
        · refine absurd (hno store.toLSQRequest ?_ hstore) hcoverage
          rw [← hzeros reqs, heq]
          simp
      have hexact := h .ready _ (hzeros reqs)
      have haccess : access .ready (reqs.map LSQRequest.zeros) load = .access := by
        simp [access, hnone, Context.send, Context.ready]
      rw [tryToSendToTransfers_ready hrelease (.inr hnone), haccess] at hexact
      exact hexact i a ha slot.zeros (mem_map_of_mem hslot) hconsidered
    · rintro hbufferable older store younger rfl hconsidered hfull hno i a ha
      -- the byte that is forwarded is the only one that is not zero
      set j := (load.paddr - store.paddr).toNat + i with hj
      set marked : Store := ⟨store, fun k => if k = j then 1 else 0⟩ with hmarked
      set slots := older.map LSQRequest.zeros ++ marked :: younger.map LSQRequest.zeros with hslots
      have hsearch : canForwardDataToLoad slots load = some (marked, fullAddrRangeCoverage) := by
        unfold canForwardDataToLoad
        rw [(find?_eq_some_iff_append (b := marked)).mpr ⟨?_, (younger.map LSQRequest.zeros).reverse,
          (older.map LSQRequest.zeros).reverse, by simp [hslots], ?_⟩, Option.map_some]
        · rw [show marked.coverage load = fullAddrRangeCoverage from hfull]
        · exact decide_eq_true ⟨hconsidered, by simp [hmarked, hfull]⟩
        · intro slot hslot
          obtain ⟨r, hr, rfl⟩ := mem_map.mp (mem_reverse.mp hslot)
          rw [Bool.not_eq_true', decide_eq_false_iff_not]
          exact fun hboth => hboth.2 (hno r hr hboth.1)
      have hexact := h .ready slots (by simp [hslots, hmarked, Function.comp_def, LSQRequest.zeros])
      have hplain : load.isLLSC = false ∧ load.isRelease = false := by
        simp [LSQRequest.bufferable] at hbufferable
        exact ⟨hbufferable.1.1.1.2, hbufferable.2⟩
      rw [tryToSendToTransfers_ready hplain.2 (.inl hbufferable), access, hplain.1, hsearch]
        at hexact
      have hone : youngest slots load a = some 1 := by
        rw [hexact i a ha]
        simp [forwardStoreData, hmarked, hj]
      rw [youngest_append] at hone
      have hnone : youngest (younger.map LSQRequest.zeros) load a = none := by
        by_contra hsome
        obtain ⟨v, hv⟩ := Option.ne_none_iff_exists'.mp hsome
        rw [hv] at hone
        exact youngest_zeros_ne_one younger a (hv.trans hone)
      refine ⟨?_, forall_mem_map.mp (youngest_eq_none_iff.mp hnone)⟩
      rw [hnone, if_pos hconsidered] at hone
      show marked.writer a = some j
      cases hwriter : marked.writer a with
      | none =>
        rw [hwriter] at hone
        exact absurd hone (youngest_zeros_ne_one older a)
      | some k =>
        rw [hwriter] at hone
        simpa [hmarked] using hone
  · rintro h c slots rfl
    unfold tryToSendToTransfers
    split_ifs with h1 h2 h3 h4 h5 hrelease hbufferable
    all_goals try trivial
    refine h.exact_access ?_ c ?_
    · simpa [imp_iff_not_or] using hrelease
    · rw [not_and_or, not_not, not_or, Option.not_isSome_iff_eq_none] at hbufferable
      exact hbufferable.imp_right And.right

/-! ## Requests without gaps -/

/-- The bytes of the request follow each other, below the end of the address space. -/
structure LSQRequest.Contiguous (r : LSQRequest) : Prop where
  phys : ∀ i < r.size, r.phys i = some (r.paddr + BitVec.ofNat 64 i)
  bound : r.paddr.toNat + r.size < 2 ^ 64

section Contiguous

variable {r load : LSQRequest} {slots : List Store} {i : ℕ} {a : Addr}

theorem LSQRequest.Accesses.lt_size (h : r.Accesses i a) : i < r.size := by
  by_contra hge
  have henabled := h.1
  rw [getD_eq_default _ _ (Nat.le_of_not_lt hge)] at henabled
  cases henabled

theorem LSQRequest.Contiguous.toNat_eq (hr : r.Contiguous) (h : r.Accesses i a) :
    a.toNat = r.paddr.toNat + i := by
  have hi := h.lt_size
  have hbound := hr.bound
  obtain rfl := Option.some.inj ((hr.phys i hi).symm.trans h.2)
  bv_omega

/-- The end of the interval is not past the end of the address space. -/
theorem LSQRequest.Contiguous.toNat_end (hr : r.Contiguous) :
    (r.paddr + BitVec.ofNat 64 r.size).toNat = r.paddr.toNat + r.size := by
  have hbound := hr.bound
  bv_omega

/-- Intervals that do not meet. -/
theorem writer_eq_none_of_contiguous (hr : r.Contiguous) (hload : load.Contiguous)
    (hno : r.coverage load = noAddrRangeCoverage) (ha : load.Accesses i a) : r.writer a = none := by
  rw [LSQRequest.writer, find?_eq_none]
  intro j _ hj
  have hwrites := hr.toNat_eq (of_decide_eq_true hj)
  have hj := (of_decide_eq_true hj).lt_size
  have hreads := hload.toNat_eq ha
  have hi := ha.lt_size
  simp only [LSQRequest.coverage, containsAddrRangeOf, BitVec.le_def, hr.toNat_end,
    hload.toNat_end] at hno
  split_ifs at hno
  omega

/-- An interval that has all of the load. -/
theorem writer_eq_some_of_contiguous (hr : r.Contiguous) (hload : load.Contiguous)
    (hfull : r.coverage load = fullAddrRangeCoverage) (ha : load.Accesses i a) :
    r.writer a = some ((load.paddr - r.paddr).toNat + i) := by
  have hreads := hload.toNat_eq ha
  have hi := ha.lt_size
  simp only [LSQRequest.coverage, containsAddrRangeOf, BitVec.le_def, hr.toNat_end,
    hload.toNat_end] at hfull
  split_ifs at hfull with hmeet _ hwithin hmasked
  obtain ⟨hlower, hupper⟩ := hwithin
  have hoffset : (load.paddr - r.paddr).toNat = load.paddr.toNat - r.paddr.toNat :=
    BitVec.toNat_sub_of_le hlower
  set j := (load.paddr - r.paddr).toNat + i with hj
  have hsize : j < r.size := by omega
  have hwrites : r.Accesses j a := by
    constructor
    · rw [getD_eq_getElem _ _ hsize]
      by_contra hdisabled
      refine hmasked ⟨rfl, contains_iff_mem.mpr ?_⟩
      rw [← Bool.eq_false_iff.mpr hdisabled]
      exact getElem_mem hsize
    · rw [hr.phys j hsize]
      congr 1
      bv_omega
  cases hwriter : r.writer a with
  | none =>
    have hnone := find?_eq_none.mp hwriter j (by simpa using hsize)
    exact absurd (decide_eq_true hwrites) hnone
  | some k =>
    have hfound : r.Accesses k a := by simpa using find?_some hwriter
    have hk := hr.toNat_eq hfound
    congr 1
    omega

/-- **Without gaps the search is right**: if it finds nothing, no store writes a byte of the
load; if it finds a store that has all of the load, that store writes each byte where
`forwardStoreData` takes it from, and no younger one writes it. -/
theorem canForwardDataToLoad_of_contiguous (hload : load.Contiguous)
    (hslots : ∀ slot ∈ slots, slot.Considered load → slot.Contiguous) :
    (canForwardDataToLoad slots load = none → ∀ slot ∈ slots, slot.Considered load →
      ∀ i a, load.Accesses i a → slot.writer a = none) ∧
    ∀ store, canForwardDataToLoad slots load = some (store, fullAddrRangeCoverage) →
      ∃ older younger, slots = older ++ store :: younger ∧ ∀ i a, load.Accesses i a →
        store.writer a = some ((load.paddr - store.paddr).toNat + i) ∧
        ∀ slot ∈ younger, slot.Considered load → slot.writer a = none := by
  rcases canForwardDataToLoad_cases slots load with
    ⟨hnone, hno⟩ | ⟨older, store, younger, rfl, hconsidered, hsome, -, hno⟩
  · refine ⟨fun _ slot hslot hconsidered i a ha => ?_, by simp [hnone]⟩
    exact writer_eq_none_of_contiguous (hslots slot hslot hconsidered) hload
      (hno slot hslot hconsidered) ha
  · refine ⟨by simp [hsome], fun found hfound => ?_⟩
    obtain ⟨rfl, hfull⟩ := Prod.mk.inj (Option.some.inj (hsome.symm.trans hfound))
    refine ⟨older, younger, rfl, fun i a ha => ⟨?_, fun slot hslot hslot' => ?_⟩⟩
    · exact writer_eq_some_of_contiguous (hslots store (by simp) hconsidered) hload hfull ha
    · exact writer_eq_none_of_contiguous (hslots slot (by simp [hslot]) hslot') hload
        (hno slot hslot hslot') ha

end Contiguous

/-! ## A store to two pages -/

/-- A plain request of `n` bytes. -/
def plain (n : ℕ) (fragments : List Fragment) : LSQRequest where
  threadId := 0
  packet := true
  isCacheMaintenance := false
  isLLSC := false
  isStrictlyOrdered := false
  isSwap := false
  isAtomic := false
  isRelease := false
  byteEnable := List.replicate n true
  fragments := fragments

/-- A load of the last four bytes of a store of eight. -/
theorem canForwardDataToLoad_of_contiguous_four :
    (plain 8 [⟨0, 8, 0x5000⟩]).writer 0x5005
      = some (((0x5004 : Addr) - (0x5000 : Addr)).toNat + 1) := by
  have hload : (plain 4 [⟨0, 4, 0x5004⟩]).Contiguous := ⟨by decide, by decide⟩
  have hslots : ∀ slot ∈ [(plain 8 [⟨0, 8, 0x5000⟩]).zeros],
      slot.Considered (plain 4 [⟨0, 4, 0x5004⟩]) → slot.Contiguous :=
    forall_mem_singleton.mpr fun _ => ⟨by decide, by decide⟩
  obtain ⟨_, _, -, hbytes⟩ := (canForwardDataToLoad_of_contiguous hload hslots).2 _ rfl
  exact (hbytes 1 0x5005 (by decide)).1

/-- Eight bytes from `0xffc` on, with the second page in another place than behind the first. -/
def twoPages : LSQRequest :=
  plain 8 (makeFragmentRequests 64 0xffc (List.replicate 8 true) fun vaddr =>
    if vaddr < 0x1000 then vaddr + 0x1000 else vaddr + 0x4000)

/-- The load of the bytes in the second page goes to memory, though the store in the buffer
writes them. -/
theorem secondPage_not_seen :
    ¬ ∀ (c : Context) (slots : List Store), slots.map Store.toLSQRequest = [twoPages] →
      Exact slots (plain 4 [⟨0, 4, 0x5000⟩])
        (tryToSendToTransfers c slots (plain 4 [⟨0, 4, 0x5000⟩])) := by
  intro h
  have hexact := h .ready [twoPages.zeros] rfl
  exact absurd (hexact 0 0x5000 (by decide) _ (mem_singleton_self _) (by decide)) (by decide)

end MinorLSQ
