/-
# The DMA sequencer

Model of `DMASequencer` (mem/ruby/system/DMASequencer.cc): a packet becomes one
message for each cache line, and the next one is issued by the callback for the one
before.  The table of requests is keyed by the line of the first message
(`makeRequest`), and a callback has the line of the message it answers.

`none` stands for an assertion that fails or a null pointer that is read.  The `data`
of a request is the memory of its packet, so that only the packet has it; the mask
of an atomic access has no reader here.  Numbers of bytes are natural numbers.
-/
import Gem5.Ruby
import Gem5.Run

open Function BitVec

namespace Ruby

variable {b : ℕ}

inductive SequencerRequestType where
  | LD | ST | ATOMIC
  deriving DecidableEq

structure SequencerMsg (b : ℕ) where
  lineAddress : Addr
  physicalAddress : Addr
  type : SequencerRequestType
  dataBlk : DataBlock b
  len : ℕ

inductive RequestStatus where
  | BufferFull | Aliased | Issued
  deriving DecidableEq

/-- A packet; its data is `none` for a null pointer. -/
structure Packet where
  addr : Addr
  size : ℕ
  isRead : Bool
  isWrite : Bool
  isMaskedWrite : Bool
  isAtomic : Bool
  data : Option (ℕ → Byte)

structure DMARequest where
  startPaddr : Addr
  len : ℕ
  write : Bool
  bytesCompleted : ℕ
  bytesIssued : ℕ
  pkt : Packet

/-- The sequencer, with the messages it has sent to its controller and the packets
for which it has called `ruby_hit_callback`. -/
structure DMASequencer (b : ℕ) where
  requestTable : Addr → Option DMARequest
  outstandingCount : ℕ
  maxOutstandingRequests : ℕ
  mandatoryQueue : List (SequencerMsg b)
  hits : List Packet

namespace DMASequencer

/-- `paddr & m_data_block_mask` -/
def blockOffset (b : ℕ) (paddr : Addr) : ℕ := (paddr &&& mask b).toNat

/-- `DataBlock::setData` on a new block -/
def setData (data : ℕ → Byte) (offset len : ℕ) : DataBlock b := fun j =>
  if offset ≤ j ∧ j < offset + len then data (j - offset) else 0

/-- The type of the first message. -/
def requestType (pkt : Packet) : Option SequencerRequestType :=
  if pkt.isAtomic then
    if (pkt.addr - makeLineAddress b pkt.addr).toNat + pkt.size ≤ 2 ^ b then some .ATOMIC else none
  else if pkt.isWrite then some .ST
  else if pkt.isRead then some .LD
  else none

/-- The message for the first line of a packet. -/
def firstMsg (b : ℕ) (pkt : Packet) (type : SequencerRequestType) : SequencerMsg b :=
  let offset := blockOffset b pkt.addr
  let len := if offset + pkt.size ≤ 2 ^ b then pkt.size else 2 ^ b - offset
  { physicalAddress := pkt.addr
    lineAddress := makeLineAddress b pkt.addr
    type := type
    len := len
    dataBlk :=
      match pkt.isWrite, pkt.data with
      | true, some data => setData data offset len
      | _, _ => fun _ => 0 }

variable (s : DMASequencer b)

def makeRequest (pkt : Packet) : Option (RequestStatus × DMASequencer b) :=
  if s.outstandingCount = s.maxOutstandingRequests then some (.BufferFull, s)
  else if pkt.isMaskedWrite = true ∨ ¬ s.outstandingCount < s.maxOutstandingRequests then none
  else
    let lineAddr := makeLineAddress b pkt.addr
    match s.requestTable lineAddr with
    | some _ => some (.Aliased, s)
    | none =>
      match requestType (b := b) pkt with
      | none => none
      | some type =>
        let msg := firstMsg b pkt type
        some (.Issued,
          { s with
            requestTable := update s.requestTable lineAddr
              (some
                { startPaddr := pkt.addr
                  len := pkt.size
                  write := pkt.isWrite
                  bytesCompleted := 0
                  bytesIssued := msg.len
                  pkt := pkt })
            outstandingCount := s.outstandingCount + 1
            mandatoryQueue := s.mandatoryQueue ++ [msg] })

/-- The message for the line after the bytes that are completed; `none` if it would
not begin at a line, or there is no data to write. -/
def nextMsg (b : ℕ) (req : DMARequest) : Option (SequencerMsg b) :=
  let paddr := req.startPaddr + BitVec.ofNat 64 req.bytesCompleted
  let len := if req.len - req.bytesCompleted < 2 ^ b then req.len - req.bytesCompleted else 2 ^ b
  if blockOffset b paddr ≠ 0 then none
  else
    match req.write, req.pkt.data with
    | true, none => none
    | true, some data =>
      some
        { physicalAddress := paddr
          lineAddress := makeLineAddress b paddr
          type := .ST
          len := len
          dataBlk := setData (fun j => data (req.bytesCompleted + j)) 0 len }
    | false, _ =>
      some
        { physicalAddress := paddr
          lineAddress := makeLineAddress b paddr
          type := .LD
          len := len
          dataBlk := fun _ => 0 }

def issueNext (address : Addr) : Option (DMASequencer b) :=
  match s.requestTable address with
  | none => none
  | some req =>
    if ¬ s.outstandingCount ≤ s.maxOutstandingRequests then none
    else
      let req := { req with bytesCompleted := req.bytesIssued }
      if req.len = req.bytesCompleted then
        some { s with
                outstandingCount := s.outstandingCount - 1
                requestTable := update s.requestTable address none
                hits := s.hits ++ [req.pkt] }
      else
        match nextMsg b req with
        | none => none
        | some msg =>
          some { s with
                  requestTable := update s.requestTable address
                    (some { req with bytesIssued := req.bytesIssued + msg.len })
                  mandatoryQueue := s.mandatoryQueue ++ [msg] }

/-- `memcpy` of a part of a block into the data of a packet. -/
def copyData (pkt : Packet) (start : ℕ) (dblk : DataBlock b) (offset len : ℕ) : Packet :=
  { pkt with
    data := pkt.data.map fun data x =>
      if start ≤ x ∧ x < start + len then dblk.byte (offset + (x - start)) else data x }

variable (dblk : DataBlock b)

def dataCallback (address : Addr) : Option (DMASequencer b) :=
  match s.requestTable address with
  | none => none
  | some req =>
    let len := req.bytesIssued - req.bytesCompleted
    let offset := if req.bytesCompleted = 0 then blockOffset b req.startPaddr else 0
    if req.write = true then none
    else if req.pkt.data.isSome = true ∧ ¬ offset + len ≤ 2 ^ b then none
    else
      let req := { req with pkt := copyData req.pkt req.bytesCompleted dblk offset len }
      issueNext { s with requestTable := update s.requestTable address (some req) } address

def ackCallback (address : Addr) : Option (DMASequencer b) :=
  match s.requestTable address with
  | none => none
  | some _ => s.issueNext address

def atomicCallback (address : Addr) : Option (DMASequencer b) :=
  match s.requestTable address with
  | none => none
  | some req =>
    let offset := blockOffset b req.startPaddr
    if req.pkt.data.isSome = true ∧ offset + req.pkt.size ≤ 2 ^ b then
      some { s with
              hits := s.hits ++ [copyData req.pkt 0 dblk offset req.pkt.size]
              outstandingCount := s.outstandingCount - 1
              requestTable := update s.requestTable address none }
    else none

/-- The controller answers the message that it was sent last, with the line of the
message; `dblk` is what it has read. -/
def answer : Option (DMASequencer b) :=
  match s.mandatoryQueue.getLast? with
  | none => none
  | some msg =>
    match msg.type with
    | .LD => s.dataCallback dblk msg.lineAddress
    | .ST => s.ackCallback msg.lineAddress
    | .ATOMIC => s.atomicCallback dblk msg.lineAddress

/-! ## What serving a packet should do -/

/-- The messages cover the `n` bytes from `a` on, one after the other, and each of
them is in its line. -/
def Covers : ℕ → ℕ → List (SequencerMsg b) → Prop
  | _, n, [] => n = 0
  | a, n, msg :: msgs =>
    msg.physicalAddress.toNat = a ∧ 0 < msg.len ∧ msg.len ≤ n ∧
    msg.lineAddress = makeLineAddress b msg.physicalAddress ∧
    blockOffset b msg.physicalAddress + msg.len ≤ 2 ^ b ∧
    Covers (a + msg.len) (n - msg.len) msgs

/-- **Serving a packet**, whatever the controller reads: it is taken, no assertion fails up to
the answer to the last of its messages, which cover it, and only that answer calls
`ruby_hit_callback`.  The requests of other packets are left alone; no call for one of them
comes in between. -/
def Serves (pkt : Packet) : Prop :=
  ∀ dblks : ℕ → DataBlock b, ∃ s₁ s' msgs pkt',
    s.makeRequest pkt = some (.Issued, s₁) ∧
    runSteps answer s₁ ((List.range msgs.length).map dblks) = some s' ∧
    s'.mandatoryQueue = s.mandatoryQueue ++ msgs ∧
    Covers pkt.addr.toNat pkt.size msgs ∧
    s'.hits = s.hits ++ [pkt'] ∧ pkt'.addr = pkt.addr ∧ pkt'.size = pkt.size ∧
    (∀ k < msgs.length, ∀ t, runSteps answer s₁ ((List.range k).map dblks) = some t →
      t.hits = s.hits) ∧
    s'.requestTable = s.requestTable ∧ s'.outstandingCount = s.outstandingCount

/-! ## Requests and their lines -/

theorem blockOffset_eq (hb : b < 64) (a : Addr) : blockOffset b a = a.toNat % 2 ^ b :=
  toNat_and_mask hb a

theorem blockOffset_lt (hb : b < 64) (a : Addr) : blockOffset b a < 2 ^ b := by
  rw [blockOffset_eq hb]
  exact Nat.mod_lt _ (by positivity)

/-- A read or write that the sequencer can take. -/
structure Takes (s : DMASequencer b) (pkt : Packet) : Prop where
  room : s.outstandingCount < s.maxOutstandingRequests
  kind : pkt.isWrite = true ∨ pkt.isRead = true
  notAtomic : pkt.isAtomic = false
  notMasked : pkt.isMaskedWrite = false
  pos : 0 < pkt.size
  noWrap : pkt.addr.toNat + pkt.size ≤ 2 ^ 64
  /-- The other requests are for other lines. -/
  free : ∀ x, pkt.addr.toNat ≤ x → x < pkt.addr.toNat + pkt.size →
    s.requestTable (makeLineAddress b (BitVec.ofNat 64 x)) = none

/-- The type of the messages for a packet. -/
def typeOf (pkt : Packet) : SequencerRequestType := if pkt.isWrite then .ST else .LD

section

variable {s : DMASequencer b} {pkt : Packet} {req : DMARequest} {msg : SequencerMsg b}

theorem Takes.requestType_eq (h : Takes s pkt) : requestType (b := b) pkt = some (typeOf pkt) := by
  unfold requestType typeOf
  rcases h.kind with hk | hk
  · simp [h.notAtomic, hk]
  · cases hw : pkt.isWrite <;> simp [h.notAtomic, hk]

/-- The request in the table after `makeRequest`. -/
def started (b : ℕ) (pkt : Packet) : DMARequest where
  startPaddr := pkt.addr
  len := pkt.size
  write := pkt.isWrite
  bytesCompleted := 0
  bytesIssued := (firstMsg b pkt (typeOf pkt)).len
  pkt := pkt

/-- The sequencer after `makeRequest`. -/
def issued (s : DMASequencer b) (pkt : Packet) : DMASequencer b :=
  { s with
    requestTable := update s.requestTable (makeLineAddress b pkt.addr) (some (started b pkt))
    outstandingCount := s.outstandingCount + 1
    mandatoryQueue := s.mandatoryQueue ++ [firstMsg b pkt (typeOf pkt)] }

theorem Takes.free_line (h : Takes s pkt) : s.requestTable (makeLineAddress b pkt.addr) = none := by
  have hfree := h.free pkt.addr.toNat le_rfl (by have := h.pos; omega)
  rwa [ofNat_toNat] at hfree

theorem Takes.makeRequest_eq (h : Takes s pkt) :
    s.makeRequest pkt = some (.Issued, issued s pkt) := by
  unfold makeRequest
  rw [if_neg h.room.ne, if_neg (by simp [h.notMasked, h.room])]
  dsimp only
  rw [h.free_line, h.requestType_eq]
  rfl

theorem len_firstMsg (b : ℕ) (pkt : Packet) (type : SequencerRequestType) :
    (firstMsg b pkt type).len
      = if blockOffset b pkt.addr + pkt.size ≤ 2 ^ b then pkt.size
        else 2 ^ b - blockOffset b pkt.addr := rfl

/-- The first message is in its line. -/
theorem offset_add_len_le (hb : b < 64) (pkt : Packet) (type : SequencerRequestType) :
    blockOffset b pkt.addr + (firstMsg b pkt type).len ≤ 2 ^ b := by
  have hlt := blockOffset_lt hb pkt.addr
  rw [len_firstMsg]
  split <;> omega

/-! ## The first answer -/

theorem lineAddress_of_nextMsg (h : nextMsg b req = some msg) :
    msg.lineAddress = makeLineAddress b (req.startPaddr + BitVec.ofNat 64 req.bytesCompleted) := by
  unfold nextMsg at h
  dsimp only at h
  split at h
  · cases h
  · split at h
    · cases h
    all_goals
      cases h
      rfl

variable {s' : DMASequencer b}

theorem issueNext_of_ne {a : Addr} (hreq : s.requestTable a = some req)
    (hmore : req.len ≠ req.bytesIssued) (h : s.issueNext a = some s') :
    s'.hits = s.hits ∧ (∀ x, x ≠ a → s'.requestTable x = s.requestTable x) ∧
      ∃ msg, s'.mandatoryQueue.getLast? = some msg ∧
        msg.lineAddress = makeLineAddress b (req.startPaddr + BitVec.ofNat 64 req.bytesIssued) := by
  unfold issueNext at h
  rw [hreq] at h
  dsimp only at h
  split at h
  · cases h
  · split at h
    · cases h
    · rename_i msg hmsg
      cases h
      refine ⟨rfl, fun x hx => update_of_ne hx _ _, msg, by simp, ?_⟩
      rw [lineAddress_of_nextMsg hmsg]

/-- The packet after the answer to the first message. -/
def received (pkt : Packet) (dblk : DataBlock b) : Packet :=
  if pkt.isWrite then pkt
  else copyData pkt 0 dblk (blockOffset b pkt.addr) (firstMsg b pkt (typeOf pkt)).len

/-- The sequencer when `issueNext` is called the first time. -/
def answered (s : DMASequencer b) (pkt : Packet) (dblk : DataBlock b) : DMASequencer b :=
  { issued s pkt with
    requestTable := update s.requestTable (makeLineAddress b pkt.addr)
      (some { started b pkt with pkt := received pkt dblk }) }

theorem answer_issued (hb : b < 64) (s : DMASequencer b) (pkt : Packet) (dblk : DataBlock b) :
    (issued s pkt).answer dblk = (answered s pkt dblk).issueNext (makeLineAddress b pkt.addr) := by
  have hlast : (issued s pkt).mandatoryQueue.getLast? = some (firstMsg b pkt (typeOf pkt)) := by
    simp [issued]
  have hentry : (issued s pkt).requestTable (makeLineAddress b pkt.addr) = some (started b pkt) := by
    simp [issued]
  unfold answer
  rw [hlast]
  cases hw : pkt.isWrite with
  | true =>
    have htype : typeOf pkt = .ST := by simp [typeOf, hw]
    have hsame : answered s pkt dblk = issued s pkt := by
      simp [answered, issued, received, hw, started]
    rw [hsame]
    simp only [htype, firstMsg]
    rw [ackCallback, hentry]
  | false =>
    have htype : typeOf pkt = .LD := by simp [typeOf, hw]
    have hfit := offset_add_len_le hb pkt .LD
    have hcallback : (issued s pkt).dataCallback dblk (makeLineAddress b pkt.addr)
        = (answered s pkt dblk).issueNext (makeLineAddress b pkt.addr) := by
      unfold dataCallback
      simp [started, hw, htype, hfit, answered, issued, received]
    rw [← hcallback]
    simp only [htype, firstMsg]

theorem requestTable_answered (s : DMASequencer b) (pkt : Packet) (dblk : DataBlock b) :
    (answered s pkt dblk).requestTable (makeLineAddress b pkt.addr)
      = some { started b pkt with pkt := received pkt dblk } := by
  simp [answered]

/-- A packet in one line: the answer is the last one. -/
theorem Takes.answer_of_le (hb : b < 64) (h : Takes s pkt)
    (hle : blockOffset b pkt.addr + pkt.size ≤ 2 ^ b) (dblk : DataBlock b) :
    (issued s pkt).answer dblk
      = some { s with
                mandatoryQueue := s.mandatoryQueue ++ [firstMsg b pkt (typeOf pkt)]
                hits := s.hits ++ [received pkt dblk] } := by
  have hlen : pkt.size = (firstMsg b pkt (typeOf pkt)).len := by
    rw [len_firstMsg, if_pos hle]
  have htable : update (answered s pkt dblk).requestTable (makeLineAddress b pkt.addr) none
      = s.requestTable := by
    simp only [answered]
    rw [update_idem, ← h.free_line, update_eq_self]
  have hroom : (answered s pkt dblk).outstandingCount ≤
      (answered s pkt dblk).maxOutstandingRequests := h.room
  rw [answer_issued hb, issueNext, requestTable_answered]
  simp only [htable, if_neg (not_not_intro hroom),
    if_pos (show (started b pkt).len = (started b pkt).bytesIssued from hlen)]
  rfl

/-- The line after the one of the packet's address. -/
theorem Takes.next_line (hb : b < 64) (h : Takes s pkt)
    (hlt : 2 ^ b < blockOffset b pkt.addr + pkt.size) :
    makeLineAddress b (pkt.addr + BitVec.ofNat 64 (2 ^ b - blockOffset b pkt.addr))
        ≠ makeLineAddress b pkt.addr ∧
      s.requestTable
        (makeLineAddress b (pkt.addr + BitVec.ofNat 64 (2 ^ b - blockOffset b pkt.addr))) = none := by
  have hwrap := h.noWrap
  have hoff := blockOffset_eq hb pkt.addr
  have hdiv : 2 ^ b * (pkt.addr.toNat / 2 ^ b) + pkt.addr.toNat % 2 ^ b = pkt.addr.toNat :=
    Nat.div_add_mod _ _
  have heq : pkt.addr + BitVec.ofNat 64 (2 ^ b - blockOffset b pkt.addr)
      = BitVec.ofNat 64 (pkt.addr.toNat + (2 ^ b - blockOffset b pkt.addr)) := by
    rw [ofNat_add, ofNat_toNat, setWidth_eq]
  rw [heq]
  constructor
  · intro hsame
    have hnat := congrArg BitVec.toNat hsame
    rw [toNat_makeLineAddress hb, toNat_makeLineAddress hb, toNat_ofNat,
      Nat.mod_eq_of_lt (by omega)] at hnat
    have hnext : pkt.addr.toNat + (2 ^ b - blockOffset b pkt.addr)
        = 2 ^ b * (pkt.addr.toNat / 2 ^ b + 1) := by
      rw [Nat.mul_add]
      omega
    rw [hnext, Nat.mul_div_cancel_left _ (by positivity)] at hnat
    have := Nat.eq_of_mul_eq_mul_right (by positivity) hnat
    omega
  · exact h.free _ (by omega) (by omega)

/-- No request is found for the line of the last message. -/
theorem answer_eq_none (hlast : s.mandatoryQueue.getLast? = some msg)
    (hnone : s.requestTable msg.lineAddress = none) (dblk : DataBlock b) : s.answer dblk = none := by
  unfold answer
  rw [hlast]
  dsimp only
  split
  · rw [dataCallback, hnone]
  · rw [ackCallback, hnone]
  · rw [atomicCallback, hnone]

/-- A packet in several lines: the answer issues a message for the next line, and
the answer to that one finds no request. -/
theorem Takes.answer_of_lt (hb : b < 64) (h : Takes s pkt)
    (hlt : 2 ^ b < blockOffset b pkt.addr + pkt.size) {dblk : DataBlock b}
    (hs' : (issued s pkt).answer dblk = some s') :
    s'.hits = s.hits ∧ ∀ dblk', s'.answer dblk' = none := by
  have hlen : (firstMsg b pkt (typeOf pkt)).len = 2 ^ b - blockOffset b pkt.addr := by
    rw [len_firstMsg, if_neg (by omega)]
  have hmore : pkt.size ≠ (firstMsg b pkt (typeOf pkt)).len := by
    have := blockOffset_lt hb pkt.addr
    omega
  obtain ⟨hne, hnone⟩ := h.next_line hb hlt
  rw [← hlen] at hne hnone
  rw [answer_issued hb] at hs'
  obtain ⟨hhits, htable, msg, hlast, hline⟩ :=
    issueNext_of_ne (requestTable_answered s pkt dblk) hmore hs'
  refine ⟨hhits, answer_eq_none hlast ?_⟩
  change msg.lineAddress
    = makeLineAddress b (pkt.addr + BitVec.ofNat 64 (firstMsg b pkt (typeOf pkt)).len) at hline
  rw [hline, htable _ hne]
  simp only [answered]
  rw [update_of_ne hne]
  exact hnone

end

/-- **Serving packets.**  A packet is served exactly if it is in one line. -/
theorem serves_iff (hb : b < 64) (s : DMASequencer b) (pkt : Packet) (h : Takes s pkt) :
    Serves s pkt ↔ blockOffset b pkt.addr + pkt.size ≤ 2 ^ b := by
  constructor
  · intro hserves
    by_contra hlt
    obtain ⟨s1, s', msgs, pkt', hmake, hrun, -, hcovers, hhits, -⟩ := hserves fun _ _ => 0
    rw [h.makeRequest_eq] at hmake
    obtain ⟨-, rfl⟩ := Prod.mk.inj (Option.some.inj hmake)
    cases msgs with
    | nil => exact h.pos.ne' hcovers
    | cons msg msgs =>
      rw [List.length_cons, List.range_succ_eq_map, List.map_cons, runSteps_cons,
        Option.bind_eq_some_iff] at hrun
      obtain ⟨s2, hfirst, hrest⟩ := hrun
      obtain ⟨hnohit, hstuck⟩ := h.answer_of_lt hb (Nat.not_le.mp hlt) hfirst
      -- the first answer is not the last one, and there is no second one
      cases msgs with
      | nil =>
        cases hrest
        rw [hnohit] at hhits
        simp at hhits
      | cons msg' msgs =>
        rw [List.length_cons, List.range_succ_eq_map, List.map_cons, List.map_cons,
          runSteps_cons, hstuck] at hrest
        cases hrest
  · intro hle dblks
    have hlen : (firstMsg b pkt (typeOf pkt)).len = pkt.size := by
      rw [len_firstMsg, if_pos hle]
    refine ⟨issued s pkt, { s with
        mandatoryQueue := s.mandatoryQueue ++ [firstMsg b pkt (typeOf pkt)]
        hits := s.hits ++ [received pkt (dblks 0)] },
      [firstMsg b pkt (typeOf pkt)], received pkt (dblks 0), h.makeRequest_eq, ?_, rfl, ?_, rfl, ?_,
      ?_, ?_, rfl, rfl⟩
    · show runSteps answer (issued s pkt) [dblks 0] = _
      rw [runSteps_cons, h.answer_of_le hb hle]
      rfl
    · have hpos := h.pos
      refine ⟨rfl, ?_, ?_, rfl, offset_add_len_le hb pkt _, ?_⟩
      · omega
      · omega
      · show pkt.size - _ = 0
        omega
    · unfold received copyData
      split <;> rfl
    · unfold received copyData
      split <;> rfl
    · intro k hk t ht
      obtain rfl : k = 0 := by simpa using hk
      cases ht
      rfl

/-- A sequencer without requests. -/
def idle : DMASequencer 6 where
  requestTable := fun _ => none
  outstandingCount := 0
  maxOutstandingRequests := 64
  mandatoryQueue := []
  hits := []

/-- A write of `n` bytes from `a` on. -/
def writeOf (a : Addr) (n : ℕ) : Packet where
  addr := a
  size := n
  isRead := false
  isWrite := true
  isMaskedWrite := false
  isAtomic := false
  data := some fun _ => 1

theorem serves_iff_inside : Serves idle (writeOf 4 8) := by
  refine (serves_iff (by decide) idle (writeOf 4 8) ?_).mpr (by decide)
  exact ⟨by decide, .inl rfl, rfl, rfl, by decide, by decide, fun _ _ _ => rfl⟩

/-- A write of 64 bytes from the middle of a line on: the answer to its second message
finds no request. -/
theorem two_lines_stuck : ∃ s₁ s₂, idle.makeRequest (writeOf 32 64) = some (.Issued, s₁) ∧
      s₁.answer (fun _ => 0) = some s₂ ∧ s₂.hits = [] ∧ s₂.answer (fun _ => 0) = none :=
  ⟨_, _, rfl, rfl, rfl, rfl⟩

end DMASequencer

end Ruby
