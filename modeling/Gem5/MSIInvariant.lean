/-
# The invariant of MSI

As in MI_example the caches that the directory has accepted a `GetM` from stand in
line for the data.  While the head is served, the invalidations of the former sharers
and their acks are on their way.  A `GetS` that comes then is forwarded to the last
one and closes the line.

`Ghost` says all this: what each cache is doing (`Role`), the line, where the data
is (`Token`), and which invalidations and acks are left.  From it follow the place
of a cache (`Place`), its record and its channels (`Fits`), and the directory
(`DirFits`); `Coherent` is the invariant.
-/
import Gem5.MSI
import Gem5.Handover

open Function

namespace MSI

open Ruby

variable {N : Type} {b : ℕ}

/-! ## What the caches are doing -/

/-- Where a cache that wants to read gets the data from. -/
inductive Source (N : Type) where
  | memory
  /-- On its way from the directory. -/
  | directory
  /-- The `GetS` was forwarded to the last one in line. -/
  | forwarded
  /-- On its way from `j`. -/
  | cache (j : N)
  deriving DecidableEq

/-- What a cache that evicts the line still has of it. -/
inductive Rest where
  | nothing | copy | dirty
  deriving DecidableEq

inductive Put where
  | PutS | PutM
  deriving DecidableEq

/-- What a cache is doing; `copy` tells if it still has the line to read. -/
inductive Role (N : Type) where
  | idle
  /-- Its `GetS` is on the way. -/
  | askS
  | waitS (source : Source N)
  | shared
  /-- Its `GetM` is on the way. -/
  | askM (copy : Bool)
  /-- In line, without the data. -/
  | waitM (copy : Bool)
  /-- It has the data and waits for acks. -/
  | collecting (copy : Bool)
  | owning
  /-- Its request is on the way, or the `PutAck` for it. -/
  | leaving (rest : Rest) (put : Option Put)
  deriving DecidableEq

def Rest.state : Rest → CacheState
  | nothing => .II_A
  | copy => .SI_A
  | dirty => .MI_A

/-- The state of a cache. -/
def Role.state : Role N → CacheState
  | idle => .I
  | askS | waitS _ => .IS_D
  | shared => .S
  | askM copy | waitM copy => if copy then .SM_AD else .IM_AD
  | collecting copy => if copy then .SM_A else .IM_A
  | owning => .M
  | leaving rest _ => rest.state

/-- Where the data comes from that it waits for. -/
def Role.source : Role N → Option (Source N)
  | waitS source => some source
  | _ => none

theorem Role.source_eq_some {r : Role N} {source : Source N} :
    r.source = some source ↔ r = .waitS source := by
  cases r <;> simp [Role.source]

/-- The directory counts it as a sharer, if there is no line. -/
def Role.Recorded : Role N → Prop
  | waitS _ | shared | askM true | leaving .copy (some _) => True
  | _ => False

/-- The request on the way to the directory. -/
def Role.requests (d : DataBlock b) : Role N → List (RequestMsg b)
  | askS => [.GetS]
  | askM _ => [.GetM]
  | leaving _ (some .PutS) => [.PutS]
  | leaving _ (some .PutM) => [.PutM d]
  | _ => []

def Role.putAck : Role N → List (ForwardMsg N)
  | leaving _ none => [.PutAck]
  | _ => []

/-! ## Where the data is -/

/-- Where the data is; the last five are about the head of the line. -/
inductive Token (N : Type) where
  /-- In memory, and with sharers in the caches if the directory is in `S`. -/
  | settled (shared : Bool)
  /-- Memory is read for a `GetS` of `i`. -/
  | read (i : N)
  /-- The data of `i` is written back. -/
  | writeBack (i : N) (shared : Bool)
  /-- On its way from `j` to the directory. -/
  | downgrade (j : N)
  /-- Memory is read for the head, which will be asked to wait for `acks`. -/
  | fetch (acks : ℕ)
  /-- On its way from the directory to the head. -/
  | dirData (acks : ℕ)
  /-- The head has it and waits for acks. -/
  | collect
  | held
  /-- On its way from `j` to the head. -/
  | cacheData (j : N)
  deriving DecidableEq

/-- The state of the protocol behind the records and messages. -/
structure Ghost (N : Type) where
  role : N → Role N
  line : List N
  tok : Token N
  /-- To be invalidated, the message is on its way. -/
  inv : Finset N
  /-- Invalidated, the ack is on its way to the head. -/
  ack : Finset N
  /-- The `GetS` of this one is forwarded to the last one in line. -/
  down : Option N

/-- The part that a cache has in it: `next` is what is forwarded to it. -/
inductive Part (N : Type) where
  | outside
  /-- Memory is read for it. -/
  | reading
  /-- Its `GetS` was forwarded. -/
  | chosen
  | head (tok : Token N) (acks : ℤ) (next : Option (ForwardMsg N))
  | queued (next : Option (ForwardMsg N))

structure Place (N : Type) where
  part : Part N
  /-- The head, if the cache is to be invalidated for it. -/
  inv : Option N
  /-- There is a line. -/
  busy : Bool

def Part.next : Part N → Option (ForwardMsg N)
  | head _ _ next | queued next => next
  | _ => none

/-- The acks that the data on its way to the head asks for. -/
def Part.dirAcks : Part N → Option ℤ
  | head (.dirData acks) _ _ => some acks
  | _ => none

def Part.acks : Part N → ℤ
  | head _ acks _ => acks
  | _ => 0

namespace Ghost

variable [DecidableEq N] (g : Ghost N)

def acks : ℤ :=
  match g.tok with
  | .fetch acks | .dirData acks => (g.inv.card : ℤ) + g.ack.card - acks
  | .collect => (g.inv.card : ℤ) + g.ack.card
  | _ => 0

/-- What is forwarded to `i`. -/
def next (i : N) : Option (ForwardMsg N) :=
  match behind g.line i with
  | some k => some (.GetM k)
  | none => if g.line.getLast? = some i then g.down.map .GetS else none

def part (i : N) : Part N :=
  if g.line.head? = some i then .head g.tok g.acks (g.next i)
  else if i ∈ g.line then .queued (g.next i)
  else if g.tok = .read i then .reading
  else if g.down = some i then .chosen
  else .outside

def place (i : N) : Place N where
  part := g.part i
  inv := if i ∈ g.inv then g.line.head? else none
  busy := !g.line.isEmpty

/-- Data on its way from `j` to `i`. -/
def data (v : DataBlock b) (j i : N) : List (ResponseMsg b) :=
  if g.role i = .waitS (.cache j) ∨ g.tok = .cacheData j ∧ g.line.head? = some i then [.Data v] else []

/-- An ack on its way from `j` to `i`. -/
def invAck (j i : N) : List (ResponseMsg b) :=
  if j ∈ g.ack ∧ g.line.head? = some i then [.InvAck] else []

/-- The responses on their way from `j` to `i`. -/
def responses (v : DataBlock b) (j i : N) : List (ResponseMsg b) := g.data v j i ++ g.invAck j i

def dirState : DirState :=
  match g.tok with
  | .settled shared => if shared then .S else .I
  | .read _ => .S_m
  | .writeBack _ shared => if shared then .SS_m else .MI_m
  | .downgrade _ => .S_D
  | .fetch _ => .M_m
  | _ => if g.down = none then .M else .S_D

def owner : Finset N := if g.down = none then g.line.getLast?.toFinset else ∅

end Ghost

/-! ## A cache -/

namespace Place

variable (p : Place N)

/-- The roles that a cache may have at its place. -/
def Allows : Role N → Prop
  | .idle | .askS | .askM false | .leaving .nothing _ => p.part = .outside ∧ p.inv = none
  | .waitS .memory => p.part = .reading ∧ p.inv = none
  | .waitS .forwarded => p.part = .chosen ∧ p.inv = none
  | .waitS .directory | .waitS (.cache _) | .shared | .askM true | .leaving .copy (some _) =>
    p.part = .outside ∧ (p.busy = true → p.inv ≠ none)
  | .leaving .copy none => p.part = .outside
  | .waitM copy =>
    (∃ acks next, ((∃ k, p.part = .head (.fetch k) acks next ∨ p.part = .head (.dirData k) acks next) ∨
      copy = false ∧ ∃ j, p.part = .head (.cacheData j) acks next) ∧ p.inv = none) ∨
    ∃ next, p.part = .queued next ∧ (p.inv ≠ none ↔ copy = true)
  | .collecting _ => (∃ acks next, p.part = .head .collect acks next) ∧ p.inv = none
  | .owning | .leaving .dirty (some .PutM) => (∃ next, p.part = .head .held 0 next) ∧ p.inv = none
  | .leaving .dirty (some .PutS) => False
  -- the request was taken after one that the cache still has to answer, or it was served
  | .leaving .dirty none =>
    (p.part = .outside ∨ ∃ m, p.part = .head .held 0 (some m)) ∧ p.inv = none

/-- The cache has the latest value. -/
def Fresh : Role N → Prop
  | .shared | .collecting _ | .owning => True
  | .askM copy | .waitM copy => copy = true
  | .leaving .dirty _ => p.part ≠ .outside
  | _ => False

/-- The directory has it among the sharers. -/
def Shares (r : Role N) : Prop :=
  if p.busy then
    p.part = .chosen ∨ (∃ k, p.part.next = some (.GetS k)) ∧ r ≠ .leaving .dirty none
  else r.Recorded

theorem shares_of_busy {p : Place N} {r : Role N} (h : p.busy = true) :
    p.Shares r ↔ p.part = .chosen ∨ (∃ k, p.part.next = some (.GetS k)) ∧ r ≠ .leaving .dirty none := by
  simp [Shares, h]

theorem shares_of_not_busy {p : Place N} {r : Role N} (h : p.busy = false) :
    p.Shares r ↔ r.Recorded := by
  simp [Shares, h]

def forwards (r : Role N) : List (ForwardMsg N) :=
  p.inv.toList.map .Inv ++ p.part.next.toList ++ r.putAck

/-- The data on its way from the directory, by the acks it asks for. -/
def dirAcks (r : Role N) : Option ℤ :=
  match r.source with
  | some .directory => some 0
  | _ => p.part.dirAcks

end Place

/-- The record of a cache in a state. -/
def record (state : CacheState) (d : DataBlock b) (acks : ℤ) : Cache b :=
  match state with
  | .I => ⟨none, none⟩
  | .IS_D | .IM_AD | .IM_A | .SM_AD | .SM_A => ⟨some ⟨state, d⟩, some ⟨state, acks⟩⟩
  | .S | .M | .MI_A | .SI_A | .II_A => ⟨some ⟨state, d⟩, none⟩

/-- The record of one cache, and the channels between it and the directory. -/
structure Local (N : Type) (b : ℕ) where
  cache : Cache b
  requests : List (RequestMsg b)
  forwards : List (ForwardMsg N)
  dirData : List (DirData b)

/-- The record and the channels of a cache, with the latest value `v`. -/
structure Fits (v : DataBlock b) (p : Place N) (r : Role N) (l : Local N b) : Prop where
  allowed : p.Allows r
  cache : ∃ d, l.cache = record r.state d p.part.acks ∧ (p.Fresh r → d = v)
  requests : ∃ d, l.requests = r.requests d ∧ (p.Fresh r → d = v)
  forwards : l.forwards = p.forwards r
  dirData : l.dirData = (p.dirAcks r).toList.map (DirData.mk v)

/-! ## The directory and memory -/

/-- The queue to memory, the answers from it, and the line in it. -/
def Token.Queue (tok : Token N) (line : Addr) (v : DataBlock b) (head : Option N)
    (q answers : List (MemoryMsg N b)) (mem : Memory) : Prop :=
  match tok, head with
  | .settled _, _ => q = [] ∧ answers = [] ∧ readBlock mem line.toNat = v
  | .read i, _ | .fetch _, some i =>
    (q = [⟨line, .MEMORY_READ, i, fun _ => 0, 0⟩] ∧ answers = [] ∧ readBlock mem line.toNat = v) ∨
      q = [] ∧ answers = [⟨line, .MEMORY_READ, i, v, 0⟩] ∧ readBlock mem line.toNat = v
  | .writeBack i _, _ =>
    (q = [⟨line, .MEMORY_WB, i, v, 0⟩] ∧ answers = []) ∨
      q = [] ∧ answers = [⟨line, .MEMORY_WB, i, fun _ => 0, 0⟩] ∧ readBlock mem line.toNat = v
  | _, _ => q = [] ∧ answers = []

structure DirFits [DecidableEq N] (dir : Dir N b) (answers : List (MemoryMsg N b)) (mem : Memory)
    (line : Addr) (v : DataBlock b) (g : Ghost N) : Prop where
  addr : dir.line = line
  dirState : dir.dirState = g.dirState
  owner : dir.owner = g.owner
  count : ∀ acks, g.tok = .fetch acks → dir.sharers.card = acks
  sharers : (∀ acks, g.tok ≠ .fetch acks) →
    ∀ j, j ∈ dir.sharers ↔ (g.place j).Shares (g.role j)
  empty : (dir.dirState = .I ∨ dir.dirState = .MI_m) → dir.sharers = ∅
  queue : g.tok.Queue line v g.line.head? dir.requestToMemory answers mem

/-! ## The invariant -/

/-- What the line and the acks are for the token. -/
def Ghost.Counts (g : Ghost N) : Prop :=
  match g.tok with
  | .settled _ | .read _ | .writeBack _ _ | .downgrade _ =>
    g.line = [] ∧ g.inv = ∅ ∧ g.ack = ∅ ∧ g.down = none
  | .fetch acks => (∃ h, g.line = [h]) ∧ g.down = none ∧ g.inv.card + g.ack.card ≤ acks
  | .dirData acks => g.line ≠ [] ∧ g.inv.card + g.ack.card ≤ acks
  | .collect => g.line ≠ [] ∧ 0 < g.inv.card + g.ack.card
  | .held | .cacheData _ => g.line ≠ [] ∧ g.inv = ∅ ∧ g.ack = ∅

def System.localAt (s : System N b) (i : N) : Local N b :=
  ⟨s.caches i, s.requests i, s.forwards i, s.dirData i⟩

/-- **The invariant**, with the state of the protocol behind it. -/
structure Coherent [DecidableEq N] (s : System N b) (line : Addr) (v : DataBlock b)
    (g : Ghost N) : Prop where
  nodup : g.line.Nodup
  counts : g.Counts
  disjoint : Disjoint g.inv g.ack
  down : ∀ r, g.down = some r → r ∉ g.line
  fits : ∀ i, Fits v (g.place i) (g.role i) (s.localAt i)
  dataToDir : ∀ j, s.dataToDir j = if g.tok = .downgrade j then [v] else []
  responses : ∀ j i, s.responses j i = g.responses v j i
  dir : DirFits s.dir s.responseFromMemory s.mem line v g

/-! ## Places and tokens -/

variable {r : Role N} {i : N} {p : Place N} {v : DataBlock b} {g g' : Ghost N} {tok : Token N}

theorem Place.dirAcks_eq_none (hr : r ≠ .waitS .directory)
    (hpart : ∀ k acks next, p.part ≠ .head (.dirData k) acks next) : p.dirAcks r = none := by
  unfold dirAcks
  split
  · rename_i hsource
    exact absurd (Role.source_eq_some.mp hsource) hr
  · unfold Part.dirAcks
    split
    · rename_i hhead
      exact absurd hhead (hpart _ _ _)
    · rfl

/-- Where nothing of the value is, it may change. -/
theorem Fits.congr_value {w : DataBlock b} {l : Local N b}
    (h : Fits v p r l) (hfresh : ¬ p.Fresh r) (hdata : p.dirAcks r = none) : Fits w p r l := by
  obtain ⟨d, hc, -⟩ := h.cache
  obtain ⟨d', hq, -⟩ := h.requests
  refine ⟨h.allowed, ⟨d, hc, fun hr => absurd hr hfresh⟩, ⟨d', hq, fun hr => absurd hr hfresh⟩,
    h.forwards, ?_⟩
  rw [h.dirData, hdata]
  rfl

/-- The role of a cache that has or gets a copy to read. -/
def Role.Copy : Role N → Prop
  | waitS .directory | waitS (.cache _) | shared | askM true => True
  | _ => False

/-- In a line only its head and those to be invalidated know the value. -/
theorem Place.Allows.not_fresh (h : p.Allows r) (hbusy : p.busy = true) (hinv : p.inv = none)
    (hpart : ∀ tok acks next, p.part ≠ .head tok acks next) : ¬ p.Fresh r ∧ ¬ r.Copy := by
  unfold Allows at h
  split at h
  -- outside of the line, those that have a copy are to be invalidated
  all_goals try first | exact ⟨id, id⟩ | exact absurd hinv (h.2 hbusy)
  -- and in line, those behind the head
  all_goals
    simp [hinv, hpart] at h
  all_goals simp [Fresh, Role.Copy, h]

theorem Fits.owning (v : DataBlock b) (next : Option (ForwardMsg N)) :
    Fits v ⟨.head .held 0 next, none, true⟩ .owning ⟨record .M v 0, [], next.toList, []⟩ where
  allowed := ⟨⟨next, rfl⟩, rfl⟩
  cache := ⟨v, rfl, fun _ => rfl⟩
  requests := ⟨v, rfl, fun _ => rfl⟩
  forwards := by simp [Place.forwards, Part.next, Role.putAck]
  dirData := rfl

/-- The data is in the line or on its way to its head. -/
def Token.Cached : Token N → Prop
  | dirData _ | collect | held | cacheData _ => True
  | _ => False

theorem Token.queue_of_cached (h : tok.Cached) {head : Option N} {q answers : List (MemoryMsg N b)}
    {line : Addr} {mem : Memory} : tok.Queue line v head q answers mem ↔ q = [] ∧ answers = [] := by
  cases tok with
  | dirData acks | collect | held | cacheData j => exact .rfl
  | _ => exact absurd h id

namespace Ghost

theorem dirState_of_cached (h : g.tok.Cached) :
    g.dirState = if g.down = none then .M else .S_D := by
  unfold dirState
  cases htok : g.tok with
  | dirData acks | collect | held | cacheData j => rfl
  | _ =>
    rw [htok] at h
    exact absurd h id

theorem not_fetch_of_cached (h : g.tok.Cached) (acks : ℕ) : g.tok ≠ .fetch acks := by
  intro htok
  rw [htok] at h
  exact h

theorem not_read_of_cached (h : g.tok.Cached) (i : N) : g.tok ≠ .read i := by
  intro htok
  rw [htok] at h
  exact h

theorem Counts.line_ne_nil (hcounts : g.Counts) (h : g.tok.Cached) : g.line ≠ [] := by
  unfold Counts at hcounts
  cases htok : g.tok with
  | dirData acks | collect | held | cacheData j => simp only [htok] at hcounts; exact hcounts.1
  | _ =>
    rw [htok] at h
    exact absurd h id

/-- Fewer acks may be left, as long as one that is waited for is. -/
theorem Counts.of_le (h : g.Counts) (hline : g'.line = g.line) (htok : g'.tok = g.tok)
    (hdown : g'.down = g.down) (hle : g'.inv.card + g'.ack.card ≤ g.inv.card + g.ack.card)
    (hcollect : g.tok = .collect → 0 < g'.inv.card + g'.ack.card) : g'.Counts := by
  have hempty : g.inv = ∅ → g.ack = ∅ → g'.inv = ∅ ∧ g'.ack = ∅ := by
    intro hinv hack
    rw [hinv, hack, Finset.card_empty] at hle
    exact ⟨Finset.card_eq_zero.mp (by omega), Finset.card_eq_zero.mp (by omega)⟩
  unfold Counts at h ⊢
  rw [htok, hline, hdown]
  cases hg : g.tok <;> simp only [hg] at h ⊢
  case fetch => exact ⟨h.1, h.2.1, hle.trans h.2.2⟩
  case dirData => exact ⟨h.1, hle.trans h.2⟩
  case collect => exact ⟨h.1, hcollect hg⟩
  case held | cacheData => exact ⟨h.1, hempty h.2.1 h.2.2⟩
  all_goals
    obtain ⟨hnil, hinv, hack, hnone⟩ := h
    exact ⟨hnil, (hempty hinv hack).1, (hempty hinv hack).2, hnone⟩

theorem acks_congr (htok : g'.tok = g.tok)
    (hcard : g'.inv.card + g'.ack.card = g.inv.card + g.ack.card) : g'.acks = g.acks := by
  have hcast : (g'.inv.card : ℤ) + g'.ack.card = g.inv.card + g.ack.card := by
    exact_mod_cast hcard
  unfold acks
  rw [htok, hcast]

end Ghost

/-! ## Changes of the state -/

section

variable [DecidableEq N]

/-- Another record and other channels for the cache `i`, which may have sent data and
responses. -/
def System.setLocal (s : System N b) (i : N) (l : Local N b) (dataToDir : N → List (DataBlock b))
    (responses : N → N → List (ResponseMsg b)) : System N b :=
  { s with
    caches := update s.caches i l.cache
    requests := update s.requests i l.requests
    forwards := update s.forwards i l.forwards
    dirData := update s.dirData i l.dirData
    dataToDir := dataToDir
    responses := responses }

section

variable (s : System N b) {j : N} (l : Local N b) (dataToDir : N → List (DataBlock b))
  (responses : N → N → List (ResponseMsg b))

theorem System.localAt_setLocal : (s.setLocal i l dataToDir responses).localAt i = l := by
  simp [setLocal, localAt]

theorem System.localAt_setLocal_of_ne (h : j ≠ i) :
    (s.setLocal i l dataToDir responses).localAt j = s.localAt j := by
  simp [setLocal, localAt, h]

end

/-- Another role for the cache `i`. -/
def Ghost.setRole (g : Ghost N) (i : N) (r : Role N) : Ghost N :=
  { g with role := update g.role i r }

@[simp] theorem Ghost.place_setRole (g : Ghost N) (i : N) (r : Role N) :
    (g.setRole i r).place = g.place := rfl

@[simp] theorem Ghost.role_setRole (g : Ghost N) (i : N) (r : Role N) :
    (g.setRole i r).role i = r := by
  simp [setRole]

theorem Ghost.role_setRole_of_ne (g : Ghost N) {i j : N} (r : Role N) (h : j ≠ i) :
    (g.setRole i r).role j = g.role j := by
  simp [setRole, h]

theorem Ghost.responses_congr (v : DataBlock b) {j i : N}
    (hdata : (g'.role i = .waitS (.cache j) ∨ g'.tok = .cacheData j ∧ g'.line.head? = some i) ↔
      (g.role i = .waitS (.cache j) ∨ g.tok = .cacheData j ∧ g.line.head? = some i))
    (hack : (j ∈ g'.ack ∧ g'.line.head? = some i) ↔ (j ∈ g.ack ∧ g.line.head? = some i)) :
    g'.responses v j i = g.responses v j i :=
  congrArg₂ (· ++ ·) (if_congr hdata rfl rfl) (if_congr hack rfl rfl)

namespace Ghost

theorem part_of_head (h : g.line.head? = some i) :
    g.part i = .head g.tok g.acks (g.next i) := if_pos h

theorem head_of_part {acks : ℤ} {next : Option (ForwardMsg N)}
    (h : g.part i = .head tok acks next) :
    g.line.head? = some i ∧ g.tok = tok ∧ g.acks = acks ∧ g.next i = next := by
  unfold part at h
  split_ifs at h with hhead
  cases h
  exact ⟨hhead, rfl, rfl, rfl⟩

theorem busy_of_ne (h : g.line ≠ []) (i : N) : (g.place i).busy = true := by
  simpa [place] using h

theorem inv_of_empty (h : g.inv = ∅) (i : N) : (g.place i).inv = none := by
  simp [place, h]

end Ghost

/-- The directory counts the same caches as sharers. -/
theorem Ghost.shares_congr (hrole : g'.role = update g.role i r)
    (hplace : ∀ j, j ≠ i → g'.place j = g.place j)
    (hself : (g'.place i).Shares r ↔ (g.place i).Shares (g.role i)) (j : N) :
    (g'.place j).Shares (g'.role j) ↔ (g.place j).Shares (g.role j) := by
  rw [hrole]
  by_cases hj : j = i
  · subst hj
    rw [update_self]
    exact hself
  · rw [hplace j hj, update_of_ne hj]

variable {answers : List (MemoryMsg N b)} {mem : Memory} {line : Addr} {dir : Dir N b}

/-- The directory only sees the line, the token and the sharers. -/
theorem DirFits.congr (h : DirFits dir answers mem line v g)
    (hline : g'.line = g.line) (htok : g'.tok = g.tok) (hdown : g'.down = g.down)
    (hshares : ∀ j, (g'.place j).Shares (g'.role j) ↔ (g.place j).Shares (g.role j)) :
    DirFits dir answers mem line v g' where
  addr := h.addr
  dirState := by rw [h.dirState, Ghost.dirState, Ghost.dirState, htok, hdown]
  owner := by rw [h.owner, Ghost.owner, Ghost.owner, hdown, hline]
  count := by
    rw [htok]
    exact h.count
  sharers := by
    rw [htok]
    intro hfetch j
    rw [h.sharers hfetch j, hshares]
  empty := h.empty
  queue := by
    rw [htok, hline]
    exact h.queue

namespace Coherent

variable {s : System N b} {w : DataBlock b} (h : Coherent s line v g)

include h

/-- Once all invalidations are answered, only the head of a line knows the value. -/
theorem not_fresh (hne : g.line ≠ []) (hinv : g.inv = ∅)
    (hi : g.line.head? ≠ some i) : ¬ (g.place i).Fresh (g.role i) ∧ ¬ (g.role i).Copy := by
  apply (h.fits i).allowed.not_fresh (Ghost.busy_of_ne hne i) (Ghost.inv_of_empty hinv i)
  intro tok acks next hpart
  exact hi (Ghost.head_of_part hpart).1

/-- One cache changes, and the places of the others stay. -/
theorem fits_update {s' : System N b}
    (hrole : g'.role = update g.role i r) (hplace : ∀ j, j ≠ i → g'.place j = g.place j)
    (hlocal : ∀ j, j ≠ i → s'.localAt j = s.localAt j)
    (hfits : Fits v (g'.place i) r (s'.localAt i)) (j : N) :
    Fits v (g'.place j) (g'.role j) (s'.localAt j) := by
  rw [hrole]
  by_cases hj : j = i
  · subst hj
    rw [update_self]
    exact hfits
  · rw [hlocal j hj, hplace j hj, update_of_ne hj]
    exact h.fits j

variable {l : Local N b} {responses : N → N → List (ResponseMsg b)}

theorem fits_setLocal {dataToDir : N → List (DataBlock b)} (hrole : g'.role = update g.role i r)
    (hplace : ∀ j, j ≠ i → g'.place j = g.place j) (hfits : Fits v (g'.place i) r l) (j : N) :
    Fits v (g'.place j) (g'.role j) ((s.setLocal i l dataToDir responses).localAt j) := by
  refine h.fits_update hrole hplace ?_ ?_ j
  · exact fun j hj => System.localAt_setLocal_of_ne _ _ _ _ hj
  · rw [System.localAt_setLocal]
    exact hfits

/-- A cache changes on its own, at the place that it has, and may take a response. -/
theorem setLocal_responses (hfits : Fits v (g.place i) r l)
    (hshares : (g.place i).Shares r ↔ (g.place i).Shares (g.role i))
    (hresponses : ∀ j k, responses j k = (g.setRole i r).responses v j k) :
    Coherent (s.setLocal i l s.dataToDir responses) line v (g.setRole i r) where
  nodup := h.nodup
  counts := h.counts
  disjoint := h.disjoint
  down := h.down
  fits := h.fits_setLocal rfl (fun _ _ => rfl) hfits
  dataToDir := h.dataToDir
  responses := hresponses
  dir := h.dir.congr rfl rfl rfl (Ghost.shares_congr rfl (fun _ _ => rfl) hshares)

/-- A cache takes another role, which is not about responses. -/
theorem responses_update (hrole : g'.role = update g.role i r)
    (hsource : ∀ j, r = .waitS (.cache j) ↔ g.role i = .waitS (.cache j))
    (hdata : ∀ j k, (g'.tok = .cacheData j ∧ g'.line.head? = some k) ↔
      (g.tok = .cacheData j ∧ g.line.head? = some k))
    (hack : ∀ j k, (j ∈ g'.ack ∧ g'.line.head? = some k) ↔ (j ∈ g.ack ∧ g.line.head? = some k))
    (j k : N) : s.responses j k = g'.responses v j k := by
  rw [h.responses]
  refine (Ghost.responses_congr v (or_congr ?_ (hdata j k)) (hack j k)).symm
  rw [hrole]
  by_cases hk : k = i
  · subst hk
    rw [update_self, hsource]
  · rw [update_of_ne hk]

/-- **A cache changes on its own**, at the place that it has. -/
theorem setLocal (hfits : Fits v (g.place i) r l)
    (hsource : ∀ j, r = .waitS (.cache j) ↔ g.role i = .waitS (.cache j))
    (hshares : (g.place i).Shares r ↔ (g.place i).Shares (g.role i)) :
    Coherent (s.setLocal i l s.dataToDir s.responses) line v (g.setRole i r) := by
  apply h.setLocal_responses hfits hshares
  refine h.responses_update rfl hsource ?_ ?_
  · exact fun _ _ => .rfl
  · exact fun _ _ => .rfl

end Coherent

namespace Ghost

variable {k : N}

/-- What a part depends on. -/
theorem part_ext (hhead : g'.line.head? = some k ↔ g.line.head? = some k)
    (htok : g.line.head? = some k → g'.tok = g.tok ∧ g'.acks = g.acks)
    (hmem : k ∈ g'.line ↔ k ∈ g.line) (hnext : g'.next k = g.next k)
    (hread : g'.tok = .read k ↔ g.tok = .read k) (hdown : g'.down = some k ↔ g.down = some k) :
    g'.part k = g.part k := by
  simp only [part, hhead, hmem, hnext, hread, hdown]
  by_cases hk : g.line.head? = some k
  · rw [if_pos hk, if_pos hk, (htok hk).1, (htok hk).2]
  · rw [if_neg hk, if_neg hk]

/-- With the same line, a part only depends on what concerns it. -/
theorem part_congr (hline : g'.line = g.line) (hdown : g'.down = g.down)
    (hread : g'.tok = .read k ↔ g.tok = .read k)
    (hhead : g.line.head? = some k → g'.tok = g.tok ∧ g'.acks = g.acks) : g'.part k = g.part k := by
  apply part_ext _ hhead _ _ hread
  · rw [hdown]
  · rw [hline]
  · rw [hline]
  · rw [next, next, hline, hdown]

theorem place_congr (hline : g'.line = g.line) (hdown : g'.down = g.down)
    (hinv : k ∈ g'.inv ↔ k ∈ g.inv) (hread : g'.tok = .read k ↔ g.tok = .read k)
    (hhead : g.line.head? = some k → g'.tok = g.tok ∧ g'.acks = g.acks) :
    g'.place k = g.place k := by
  simp only [place, part_congr hline hdown hread hhead, hline, hinv]

end Ghost

/-- The data moves on in the line; the directory does not see it. -/
theorem DirFits.of_cached {w : DataBlock b} (h : DirFits dir answers mem line v g)
    (htok : g.tok.Cached) (htok' : g'.tok.Cached) (hdown : g'.down = g.down)
    (hlast : g'.line.getLast? = g.line.getLast?)
    (hshares : ∀ j, (g'.place j).Shares (g'.role j) ↔ (g.place j).Shares (g.role j)) :
    DirFits dir answers mem line w g' where
  addr := h.addr
  dirState := by rw [h.dirState, Ghost.dirState_of_cached htok, Ghost.dirState_of_cached htok', hdown]
  owner := by rw [h.owner, Ghost.owner, Ghost.owner, hdown, hlast]
  count := fun acks hfetch => absurd hfetch (Ghost.not_fetch_of_cached htok' acks)
  sharers := by
    intro _ j
    rw [h.sharers (Ghost.not_fetch_of_cached htok) j, hshares]
  empty := h.empty
  queue := (Token.queue_of_cached htok').mpr ((Token.queue_of_cached htok).mp h.queue)

namespace Ghost

theorem place_of_head (hhead : g.line.head? = some i) (hinv : i ∉ g.inv) :
    g.place i = ⟨.head g.tok g.acks (g.next i), none, true⟩ := by
  have hne : g.line ≠ [] := List.ne_nil_of_mem (List.mem_of_mem_head? hhead)
  simp [place, part_of_head hhead, hinv, hne]

theorem responses_eq_nil {j : N} (hrole : g.role i ≠ .waitS (.cache j))
    (htok : g.tok ≠ .cacheData j) (hack : j ∉ g.ack) : g.responses v j i = [] := by
  simp [responses, data, invAck, hrole, htok, hack]

end Ghost

namespace Coherent

variable {s : System N b} {w : DataBlock b}

/-- The others do not see what the head writes. -/
theorem fits_other (h : Coherent s line v g) (hne : g.line ≠ []) (hinv : g.inv = ∅)
    (hi : g.line.head? ≠ some i) : Fits w (g.place i) (g.role i) (s.localAt i) := by
  obtain ⟨hfresh, hcopy⟩ := h.not_fresh hne hinv hi
  refine (h.fits i).congr_value hfresh (Place.dirAcks_eq_none ?_ ?_)
  · rintro hrole
    rw [hrole] at hcopy
    exact hcopy trivial
  · intro k acks next hpart
    exact hi (Ghost.head_of_part hpart).1

/-- **The head gets to `M`** with the value `w`: it has the data, and no ack is left to
come. -/
theorem own (h : Coherent s line v g) (hhead : g.line.head? = some i) (htok : g.tok.Cached)
    (hinv : g.inv = ∅) (hrole : g.role i ≠ .leaving .dirty none) :
    let g' : Ghost N := { g with role := update g.role i .owning, tok := .held, ack := ∅ }
    Coherent
      (s.setLocal i ⟨record .M w 0, [], (g.next i).toList, []⟩ s.dataToDir fun _ _ => [])
      line w g' := by
  intro g'
  have hne : g.line ≠ [] := h.counts.line_ne_nil htok
  have hother : ∀ j, j ≠ i → g.line.head? ≠ some j := by
    intro j hj hj'
    exact hj (Option.some.inj (hj'.symm.trans hhead))
  have hrole_self : g'.role i = .owning := update_self _ _ _
  have hrole_other : ∀ j, j ≠ i → g'.role j = g.role j := fun j hj => update_of_ne hj _ _
  have hnotMem : i ∉ g.inv := by simp [hinv]
  have hself : g'.place i = ⟨.head .held 0 (g.next i), none, true⟩ :=
    Ghost.place_of_head hhead hnotMem
  have hplace : ∀ j, j ≠ i → g'.place j = g.place j := by
    intro j hj
    refine Ghost.place_congr rfl rfl Iff.rfl ?_ ?_
    · exact iff_of_false (by simp) (Ghost.not_read_of_cached htok j)
    · exact fun hj' => absurd hj' (hother j hj)
  refine ⟨h.nodup, ⟨hne, hinv, rfl⟩, Finset.disjoint_empty_right _, h.down, ?_, ?_, ?_, ?_⟩
  · intro j
    by_cases hj : j = i
    · subst hj
      rw [System.localAt_setLocal, hrole_self, hself]
      exact Fits.owning w _
    · rw [System.localAt_setLocal_of_ne _ _ _ _ hj, hplace j hj, hrole_other j hj]
      exact h.fits_other hne hinv (hother j hj)
  · intro j
    have hdata := h.dataToDir j
    rw [if_neg] at hdata
    · exact hdata
    · rintro hdown
      rw [hdown] at htok
      exact htok
  · intro j k
    refine (Ghost.responses_eq_nil ?_ (by simp) (by simp [g'])).symm
    by_cases hk : k = i
    · subst hk
      rw [hrole_self]
      simp
    · rw [hrole_other k hk]
      rintro hcache
      have hcopy := (h.not_fresh hne hinv (hother k hk)).2
      rw [hcache] at hcopy
      exact hcopy trivial
  · refine h.dir.of_cached htok trivial rfl rfl ?_
    refine Ghost.shares_congr rfl hplace ?_
    rw [hself, Ghost.place_of_head hhead hnotMem]
    simp [Place.Shares, Part.next, hrole]

end Coherent

end

end MSI
