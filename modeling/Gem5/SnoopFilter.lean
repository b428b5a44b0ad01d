/-
# The snoop filter of a crossbar

Model of `SnoopFilter` (mem/snoop_filter.cc, snoop_filter.hh).

For every line that a cache above the crossbar may have, the filter keeps a mask of the
ports with a request in flight and a mask of the ports that hold the line.  A request is
looked up and finished: `lookupRequest` changes the entry and keeps its old value, and
`finishRequest` puts the old value back if the request has to be sent again.  A call
returns `none` where the code panics or an assert fails.
-/
import Mathlib.Data.Finmap
import Gem5.Run

/-- `SnoopItem` -/
structure SnoopItem where
  requested : BitVec 256
  holder : BitVec 256
  deriving DecidableEq

/-- The entries by line address, with `LineSecure` in the lowest bit. -/
abbrev SnoopFilterCache := Finmap fun _ : BitVec 64 => SnoopItem

/-- What the filter reads of a packet, of its command and of its request. -/
structure SnoopPacket where
  addr : BitVec 64
  isSecure : Bool
  isUncacheable : Bool
  isCacheMaintenance : Bool
  isRequest : Bool
  isResponse : Bool
  fromCache : Bool
  needsResponse : Bool
  needsWritable : Bool
  isInvalidate : Bool
  isEviction : Bool
  isWriteback : Bool
  cacheResponding : Bool
  hasSharers : Bool
  isBlockCached : Bool

/-- The parameters of a filter: the CPU-side ports of its crossbar, each snooping or not,
of which the masks have room for 256, and lines of `2 ^ lineBits` bytes. -/
structure SnoopFilter where
  cpuSidePorts : List Bool
  lineBits : ℕ
  lookupLatency : ℕ
  maxEntryCount : ℕ
  ports_le : cpuSidePorts.countP id ≤ 256
  lineBits_pos : 0 < lineBits
  lineBits_lt : lineBits < 64

namespace SnoopFilter

/-- `cachedLocations` and `reqLookupResult`; an iterator to the end is `none`. -/
structure State where
  cachedLocations : SnoopFilterCache
  it : Option (BitVec 64)
  retryItem : SnoopItem

def State.new : State := ⟨∅, none, ⟨0, 0⟩⟩

section Calls

variable (f : SnoopFilter)

/-! ## Ports and lines -/

def isSnooping (port : ℕ) : Bool := f.cpuSidePorts.getD port false

/-- `localResponsePortIds`: snooping ports are numbered in order. -/
def localResponsePortId (port : ℕ) : ℕ := (f.cpuSidePorts.take port).countP id

def portToMask (port : ℕ) : BitVec 256 :=
  if !f.isSnooping port then 0 else 1#256 <<< f.localResponsePortId port

def maskToPortList (mask : BitVec 256) : List ℕ :=
  (List.range f.cpuSidePorts.length).filter fun port =>
    f.isSnooping port && mask &&& f.portToMask port ≠ 0

def linesize : BitVec 64 := 1#64 <<< f.lineBits

/-- The line address of a packet: `getBlockAddr(linesize)`, and `LineSecure` if it is
secure. -/
def lineAddr (addr : BitVec 64) (isSecure : Bool) : BitVec 64 :=
  (addr &&& ~~~(f.linesize - 1)) ||| if isSecure then 1 else 0

section

variable (pkt : SnoopPacket)

def lineOf : BitVec 64 := f.lineAddr pkt.addr pkt.isSecure

/-! ## Requests from above -/

/-- Remove the entry if it has no requestors and no holders. -/
def eraseIfNullEntry (m : SnoopFilterCache) (line : BitVec 64) : SnoopFilterCache :=
  match m.lookup line with
  | none => m
  | some item => if item.requested ||| item.holder = 0 then m.erase line else m

/-- A request of a cache that the filter keeps track of. -/
def allocates (port : ℕ) : Bool :=
  !pkt.isUncacheable && f.isSnooping port && pkt.fromCache

/-- What a request of a cache does to its entry. -/
def requestItem (reqPort : BitVec 256) (item : SnoopItem) : Option SnoopItem :=
  if pkt.needsResponse then
    if !pkt.cacheResponding then
      -- max one request per address per port
      if item.requested &&& reqPort ≠ 0 then none
      else some { item with requested := item.requested ||| reqPort }
    else
      -- the response will not be seen here, but the cluster has a copy
      if item.holder &&& reqPort = 0 then none else some item
  else if !pkt.isEviction then none
  else if item.holder &&& reqPort = 0 then none
  else if !pkt.isBlockCached then some { item with holder := item.holder &&& ~~~reqPort }
  else some item

end

variable (s : State)

section

variable (pkt : SnoopPacket)

/-- The ports to snoop, the latency, and the state. -/
def lookupRequest (port : ℕ) : Option ((List ℕ × ℕ) × State) :=
  let allocate := f.allocates pkt port
  let line := f.lineOf pkt
  let reqPort := f.portToMask port
  let hit := s.cachedLocations.lookup line
  if hit.isNone && !allocate then some (([], f.lookupLatency), { s with it := none })
  else
    let item := hit.getD ⟨0, 0⟩
    let interested := item.holder ||| item.requested
    let snoops := (f.maskToPortList (interested &&& ~~~reqPort), f.lookupLatency)
    (if allocate then requestItem pkt reqPort item else some item).map fun item' =>
      (snoops,
        { cachedLocations := s.cachedLocations.insert line item'
          it := some line
          retryItem := item })

def finishRequest (willRetry : Bool) (addr : BitVec 64) (isSecure : Bool) : Option State :=
  match s.it with
  | none => some s
  | some line =>
    if line ≠ f.lineAddr addr isSecure then none
    else
      let m := if willRetry then s.cachedLocations.insert line s.retryItem else s.cachedLocations
      some { s with cachedLocations := eraseIfNullEntry m line }

/-! ## Snoops from below and responses -/

def lookupSnoop : Option ((List ℕ × ℕ) × State) :=
  if !pkt.isRequest then none
  else
    match s.cachedLocations.lookup (f.lineOf pkt) with
    | none =>
      if f.maxEntryCount ≤ s.cachedLocations.keys.card then none
      else some (([], f.lookupLatency), s)
    | some item =>
      let interested := item.holder ||| item.requested
      if !(pkt.isWriteback || pkt.isUncacheable || (pkt.isInvalidate == pkt.needsWritable) ||
          pkt.isCacheMaintenance) then none
      else
        -- early clear of the holder, if no other request is currently going on
        let m :=
          if pkt.isInvalidate ∧ item.requested = 0 then
            eraseIfNullEntry (s.cachedLocations.insert (f.lineOf pkt) { item with holder := 0 })
              (f.lineOf pkt)
          else s.cachedLocations
        some ((f.maskToPortList interested, f.lookupLatency), { s with cachedLocations := m })

/-- The response of a cache above to the request of another one. -/
def updateSnoopResponse (rspPort reqPort : ℕ) : Option State :=
  if !pkt.isResponse || !pkt.cacheResponding then none
  else if pkt.isUncacheable || !f.isSnooping reqPort then some s
  else
    let item := (s.cachedLocations.lookup (f.lineOf pkt)).getD ⟨0, 0⟩
    let reqMask := f.portToMask reqPort
    if item.holder &&& f.portToMask rspPort = 0 then none
    else if item.requested &&& reqMask = 0 then none
    else if pkt.isWriteback then none
    else
      -- without sharers the line is passed in Modified state
      let holder := if !pkt.hasSharers then 0 else item.holder
      some { s with
        cachedLocations := s.cachedLocations.insert (f.lineOf pkt)
          ⟨item.requested &&& ~~~reqMask, holder ||| reqMask⟩ }

/-- The response of a cache above that goes down. -/
def updateSnoopForward : Option State :=
  if !pkt.isResponse || !pkt.cacheResponding then none
  else
    match s.cachedLocations.lookup (f.lineOf pkt) with
    | none => some s
    | some item =>
      if !pkt.hasSharers then
        some { s with
          cachedLocations := eraseIfNullEntry
            (s.cachedLocations.insert (f.lineOf pkt) { item with holder := 0 }) (f.lineOf pkt) }
      else some s

/-- The response from below to a request of the port. -/
def updateResponse (port : ℕ) : Option State :=
  if !pkt.isResponse then none
  else if pkt.isUncacheable || !f.isSnooping port then some s
  else
    match s.cachedLocations.lookup (f.lineOf pkt) with
    | none => some s
    | some item =>
      let mask := f.portToMask port
      if item.requested &&& mask = 0 then none
      else if pkt.isCacheMaintenance then
        -- no data comes with it, so the holders stay unless it invalidates
        let holder := if pkt.isInvalidate then item.holder &&& ~~~mask else item.holder
        some { s with
          cachedLocations := eraseIfNullEntry
            (s.cachedLocations.insert (f.lineOf pkt) ⟨item.requested &&& ~~~mask, holder⟩)
            (f.lineOf pkt) }
      else
        some { s with
          cachedLocations := s.cachedLocations.insert (f.lineOf pkt)
            ⟨item.requested &&& ~~~mask, item.holder ||| mask⟩ }

end

/-! ## Calls -/

inductive Call where
  /-- `lookupRequest`, and `finishRequest` for the same packet. -/
  | request (pkt : SnoopPacket) (port : ℕ) (willRetry : Bool)
  | lookupSnoop (pkt : SnoopPacket)
  | updateSnoopResponse (pkt : SnoopPacket) (rspPort reqPort : ℕ)
  | updateSnoopForward (pkt : SnoopPacket)
  | updateResponse (pkt : SnoopPacket) (port : ℕ)

def step : Call → Option State
  | .request pkt port willRetry =>
    (f.lookupRequest s pkt port).bind fun r => f.finishRequest r.2 willRetry pkt.addr pkt.isSecure
  | .lookupSnoop pkt => (f.lookupSnoop s pkt).map Prod.snd
  | .updateSnoopResponse pkt rspPort reqPort => f.updateSnoopResponse s pkt rspPort reqPort
  | .updateSnoopForward pkt => f.updateSnoopForward s pkt
  | .updateResponse pkt port => f.updateResponse s pkt port

end Calls

end SnoopFilter
