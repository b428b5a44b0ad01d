/-
# Dictionary compressors

Model of the templates that the cache compressors are made of
(mem/cache/compressors/dictionary_compressor.hh, dictionary_compressor_impl.hh,
base.cc).  `T` is an unsigned integer of `k` bytes here, and `ν` the enumeration of
the patterns of a compressor.

A `PatternClass` is what the factory uses of a pattern class: the test and the
constructor.  `Compressor` has what a compressor overrides.  A match location is an
`int`, but it is read as a `uint8_t`, so that the location -1 of a pattern without
a match is 255.  `decompressValue` reads the dictionary there all the same, out of
bounds of any vector of fewer than 256 entries, where C++ leaves the read undefined;
what it yields is a parameter, `beyond`.

The statistics, the latencies and the codes that are only printed are left out.
-/
import Gem5.Bitfield
import Gem5.WordDigits
import Gem5.Codec
import Gem5.Run

namespace Compression

/-! ## Bit fields -/

/-- `sext<N>(val)` -/
def sext (N : ℕ) (val : BitVec 64) : BitVec 64 :=
  if (bits val (N - 1) (N - 1)) ≠ 0 then val ||| ~~~ mask N else val

/-- `szext<N>(val)` -/
def szext (N : ℕ) (val : BitVec 64) : BitVec 64 :=
  if (bits val (N - 1) (N - 1)) ≠ 0 then val ||| ~~~ mask N else val &&& mask N

/-! ## Dictionary entries -/

/-- `DictionaryEntry`, the bytes of a value. -/
abbrev Entry (k : ℕ) := Fin k → BitVec 8

variable {ν : Type} {k : ℕ}

def toDictionaryEntry (value : BitVec (8 * k)) : Entry k := fun i => Digits.digit 8 value i

def fromDictionaryEntry (entry : Entry k) : BitVec (8 * k) := Digits.join (8 * k) entry

/-! ## Patterns -/

/-- What a pattern keeps of the value, by its class. -/
inductive Payload (k : ℕ) where
  | uncompressed (data : Entry k)
  | masked (mask bits : BitVec (8 * k))
  | maskedValue (value mask bits : BitVec (8 * k))
  /-- `size` is `sizeof(RepT)`. -/
  | repeatedValue (size : ℕ) (value : BitVec (8 * size))
  | delta (bytes : Entry k)
  | signExtended (N : ℕ) (bits : BitVec (8 * k))
  | twoHalfwords (extendedBytes : Fin 2 → BitVec 8)

/-- The members that `ZeroRun` of FPC adds. -/
structure ZeroRun where
  runLength : ℕ
  realSize : ℕ

structure Pattern (ν : Type) (k : ℕ) where
  patternNumber : ν
  length : BitVec 8
  numUnmatchedBits : BitVec 8
  matchLocation : ℤ
  allocate : Bool
  payload : Payload k
  zeroRun : Option ZeroRun := none

attribute [local instance] neZero_two in
/-- `decompress(dict_bytes)` -/
def Payload.decompress (dictBytes : Entry k) : Payload k → Entry k
  | uncompressed data => data
  | masked mask bits => toDictionaryEntry (bits ||| (fromDictionaryEntry dictBytes &&& mask))
  | maskedValue value mask bits =>
    toDictionaryEntry (bits ||| (fromDictionaryEntry (toDictionaryEntry value) &&& mask))
  | repeatedValue size value => toDictionaryEntry (Digits.join (8 * k) fun _ : Fin (k / size) => value)
  | delta bytes => bytes
  | signExtended N bits => toDictionaryEntry ((sext N (bits.setWidth 64)).setWidth (8 * k))
  | twoHalfwords extendedBytes =>
    let halfword (i : Fin 2) : BitVec 16 :=
      (szext 8 ((extendedBytes i).signExtend 64)).setWidth 16
    toDictionaryEntry
      ((((halfword 1).setWidth 32 <<< 16) ||| (halfword 0).setWidth 32).setWidth (8 * k))

namespace Pattern

variable (p : Pattern ν k)

/-- A `uint8_t`, also for the location -1. -/
def getMatchLocation : ℕ := (BitVec.ofInt 8 p.matchLocation).toNat

def getSizeBits : ℕ :=
  match p.zeroRun with
  | some run => run.realSize
  | none => p.numUnmatchedBits.toNat + p.length.toNat

def decompress (dictBytes : Entry k) : Entry k := p.payload.decompress dictBytes

end Pattern

/-! ## Pattern classes

The test and the constructor of each base class; `number` and `metadataLength` are
what a derived class passes on. -/

section Classes

variable (number : ν) (metadataLength : ℕ) (matchLocation : ℤ) (bytes dictBytes : Entry k)

def uncompressedPattern : Pattern ν k where
  patternNumber := number
  length := BitVec.ofNat 8 metadataLength
  numUnmatchedBits := BitVec.ofNat 8 (k * 8)
  matchLocation := matchLocation
  allocate := true
  payload := .uncompressed bytes

section

variable (mask : BitVec (8 * k))

def maskedPattern (allocate : Bool) : Pattern ν k where
  patternNumber := number
  length := BitVec.ofNat 8 metadataLength
  numUnmatchedBits := BitVec.ofNat 8 (popCount ((~~~ mask).setWidth 64))
  matchLocation := matchLocation
  allocate := allocate
  payload := .masked mask (fromDictionaryEntry bytes &&& ~~~ mask)

/-- `MaskedPattern<mask>::isPattern` -/
def isMasked : Bool :=
  decide (0 ≤ matchLocation) &&
    (fromDictionaryEntry bytes &&& mask) == (fromDictionaryEntry dictBytes &&& mask)

def maskedValuePattern (value mask : BitVec (8 * k)) (allocate : Bool) : Pattern ν k :=
  { maskedPattern number metadataLength matchLocation bytes mask allocate with
    payload := .maskedValue value mask (fromDictionaryEntry bytes &&& ~~~ mask) }

/-- `MaskedValuePattern<value, mask>::isPattern` -/
def isMaskedValue (value mask : BitVec (8 * k)) : Bool :=
  (value &&& mask) == (fromDictionaryEntry bytes &&& mask)

/-- `LocatedMaskedPattern<mask, location>::isPattern` -/
def isLocatedMasked (location : ℤ) : Bool :=
  decide (matchLocation = location) && isMasked matchLocation bytes dictBytes mask

end

def repeatedValuePattern (size : ℕ) (allocate : Bool) : Pattern ν k where
  patternNumber := number
  length := BitVec.ofNat 8 metadataLength
  numUnmatchedBits := BitVec.ofNat 8 (8 * size)
  matchLocation := matchLocation
  allocate := allocate
  payload := .repeatedValue size ((fromDictionaryEntry bytes).setWidth (8 * size))

/-- `RepeatedValuePattern<RepT>::isPattern` -/
def isRepeatedValue (size : ℕ) : Bool :=
  let bytesValue := fromDictionaryEntry bytes
  let repValue := bytesValue.setWidth (8 * size)
  (List.range (k / size)).all fun i => Digits.digit (8 * size) bytesValue i == repValue

section

variable (deltaSizeBits : ℕ)

def deltaPattern : Pattern ν k where
  patternNumber := number
  length := BitVec.ofNat 8 metadataLength
  numUnmatchedBits := BitVec.ofNat 8 deltaSizeBits
  matchLocation := matchLocation
  allocate := false
  payload := .delta bytes

/-- `DeltaPattern<DeltaSizeBits>::isValidDelta` -/
def isValidDelta : Bool :=
  let limit : ℤ := ((if deltaSizeBits ≠ 0 then mask (deltaSizeBits - 1) else 0).setWidth (8 * k)).toInt
  let delta : ℤ := (fromDictionaryEntry bytes - fromDictionaryEntry dictBytes).toInt
  decide (-limit ≤ delta) && decide (delta ≤ limit)

/-- `DeltaPattern<DeltaSizeBits>::isPattern` -/
def isDelta : Bool :=
  decide (0 ≤ matchLocation) && isValidDelta bytes dictBytes deltaSizeBits

end

def signExtendedPattern (N : ℕ) (allocate : Bool) : Pattern ν k where
  patternNumber := number
  length := BitVec.ofNat 8 metadataLength
  numUnmatchedBits := BitVec.ofNat 8 N
  matchLocation := -1
  allocate := allocate
  payload := .signExtended N (((fromDictionaryEntry bytes).setWidth 64 &&& mask N).setWidth (8 * k))

/-- `SignExtendedPattern<N>::isPattern` -/
def isSignExtended (N : ℕ) : Bool :=
  fromDictionaryEntry bytes
    == (szext N ((fromDictionaryEntry bytes).setWidth 64)).setWidth (8 * k)

end Classes

/-- What the factory uses of a pattern class. -/
structure PatternClass (ν : Type) (k : ℕ) where
  isPattern : Entry k → Entry k → ℤ → Bool
  new : Entry k → ℤ → Pattern ν k

/-- `Factory<classes..., last>::getPattern` -/
def factory (last : PatternClass ν k) :
    List (PatternClass ν k) → Entry k → Entry k → ℤ → Pattern ν k
  | [], bytes, _, matchLocation => last.new bytes matchLocation
  | head :: tail, bytes, dictBytes, matchLocation =>
    if head.isPattern bytes dictBytes matchLocation then head.new bytes matchLocation
    else factory last tail bytes dictBytes matchLocation

/-! ## Compressors -/

/-- The dictionary and the number of entries that are in use. -/
structure Dictionary (k : ℕ) where
  dictionary : List (Entry k)
  numEntries : ℕ

/-- `CompData` -/
structure CompData (ν : Type) (k : ℕ) where
  entries : List (Pattern ν k) := []
  size : ℕ := 0

def CompData.addEntry (comp : CompData ν k) (pattern : Pattern ν k) : CompData ν k where
  size := comp.size + pattern.getSizeBits
  entries := comp.entries ++ [pattern]

/-- The parameters of a compressor and what it overrides. -/
structure Compressor (ν : Type) (k : ℕ) where
  blkSize : ℕ
  sizeThreshold : ℕ
  dictionarySize : ℕ
  /-- The classes of the factory, and the last one, which always matches. -/
  classes : List (PatternClass ν k)
  last : PatternClass ν k
  addToDictionary : Dictionary k → Entry k → Option (Dictionary k)
  /-- Entries that a reset adds. -/
  initialEntries : List (Entry k) := []
  addEntry : CompData ν k → Pattern ν k → CompData ν k := CompData.addEntry
  /-- What `compress` makes of the size in the end. -/
  finalSize : Dictionary k → ℕ → ℕ := fun _ size => size

namespace Compressor

variable (c : Compressor ν k)

def getPattern : Entry k → Entry k → ℤ → Pattern ν k := factory c.last c.classes

/-- `DictionaryCompressor::resetDictionary`, as the constructor calls it. -/
def cleared : Dictionary k := ⟨List.replicate c.dictionarySize (toDictionaryEntry 0), 0⟩

def resetDictionary : Option (Dictionary k) :=
  c.initialEntries.foldlM c.addToDictionary c.cleared

variable (dict : Dictionary k)

/-- The better one of a pattern and of the one that matches entry `i`. -/
def better (bytes : Entry k) (pattern : Pattern ν k) (i : ℕ) : Pattern ν k :=
  let tempPattern := c.getPattern bytes (dict.dictionary.getD i (toDictionaryEntry 0)) i
  if tempPattern.getSizeBits < pattern.getSizeBits then tempPattern else pattern

/-- The pattern that `compressValue` chooses. -/
def bestPattern (bytes : Entry k) : Pattern ν k :=
  (List.range dict.numEntries).foldl (c.better dict bytes)
    (c.getPattern bytes (toDictionaryEntry 0) (-1))

/-- Push into the dictionary, if the pattern asks for it. -/
def allocate (pattern : Pattern ν k) (data : Entry k) : Option (Dictionary k) :=
  if pattern.allocate then c.addToDictionary dict data else some dict

def compressValue (data : BitVec (8 * k)) : Option (Pattern ν k × Dictionary k) :=
  let bytes := toDictionaryEntry data
  let pattern := c.bestPattern dict bytes
  (c.allocate dict pattern bytes).map fun dict => (pattern, dict)

variable (beyond : ℕ → Entry k)

def decompressValue (dict : Dictionary k) (pattern : Pattern ν k) :
    Option (BitVec (8 * k) × Dictionary k) :=
  let location := pattern.getMatchLocation
  let data := pattern.decompress (dict.dictionary.getD location (beyond location))
  (c.allocate dict pattern data).map fun dict => (fromDictionaryEntry data, dict)

/-- The loop of `compress` over the chunks. -/
def compressChunks : Dictionary k → CompData ν k → List (BitVec (8 * k)) →
    Option (CompData ν k × Dictionary k)
  | dict, comp, [] => some (comp, dict)
  | dict, comp, value :: chunks =>
    (c.compressValue dict value).bind fun (pattern, dict) =>
      compressChunks dict (c.addEntry comp pattern) chunks

/-- `Base::toChunks`, for chunks of `k` bytes. -/
def toChunks (data : List (BitVec 64)) : List (BitVec 64) :=
  let numChunksPer64 := 64 / (8 * k)
  (List.range (c.blkSize * 8 / (8 * k))).map fun i =>
    let start := i % numChunksPer64
    bits (data.getD (i / numChunksPer64) 0) ((start + 1) * (8 * k) - 1) (start * (8 * k))

/-- `Base::fromChunks` -/
def fromChunks (chunks : List (BitVec 64)) : List (BitVec 64) :=
  let numChunksPer64 := 64 / (8 * k)
  (List.range chunks.length).foldl (fun data i =>
    let start := i % numChunksPer64
    data.modify (i / numChunksPer64) fun word =>
      insertBits word ((start + 1) * (8 * k) - 1) (start * (8 * k)) (chunks.getD i 0))
    (List.replicate (c.blkSize / 8) 0)

/-- `Base::compress`, with `compress` of the compressor for the chunks.  Too large a
result counts as the size of the block. -/
def compress (_ : Dictionary k) (data : List (BitVec 64)) :
    Option (CompData ν k × Dictionary k) := do
  let dict ← c.resetDictionary
  let (comp, dict) ← c.compressChunks dict {} ((c.toChunks data).map fun v => v.setWidth (8 * k))
  let size := c.finalSize dict comp.size
  some ({ comp with size := if c.sizeThreshold * 8 < size then c.blkSize * 8 else size }, dict)

/-- The loop of `decompress` over the patterns. -/
def decompressValues :
    Dictionary k → List (Pattern ν k) → Option (List (BitVec (8 * k)) × Dictionary k) :=
  Codec.codeAll (c.decompressValue beyond)

/-- Concatenate the decompressed values. -/
def concatenate (values : List (BitVec (8 * k))) : List (BitVec 64) :=
  (List.range (c.blkSize / 8)).map fun i =>
    let valuesPerEntry := 8 / k
    Digits.place 64 fun j : Fin valuesPerEntry => values.getD (valuesPerEntry * i + j) 0

def decompress (_ : Dictionary k) (comp : CompData ν k) :
    Option (List (BitVec 64) × Dictionary k) := do
  let dict ← c.resetDictionary
  let (values, dict) ← c.decompressValues beyond dict comp.entries
  some (c.concatenate values, dict)

end Compressor

end Compression
