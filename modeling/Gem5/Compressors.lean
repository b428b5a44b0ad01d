/-
# CPack, FPC, FPCD and BaseDelta

The dictionary compressors (mem/cache/compressors/cpack, fpc, fpcd, base_delta): their
patterns in the order of the factory, and what each of them overrides.
-/
import Gem5.DictionaryCompressor

namespace Compression

variable {k : ℕ}

/-- `addToDictionary` of CPack and BaseDelta, with its assertion. -/
def append (dict : Dictionary k) (data : Entry k) (dictionarySize : ℕ) : Option (Dictionary k) :=
  if dict.numEntries < dictionarySize then
    some ⟨dict.dictionary.set dict.numEntries data, dict.numEntries + 1⟩
  else none

/-! ## CPack -/

namespace CPack

/-- CPack's patterns. -/
inductive PatternNumber where
  | ZZZZ | XXXX | MMMM | MMXX | ZZZX | MMMX
  deriving DecidableEq

/-- An entry matches under a mask. -/
def masked (number : PatternNumber) (metadataLength : ℕ) (mask : BitVec 32) :
    PatternClass PatternNumber 4 where
  isPattern := fun bytes dictBytes loc => isMasked loc bytes dictBytes mask
  new := fun bytes loc => maskedPattern number metadataLength loc bytes mask true

/-- A value matches under a mask. -/
def maskedValue (number : PatternNumber) (metadataLength : ℕ) (value mask : BitVec 32) :
    PatternClass PatternNumber 4 where
  isPattern := fun bytes _ _ => isMaskedValue bytes value mask
  new := fun bytes loc => maskedValuePattern number metadataLength loc bytes value mask false

/-- A zero word. -/
def PatternZZZZ := maskedValue .ZZZZ 2 0 0xFFFFFFFF

/-- Any word. -/
def PatternXXXX : PatternClass PatternNumber 4 where
  isPattern := fun _ _ _ => true
  new := fun bytes loc => uncompressedPattern .XXXX 2 loc bytes

/-- A known word. -/
def PatternMMMM := masked .MMMM 6 0xFFFFFFFF

/-- Two known bytes. -/
def PatternMMXX := masked .MMXX 8 0xFFFF0000

/-- Three zero bytes. -/
def PatternZZZX := maskedValue .ZZZX 4 0 0xFFFFFF00

/-- Three known bytes. -/
def PatternMMMX := masked .MMMX 8 0xFFFFFF00

/-- CPack. -/
def compressor (blkSize sizeThreshold dictionarySize : ℕ) : Compressor PatternNumber 4 where
  blkSize := blkSize
  sizeThreshold := sizeThreshold
  dictionarySize := dictionarySize
  classes := [PatternZZZZ, PatternMMMM, PatternZZZX, PatternMMMX, PatternMMXX]
  last := PatternXXXX
  addToDictionary := fun dict data => append dict data dictionarySize

end CPack

/-! ## FPC -/

namespace FPC

/-- FPC's patterns. -/
inductive PatternNumber where
  | ZERO_RUN | SIGN_EXTENDED_4_BITS | SIGN_EXTENDED_1_BYTE | SIGN_EXTENDED_HALFWORD
  | ZERO_PADDED_HALFWORD | SIGN_EXTENDED_TWO_HALFWORDS | REP_BYTES | UNCOMPRESSED
  deriving DecidableEq

/-- A zero word. -/
def ZeroRun : PatternClass PatternNumber 4 where
  isPattern := fun bytes _ _ => isMaskedValue bytes 0 0xFFFFFFFF
  new := fun bytes _ =>
    { maskedValuePattern .ZERO_RUN 3 (-1) bytes 0 0xFFFFFFFF false with zeroRun := some ⟨0, 0⟩ }

/-- `N` bits, extended. -/
def signExtended (number : PatternNumber) (N : ℕ) : PatternClass PatternNumber 4 where
  isPattern := fun bytes _ _ => isSignExtended bytes N
  new := fun bytes _ => signExtendedPattern number 3 bytes N false

/-- 4 bits, extended. -/
def SignExtended4Bits := signExtended .SIGN_EXTENDED_4_BITS 4

/-- A byte, extended. -/
def SignExtended1Byte := signExtended .SIGN_EXTENDED_1_BYTE 8

/-- 16 bits, extended. -/
def SignExtendedHalfword := signExtended .SIGN_EXTENDED_HALFWORD 16

/-- A halfword, then zeros. -/
def ZeroPaddedHalfword : PatternClass PatternNumber 4 where
  isPattern := fun bytes _ _ => isMaskedValue bytes 0 0x0000FFFF
  new := fun bytes _ =>
    maskedValuePattern .ZERO_PADDED_HALFWORD 3 (-1) bytes 0 0x0000FFFF false

attribute [local instance] neZero_two in
/-- Two bytes, each extended. -/
def SignExtendedTwoHalfwords : PatternClass PatternNumber 4 where
  isPattern := fun bytes _ _ =>
    let data := fromDictionaryEntry bytes
    let halfwords (i : Fin 2) : BitVec 16 := Digits.digit 16 data i
    -- the halfword is compared as an `int16_t`, its extension as a `uint16_t`
    let isExtended (i : Fin 2) : Bool :=
      (halfwords i).toInt == ((szext 8 ((halfwords i).signExtend 64)).setWidth 16).toNat
    isExtended 0 && isExtended 1
  new := fun bytes _ =>
    { patternNumber := .SIGN_EXTENDED_TWO_HALFWORDS
      length := 3
      numUnmatchedBits := 16
      matchLocation := -1
      allocate := false
      payload := .twoHalfwords fun i => (fromDictionaryEntry bytes >>> (16 * (i : ℕ))).setWidth 8 }

/-- A byte, repeated. -/
def RepBytes : PatternClass PatternNumber 4 where
  isPattern := fun bytes _ _ => isRepeatedValue bytes 1
  new := fun bytes _ => repeatedValuePattern .REP_BYTES 3 (-1) bytes 1 false

/-- Any word. -/
def Uncompressed : PatternClass PatternNumber 4 where
  isPattern := fun _ _ _ => true
  new := fun bytes _ => uncompressedPattern .UNCOMPRESSED 3 (-1) bytes

/-- What `addEntry` makes of a zero pattern: the first one of a run has the size of
the run, and a run has a maximum length. -/
def markZeroRun (zeroRunSizeBits : ℕ) (entries : List (Pattern PatternNumber 4))
    (pattern : Pattern PatternNumber 4) : Pattern PatternNumber 4 :=
  let sized : Compression.ZeroRun := ⟨0, pattern.length.toNat + zeroRunSizeBits⟩
  match entries.getLast? with
  | none => { pattern with zeroRun := some sized }
  | some back =>
    match back.patternNumber, back.zeroRun with
    | .ZERO_RUN, some run =>
      if run.runLength = (mask zeroRunSizeBits).toNat then { pattern with zeroRun := some sized }
      else { pattern with zeroRun := some ⟨run.runLength + 1, 0⟩ }
    | _, _ => { pattern with zeroRun := some sized }

/-- `FPCCompData::addEntry` -/
def addEntry (zeroRunSizeBits : ℕ) (comp : CompData PatternNumber 4)
    (pattern : Pattern PatternNumber 4) : CompData PatternNumber 4 :=
  if pattern.patternNumber = .ZERO_RUN then
    comp.addEntry (markZeroRun zeroRunSizeBits comp.entries pattern)
  else comp.addEntry pattern

/-- There is no dictionary. -/
def compressor (blkSize sizeThreshold dictionarySize zeroRunSizeBits : ℕ) :
    Compressor PatternNumber 4 where
  blkSize := blkSize
  sizeThreshold := sizeThreshold
  dictionarySize := dictionarySize
  classes := [ZeroRun, SignExtended4Bits, SignExtended1Byte, SignExtendedHalfword,
    ZeroPaddedHalfword, SignExtendedTwoHalfwords, RepBytes]
  last := Uncompressed
  addToDictionary := fun dict _ => some dict
  addEntry := addEntry zeroRunSizeBits

end FPC

/-! ## FPCD -/

namespace FPCD

/-- Bits of a prefix. -/
def prefixSize : ℕ := 4

/-- The last word's place. -/
def previousIndex : ℕ := 1

/-- The place of the one before. -/
def penultimateIndex : ℕ := 0

/-- FPCD's patterns. -/
inductive PatternNumber where
  | ZZZZ | FFFF | MMMMPenultimate | MMMMPrevious | ZZZX | XZZZ | RRRR | MMMXPenultimate
  | MMMXPrevious | ZZXX | ZXZX | FFXX | XXZZ | MMXXPenultimate | MMXXPrevious | XXXX
  deriving DecidableEq

/-- A value matches under a mask. -/
def maskedValue (number : PatternNumber) (value mask : BitVec 32) : PatternClass PatternNumber 4 where
  isPattern := fun bytes _ _ => isMaskedValue bytes value mask
  new := fun bytes loc => maskedValuePattern number prefixSize loc bytes value mask true

/-- The entry of that place matches under a mask. -/
def locatedMasked (number : PatternNumber) (mask : BitVec 32) (location : ℕ) :
    PatternClass PatternNumber 4 where
  isPattern := fun bytes dictBytes loc => isLocatedMasked loc bytes dictBytes mask location
  new := fun bytes loc => maskedPattern number prefixSize loc bytes mask true

/-- A zero word. -/
def PatternZZZZ := maskedValue .ZZZZ 0 0xFFFFFFFF

/-- Only ones. -/
def PatternFFFF := maskedValue .FFFF 0xFFFFFFFF 0xFFFFFFFF

/-- The last word. -/
def PatternMMMMPrevious := locatedMasked .MMMMPrevious 0xFFFFFFFF previousIndex

/-- The word before it. -/
def PatternMMMMPenultimate := locatedMasked .MMMMPenultimate 0xFFFFFFFF penultimateIndex

/-- A low byte. -/
def PatternZZZX := maskedValue .ZZZX 0 0xFFFFFF00

/-- A high byte. -/
def PatternXZZZ := maskedValue .XZZZ 0 0x00FFFFFF

/-- A byte, repeated. -/
def PatternRRRR : PatternClass PatternNumber 4 where
  isPattern := fun bytes _ _ => isRepeatedValue bytes 1
  new := fun bytes loc => repeatedValuePattern .RRRR prefixSize loc bytes 1 true

/-- The last word but for a byte. -/
def PatternMMMXPrevious := locatedMasked .MMMXPrevious 0xFFFFFF00 previousIndex

/-- The one before but for a byte. -/
def PatternMMMXPenultimate := locatedMasked .MMMXPenultimate 0xFFFFFF00 penultimateIndex

/-- A low halfword. -/
def PatternZZXX := maskedValue .ZZXX 0 0xFFFF0000

/-- A byte in each halfword. -/
def PatternZXZX := maskedValue .ZXZX 0 0xFF00FF00

/-- A low halfword after ones. -/
def PatternFFXX := maskedValue .FFXX 0xFFFFFFFF 0xFFFF0000

/-- A high halfword. -/
def PatternXXZZ := maskedValue .XXZZ 0 0x0000FFFF

/-- The last word's high half. -/
def PatternMMXXPrevious := locatedMasked .MMXXPrevious 0xFFFF0000 previousIndex

/-- The high half of the one before. -/
def PatternMMXXPenultimate := locatedMasked .MMXXPenultimate 0xFFFF0000 penultimateIndex

/-- Any word. -/
def PatternXXXX : PatternClass PatternNumber 4 where
  isPattern := fun _ _ _ => true
  new := fun bytes loc => uncompressedPattern .XXXX prefixSize loc bytes

/-- A table of two entries, first in, first out. -/
def addToDictionary (dict : Dictionary 4) (data : Entry 4) : Option (Dictionary 4) :=
  if dict.numEntries = 2 then
    match dict.dictionary[previousIndex]? with
    | some previous =>
      some ⟨(dict.dictionary.set penultimateIndex previous).set previousIndex data,
        dict.numEntries⟩
    | none => none
  else if dict.numEntries < dict.dictionary.length then
    some ⟨dict.dictionary.set dict.numEntries data, dict.numEntries + 1⟩
  else none

/-- FPCD. -/
def compressor (blkSize sizeThreshold dictionarySize : ℕ) : Compressor PatternNumber 4 where
  blkSize := blkSize
  sizeThreshold := sizeThreshold
  dictionarySize := dictionarySize
  classes := [PatternZZZZ, PatternFFFF, PatternMMMMPrevious, PatternMMMMPenultimate, PatternZZZX,
    PatternXZZZ, PatternRRRR, PatternMMMXPrevious, PatternMMMXPenultimate, PatternZZXX,
    PatternZXZX, PatternFFXX, PatternXXZZ, PatternMMXXPrevious, PatternMMXXPenultimate]
  last := PatternXXXX
  addToDictionary := addToDictionary

end FPCD

/-! ## BaseDelta -/

namespace BaseDelta

/-- How many bases there are. -/
def DEFAULT_MAX_NUM_BASES : ℕ := 2

/-- BaseDelta's patterns. -/
inductive PatternNumber where
  | X | M
  deriving DecidableEq

/-- `ceil(log2(DEFAULT_MAX_NUM_BASES))` is 1. -/
def PatternX (deltaSizeBits : ℕ) : PatternClass PatternNumber k where
  isPattern := fun _ _ _ => true
  new := fun bytes loc =>
    uncompressedPattern .X (Nat.clog 2 DEFAULT_MAX_NUM_BASES + deltaSizeBits) loc bytes

/-- A base and a delta. -/
def PatternM (deltaSizeBits : ℕ) : PatternClass PatternNumber k where
  isPattern := fun bytes dictBytes loc => isDelta loc bytes dictBytes deltaSizeBits
  new := fun bytes loc =>
    deltaPattern .M (Nat.clog 2 DEFAULT_MAX_NUM_BASES) loc bytes deltaSizeBits

/-- The bases that were not used count as well; with too many bases the compression
has failed. -/
def finalSize (k blkSize : ℕ) (dict : Dictionary k) (size : ℕ) : ℕ :=
  if DEFAULT_MAX_NUM_BASES < dict.numEntries then blkSize * 8
  else size + 8 * k * (DEFAULT_MAX_NUM_BASES - dict.numEntries)

/-- A base has `k` bytes, and a zero base is always there. -/
def compressor (k deltaSizeBits blkSize sizeThreshold dictionarySize : ℕ) :
    Compressor PatternNumber k where
  blkSize := blkSize
  sizeThreshold := sizeThreshold
  dictionarySize := dictionarySize
  classes := [PatternM deltaSizeBits]
  last := PatternX deltaSizeBits
  addToDictionary := fun dict data => append dict data dictionarySize
  initialEntries := [toDictionaryEntry 0]
  finalSize := finalSize k blkSize

end BaseDelta

end Compression
