/-
# Compressed super blocks

`mem/cache/tags/super_blk.cc` and `mem/cache/tags/compressed_tags.cc`, with the allocation and
the size change of `mem/cache/base.cc`.  The blocks of a super block share the room of one
uncompressed block; how many may be in it is bounded by its compression factor, which is
computed from the size of the first of them and rounded up to a power of two.
-/
import Gem5.Bitfield
import Gem5.Run

open Function Finset Nat

namespace CompressedTags

/-- `alignToPowerOfTwo` of base/bitfield.hh. -/
def alignToPowerOfTwo (val : BitVec 64) : BitVec 64 :=
  let val := val - 1
  let val := val ||| val >>> 1
  let val := val ||| val >>> 2
  let val := val ||| val >>> 4
  let val := val ||| val >>> 8
  let val := val ||| val >>> 16
  let val := val ||| val >>> 32
  val + 1

structure Params where
  blkSize : ℕ
  numBlocksPerSector : ℕ
  /-- The division of doubles by `calculateCompressionFactor` is exact. -/
  exact : 8 * blkSize < 2 ^ 53
  replaceExpansions : Bool
  moveContractions : Bool

structure CompressionBlk where
  valid : Bool
  size : ℕ
  compressed : Bool

/-- A super block; its counters are bytes. -/
structure SuperBlk (P : Params) where
  tag : ℕ
  blks : Fin P.numBlocksPerSector → CompressionBlk
  validCounter : ℕ
  compressionFactor : ℕ

variable {P : Params}

/-- `SuperBlk::calculateCompressionFactor`. -/
def calculateCompressionFactor (P : Params) (size : ℕ) : ℕ :=
  let blkSizeBits := 8 * P.blkSize
  let compressionFactor :=
    if blkSizeBits < size then 1
    else if size = 0 then blkSizeBits
    else (alignToPowerOfTwo (BitVec.ofNat 64 (blkSizeBits / size))).toNat
  min compressionFactor P.numBlocksPerSector % 256

namespace SuperBlk

def init : SuperBlk P := ⟨0, fun _ => ⟨false, 0, false⟩, 0, 1⟩

variable (sb : SuperBlk P) (i : Fin P.numBlocksPerSector)

/-- The block at an offset changes. -/
def setBlk (blk : CompressionBlk) : SuperBlk P := { sb with blks := update sb.blks i blk }

/-- `SuperBlk::isCompressed`: the bit of the first valid block that is not ignored. -/
def isCompressed (ignored : Option (Fin P.numBlocksPerSector)) : Bool :=
  match (List.finRange P.numBlocksPerSector).find? fun j =>
    (sb.blks j).valid && some j != ignored with
  | some j => (sb.blks j).compressed
  | none => true

def canCoAllocate (compressedSize : ℕ) : Bool :=
  sb.validCounter < sb.compressionFactor &&
    compressedSize ≤ 8 * P.blkSize / sb.compressionFactor

/-- `CompressionBlk::setSizeBits`, with its assertion. -/
def setSizeBits (size : ℕ) : Option (SuperBlk P) :=
  let factor := calculateCompressionFactor P size
  if 1 ≤ sb.validCounter then
    let sb := if sb.validCounter ≤ 1 then { sb with compressionFactor := factor } else sb
    let compressed :=
      if sb.validCounter = 1 then factor != 1 else sb.isCompressed (some i)
    some (sb.setBlk i { sb.blks i with size, compressed })
  else none

/-- `CompressionBlk::invalidate`; with its last block the super block becomes invalid. -/
def invalidate : SuperBlk P :=
  let sb := sb.setBlk i { sb.blks i with valid := false, compressed := false }
  let counter := (sb.validCounter + 255) % 256
  { sb with
    validCounter := counter
    compressionFactor := if counter = 0 then 1 else sb.compressionFactor }

/-- The blocks that are valid. -/
def valid : Finset (Fin P.numBlocksPerSector) := {j | (sb.blks j).valid = true}

/-- Valid blocks are evicted. -/
def evict (blks : List (Fin P.numBlocksPerSector)) : SuperBlk P := blks.foldl invalidate sb

/-- A block becomes valid, for the tag that the super block then has. -/
def insert (tag : ℕ) : SuperBlk P :=
  { (sb.setBlk i { sb.blks i with valid := true }) with
    tag := if sb.validCounter = 0 then tag else sb.tag
    validCounter := (sb.validCounter + 1) % 256 }

end SuperBlk

/-- The super blocks of a tag store. -/
abbrev Tags (S : Type) (P : Params) := S → SuperBlk P

/-- A block is found by its super block and its offset there; `entries` are the super blocks
its address may be in and `victim` is the one the replacement policy chooses.  A block that
is `busy` cannot be evicted. -/
inductive Action (S : Type) (P : Params)
  | insert (tag : ℕ) (offset : Fin P.numBlocksPerSector) (size : ℕ) (entries : List S) (victim : S)
      (busy : S → Fin P.numBlocksPerSector → Bool)
  | invalidate (s : S) (offset : Fin P.numBlocksPerSector)
  | resize (s : S) (offset : Fin P.numBlocksPerSector) (size : ℕ) (entries : List S) (victim : S)
      (busy : S → Fin P.numBlocksPerSector → Bool)

variable {S : Type} [DecidableEq S]

section

variable (t : Tags S P)

/-- `CompressedTags::findVictim`: a super block, and whether it is a co-allocation. -/
def findVictim (tag : ℕ) (offset : Fin P.numBlocksPerSector) (size : ℕ)
    (entries : List S) (victim : S) : Option (S × Bool) :=
  match entries.find? fun s => (t s).validCounter != 0 && (t s).tag == tag &&
      !((t s).blks offset).valid && (t s).isCompressed none && (t s).canCoAllocate size with
  | some s => some (s, true)
  | none => if entries = [] then none else some (victim, false)

/-- `BaseCache::handleEvictions`. -/
def handleEvictions (s : S) (blks : List (Fin P.numBlocksPerSector))
    (busy : S → Fin P.numBlocksPerSector → Bool) : Option (Tags S P) :=
  if blks.any (busy s) then none else some (update t s ((t s).evict blks))

/-- The valid blocks of a super block, without one of them. -/
def others (s : S) (kept : Option (Fin P.numBlocksPerSector)) : List (Fin P.numBlocksPerSector) :=
  (List.finRange P.numBlocksPerSector).filter fun j => ((t s).blks j).valid && some j != kept

/-- The block gets its size. -/
def setSize (s : S) (offset : Fin P.numBlocksPerSector) (size : ℕ) : Option (Tags S P) :=
  ((t s).setSizeBits offset size).map (update t s)

/-- `BaseCache::allocateBlock`. -/
def allocateBlock (tag : ℕ) (offset : Fin P.numBlocksPerSector) (size : ℕ)
    (entries : List S) (victim : S) (busy : S → Fin P.numBlocksPerSector → Bool) :
    Option (Tags S P) :=
  match findVictim t tag offset size entries victim with
  | none => some t
  | some (s, coAllocation) =>
    match handleEvictions t s (if coAllocation then [] else others t s none) busy with
    | none => some t
    | some t => setSize (update t s ((t s).insert offset tag)) s offset size

/-- The block moves to an invalid one at the same offset of another super block. -/
def moveBlock (src dst : S) (offset : Fin P.numBlocksPerSector) : Option (Tags S P) :=
  if ((t dst).blks offset).valid then none
  else
    let t := update t dst ((t dst).insert offset (t src).tag)
    some (update t src ((t src).invalidate offset))

/-- `BaseCache::updateCompressionData`; a block that cannot change its size is invalidated by
the callers. -/
def updateCompressionData (s : S) (offset : Fin P.numBlocksPerSector) (size : ℕ)
    (entries : List S) (victim : S) (busy : S → Fin P.numBlocksPerSector → Bool) :
    Option (Tags S P) :=
  let failed := some (update t s ((t s).invalidate offset))
  -- `checkExpansionContraction`
  let expansion := calculateCompressionFactor P size < (t s).compressionFactor
  let contraction :=
    (t s).compressionFactor < calculateCompressionFactor P size && P.moveContractions
  if expansion || contraction then
    if P.replaceExpansions || contraction then
      match findVictim t (t s).tag offset size entries victim with
      | none => failed
      | some (dst, coAllocation) =>
        if dst = s then
          match handleEvictions t s (others t s (some offset)) busy with
          | none => failed
          | some t => setSize t s offset size
        else
          match handleEvictions t dst (if coAllocation then [] else others t dst none) busy with
          | none => failed
          | some t => (moveBlock t s dst offset).bind fun t => setSize t dst offset size
    else
      match handleEvictions t s (others t s (some offset)) busy with
      | none => failed
      | some t => setSize t s offset size
  else setSize t s offset size

def step : Action S P → Option (Tags S P)
  | .insert tag offset size entries victim busy =>
    allocateBlock t tag offset size entries victim busy
  | .invalidate s offset => some (update t s ((t s).invalidate offset))
  | .resize s offset size entries victim busy =>
    updateCompressionData t s offset size entries victim busy

end

def init (S : Type) (P : Params) : Tags S P := fun _ => SuperBlk.init

/-! ## The room of a super block -/

/-- The factor of a size is not rounded up. -/
def Exact (P : Params) (size : ℕ) : Prop :=
  8 * P.blkSize < size ∨ size = 0 ∨ isPowerOf2 (8 * P.blkSize / size) ∨
    P.numBlocksPerSector ≤ 8 * P.blkSize / size

instance (size : ℕ) : Decidable (Exact P size) := inferInstanceAs (Decidable (_ ∨ _ ∨ _ ∨ _))

theorem alignToPowerOfTwo_two_pow :
    ∀ k : Fin 64, (alignToPowerOfTwo (BitVec.ofNat 64 (2 ^ k.val))).toNat = 2 ^ k.val := by
  decide +kernel

/-- That many blocks of the size have room. -/
theorem mul_calculateCompressionFactor_le {size : ℕ} (h : Exact P size) :
    calculateCompressionFactor P size ≤ 1 ∨
      calculateCompressionFactor P size * size ≤ 8 * P.blkSize := by
  have hmod : calculateCompressionFactor P size ≤ min (if 8 * P.blkSize < size then 1
      else if size = 0 then 8 * P.blkSize
      else (alignToPowerOfTwo (BitVec.ofNat 64 (8 * P.blkSize / size))).toNat)
      P.numBlocksPerSector := mod_le ..
  by_cases hlarge : 8 * P.blkSize < size
  · left
    rw [if_pos hlarge] at hmod
    exact hmod.trans (min_le_left ..)
  by_cases hzero : size = 0
  · right
    rw [hzero]
    exact zero_le _
  right
  have hdiv : 8 * P.blkSize / size * size ≤ 8 * P.blkSize := div_mul_le_self ..
  refine le_trans (mul_le_mul_right size (hmod.trans ?_)) hdiv
  rw [if_neg hlarge, if_neg hzero]
  rcases h with h | h | h | h
  · exact absurd h hlarge
  · exact absurd h hzero
  · obtain ⟨e, he⟩ := (isPowerOf2_iff _).mp h
    have hlt : e < 64 := by
      have hle := div_le_self (8 * P.blkSize) size
      have hexact := P.exact
      rw [he] at hle
      exact (Nat.pow_lt_pow_iff_right (by decide)).mp (hle.trans_lt (hexact.trans (by decide)))
    rw [he, alignToPowerOfTwo_two_pow ⟨e, hlt⟩]
    exact min_le_left ..
  · exact (min_le_right ..).trans h

namespace SuperBlk

variable {sb : SuperBlk P} {i : Fin P.numBlocksPerSector} {size : ℕ}

theorem mem_valid {j : Fin P.numBlocksPerSector} : j ∈ sb.valid ↔ (sb.blks j).valid = true := by
  simp [valid]

theorem valid_setBlk (blk : CompressionBlk) :
    (sb.setBlk i blk).valid = if blk.valid then Insert.insert i sb.valid else sb.valid.erase i := by
  ext j
  rw [mem_valid, setBlk]
  by_cases hj : j = i
  · subst hj
    cases hvalid : blk.valid <;> simp [hvalid]
  · cases hvalid : blk.valid <;> simp [hj, mem_valid]

/-- A block of the size has its share of the room. -/
def Fits (sb : SuperBlk P) (size : ℕ) : Prop :=
  sb.compressionFactor ≤ 1 ∨ sb.compressionFactor * size ≤ 8 * P.blkSize

/-- The valid blocks are counted, and those that `p` holds of have their share. -/
structure Counted (sb : SuperBlk P) (p : Fin P.numBlocksPerSector → Prop) : Prop where
  counter : sb.validCounter = sb.valid.card
  byte : sb.compressionFactor < 256
  shared : 2 ≤ sb.valid.card → sb.valid.card ≤ sb.compressionFactor
  fits : ∀ j ∈ sb.valid, p j → sb.Fits (sb.blks j).size

/-- The invariant of a super block. -/
abbrev Ok (sb : SuperBlk P) : Prop := sb.Counted fun _ => True

theorem Ok.counted (h : sb.Ok) (p : Fin P.numBlocksPerSector → Prop) : sb.Counted p :=
  { h with fits := fun j hj _ => h.fits j hj trivial }

theorem ok_init : (init : SuperBlk P).Ok := by
  refine ⟨by simp [init, valid], by simp [init], ?_, ?_⟩ <;> simp [init, valid]

theorem Ok.room (h : sb.Ok) (hmany : 1 < sb.valid.card) :
    ∑ j ∈ sb.valid, (sb.blks j).size ≤ 8 * P.blkSize := by
  have hshared := h.shared hmany
  have hshare : ∀ j ∈ sb.valid, sb.compressionFactor * (sb.blks j).size ≤ 8 * P.blkSize := by
    intro j hj
    exact (h.fits j hj trivial).resolve_left (by omega)
  have hsum : sb.compressionFactor * ∑ j ∈ sb.valid, (sb.blks j).size ≤
      sb.compressionFactor * (8 * P.blkSize) :=
    calc sb.compressionFactor * ∑ j ∈ sb.valid, (sb.blks j).size
        = ∑ j ∈ sb.valid, sb.compressionFactor * (sb.blks j).size := mul_sum ..
      _ ≤ sb.valid.card • (8 * P.blkSize) := sum_le_card_nsmul _ _ _ hshare
      _ = sb.valid.card * (8 * P.blkSize) := smul_eq_mul ..
      _ ≤ sb.compressionFactor * (8 * P.blkSize) := mul_le_mul_right _ hshared
  exact le_of_mul_le_mul_left hsum (by omega)

theorem valid_invalidate : (sb.invalidate i).valid = sb.valid.erase i := valid_setBlk _

theorem Ok.invalidate (h : sb.Ok) (hi : i ∈ sb.valid) : (sb.invalidate i).Ok := by
  obtain ⟨hcounter, hbyte, hshared, hfits⟩ := h
  have hcard := card_erase_of_mem hi
  have hpos := card_pos.mpr ⟨i, hi⟩
  have hcounter' : (sb.validCounter + 255) % 256 = (sb.invalidate i).valid.card := by
    rw [valid_invalidate, hcard]
    omega
  have hfactor : (sb.invalidate i).compressionFactor =
      if (sb.invalidate i).valid.card = 0 then 1 else sb.compressionFactor := by
    rw [← hcounter']
    rfl
  refine ⟨hcounter', ?_, ?_, ?_⟩
  · rw [hfactor]
    split <;> omega
  · intro hmany
    rw [hfactor, if_neg (by omega)]
    omega
  · intro j hj _
    have hne : (sb.invalidate i).valid.card ≠ 0 := card_ne_zero_of_mem hj
    rw [valid_invalidate, mem_erase] at hj
    rw [Fits, hfactor, if_neg hne]
    have hsize : ((sb.invalidate i).blks j).size = (sb.blks j).size :=
      congrArg _ (update_of_ne hj.1 ..)
    rw [hsize]
    exact hfits j hj.2 trivial

/-- Evicted blocks are no longer valid. -/
theorem Ok.evict {blks : List (Fin P.numBlocksPerSector)} (h : sb.Ok) (hnodup : blks.Nodup)
    (hvalid : ∀ j ∈ blks, j ∈ sb.valid) :
    (sb.evict blks).Ok ∧ (sb.evict blks).valid = sb.valid \ blks.toFinset := by
  induction blks generalizing sb with
  | nil => exact ⟨h, by simp [SuperBlk.evict]⟩
  | cons j blks ih =>
    obtain ⟨hj, hnodup⟩ := List.nodup_cons.mp hnodup
    have hrest : ∀ k ∈ blks, k ∈ (sb.invalidate j).valid := by
      intro k hk
      rw [valid_invalidate, mem_erase]
      exact ⟨fun heq => hj (heq ▸ hk), hvalid k (List.mem_cons_of_mem j hk)⟩
    obtain ⟨hok, heq⟩ := ih (h.invalidate (hvalid j List.mem_cons_self)) hnodup hrest
    refine ⟨hok, ?_⟩
    change ((sb.invalidate j).evict blks).valid = _
    rw [heq, valid_invalidate, List.toFinset_cons, sdiff_insert, erase_sdiff_comm]

/-- A block is inserted next to others, or alone. -/
theorem Ok.insert (h : sb.Ok) (tag : ℕ) (hi : i ∉ sb.valid)
    (hroom : sb.valid.card < sb.compressionFactor ∨ sb.valid = ∅) :
    (sb.insert i tag).Counted (· ≠ i) ∧ i ∈ (sb.insert i tag).valid ∧
      (sb.insert i tag).valid.card = sb.valid.card + 1 := by
  obtain ⟨hcounter, hbyte, hshared, hfits⟩ := h
  have hvalid : (sb.insert i tag).valid = Insert.insert i sb.valid := valid_setBlk _
  have hcard := card_insert_of_notMem hi
  refine ⟨⟨?_, hbyte, ?_, ?_⟩, by rw [hvalid]; exact mem_insert_self .., by rw [hvalid, hcard]⟩
  · rw [hvalid, hcard, ← hcounter]
    apply mod_eq_of_lt
    rcases hroom with hroom | hroom
    · omega
    · rw [hcounter, hroom, card_empty]
      omega
  · intro hmany
    rw [hvalid, hcard] at hmany ⊢
    rcases hroom with hroom | hroom
    · exact hroom
    · rw [hroom, card_empty] at hmany
      omega
  · intro j hj hne
    rw [hvalid, mem_insert] at hj
    have hsize : ((sb.insert i tag).blks j).size = (sb.blks j).size :=
      congrArg _ (update_of_ne hne ..)
    rw [hsize]
    exact hfits j (hj.resolve_left hne) trivial

/-- A block gets a size that has its share under the new factor. -/
theorem Counted.resized (h : sb.Counted (· ≠ i)) (hi : i ∈ sb.valid) {factor : ℕ}
    {compressed : Bool} {sb' : SuperBlk P}
    (hsb' : sb' = ({ sb with compressionFactor := factor } : SuperBlk P).setBlk i
      { sb.blks i with size, compressed })
    (hbyte : factor < 256) (hfactor : 2 ≤ sb.valid.card → factor = sb.compressionFactor)
    (hsize : factor ≤ 1 ∨ factor * size ≤ 8 * P.blkSize) : sb'.Ok ∧ sb'.valid = sb.valid := by
  have hvalid : sb'.valid = sb.valid := by
    rw [hsb', valid_setBlk, if_pos (mem_valid.mp hi)]
    exact insert_eq_of_mem hi
  refine ⟨?_, hvalid⟩
  subst hsb'
  refine ⟨h.counter.trans (by rw [hvalid]), hbyte, ?_, ?_⟩ <;> rw [hvalid]
  · intro hmany
    exact (h.shared hmany).trans_eq (hfactor hmany).symm
  · intro j hj _
    by_cases hne : j = i
    · subst hne
      change factor ≤ 1 ∨ factor * (update sb.blks j _ j).size ≤ _
      rw [update_self]
      exact hsize
    · have hmany : 2 ≤ sb.valid.card := one_lt_card.mpr ⟨j, hj, i, hi, hne⟩
      change factor ≤ 1 ∨ factor * (update sb.blks i _ j).size ≤ _
      rw [update_of_ne hne, hfactor hmany]
      exact h.fits j hj hne

/-- `setSizeBits` for a size that is exact and, next to others, has its share of the room. -/
theorem Counted.setSizeBits (h : sb.Counted (· ≠ i)) (hi : i ∈ sb.valid) (hexact : Exact P size)
    (hroom : 2 ≤ sb.valid.card → sb.compressionFactor * size ≤ 8 * P.blkSize) :
    ∃ sb', sb.setSizeBits i size = some sb' ∧ sb'.Ok ∧ sb'.valid = sb.valid := by
  have hcounter := h.counter
  have hpos := card_pos.mpr ⟨i, hi⟩
  rw [SuperBlk.setSizeBits, if_pos (by omega)]
  refine ⟨_, rfl, ?_⟩
  by_cases halone : sb.validCounter ≤ 1
  · rw [if_pos halone]
    exact h.resized hi rfl (mod_lt _ (by decide)) (by omega) (mul_calculateCompressionFactor_le hexact)
  · rw [if_neg halone]
    exact h.resized hi rfl h.byte (fun _ => rfl) (.inr (hroom (by omega)))

end SuperBlk

/-! ## The tag store -/

/-- The invariant of a tag store. -/
def Inv (t : Tags S P) : Prop := ∀ s, (t s).Ok

variable {t : Tags S P} {s : S} {i : Fin P.numBlocksPerSector} {size : ℕ}

theorem Inv.update (h : Inv t) {sb : SuperBlk P} (hsb : sb.Ok) : Inv (update t s sb) :=
  forall_update_iff t (p := fun _ sb => sb.Ok) |>.mpr ⟨hsb, fun x _ => h x⟩

variable {busy : S → Fin P.numBlocksPerSector → Bool} {t' : Tags S P}

/-- After an eviction only the kept block of the super block is valid. -/
theorem Inv.evicted (h : Inv t) {kept : Option (Fin P.numBlocksPerSector)}
    (heq : handleEvictions t s (others t s kept) busy = some t') :
    Inv t' ∧ (∀ s', s' ≠ s → t' s' = t s') ∧
      ∀ j, j ∈ (t' s).valid ↔ j ∈ (t s).valid ∧ some j = kept := by
  unfold handleEvictions at heq
  split at heq
  · cases heq
  cases heq
  have hmem : ∀ j, j ∈ others t s kept ↔ j ∈ (t s).valid ∧ some j ≠ kept := by
    simp [others, SuperBlk.mem_valid]
  have hnodup : (others t s kept).Nodup := (List.nodup_finRange _).filter _
  obtain ⟨hok, hvalid⟩ := (h s).evict hnodup fun j hj => ((hmem j).mp hj).1
  refine ⟨h.update hok, fun s' hs => update_of_ne hs .., fun j => ?_⟩
  rw [update_self, hvalid, mem_sdiff, List.mem_toFinset]
  have := hmem j
  tauto

/-- The block of a super block gets its size, all other super blocks being in order. -/
theorem setSize_spec (hother : ∀ s', s' ≠ s → (t s').Ok) (h : (t s).Counted (· ≠ i))
    (hi : i ∈ (t s).valid) (hexact : Exact P size)
    (hroom : 2 ≤ (t s).valid.card → (t s).compressionFactor * size ≤ 8 * P.blkSize) :
    ∃ t', setSize t s i size = some t' ∧ Inv t' := by
  obtain ⟨sb, hsb, hok, -⟩ := h.setSizeBits hi hexact hroom
  exact ⟨update t s sb, by rw [setSize, hsb]; rfl, (forall_update_iff t _).mpr ⟨hok, hother⟩⟩

variable {entries : List S} {victim : S}

/-- The victim has room for the block, next to others or alone. -/
theorem Inv.place (h : Inv t) {tag : ℕ} {d : S} {co : Bool}
    (hfind : findVictim t tag i size entries victim = some (d, co))
    (hevict : handleEvictions t d (if co then [] else others t d none) busy = some t') :
    Inv t' ∧ (∀ s', s' ≠ d → t' s' = t s') ∧ i ∉ (t' d).valid ∧
      ((t' d).valid.card < (t' d).compressionFactor ∧
          (t' d).compressionFactor * size ≤ 8 * P.blkSize ∨ (t' d).valid = ∅) := by
  unfold findVictim at hfind
  split at hfind
  · next found hfound =>
      obtain ⟨rfl, rfl⟩ : found = d ∧ true = co := by simpa using hfind
      have hsame : t' = t := by
        simpa [handleEvictions, SuperBlk.evict] using hevict.symm
      have htest := List.find?_some hfound
      simp only [SuperBlk.canCoAllocate, Bool.and_eq_true, Bool.not_eq_true', decide_eq_true_eq]
        at htest
      obtain ⟨⟨⟨⟨-, -⟩, hfree⟩, -⟩, hcount, hsize⟩ := htest
      rw [hsame]
      refine ⟨h, fun _ _ => rfl, by simp [SuperBlk.mem_valid, hfree], .inl ⟨?_, ?_⟩⟩
      · rwa [← (h found).counter]
      · exact (mul_le_mul_left _ hsize).trans (mul_div_le ..)
  · split at hfind
    · cases hfind
    obtain ⟨rfl, rfl⟩ : victim = d ∧ false = co := by simpa using hfind
    obtain ⟨hinv, hother, hvalid⟩ := h.evicted hevict
    have hempty : (t' victim).valid = ∅ := by
      ext j
      simp [hvalid]
    exact ⟨hinv, hother, by simp [hempty], .inr hempty⟩

/-- A block is put in its place and gets its size. -/
theorem Inv.insert (h : Inv t) (tag : ℕ) (hexact : Exact P size) (hi : i ∉ (t s).valid)
    (hroom : (t s).valid.card < (t s).compressionFactor ∧
      (t s).compressionFactor * size ≤ 8 * P.blkSize ∨ (t s).valid = ∅)
    (hs : t' s = (t s).insert i tag) (hother : ∀ s', s' ≠ s → (t' s').Ok) :
    ∃ t'', setSize t' s i size = some t'' ∧ Inv t'' := by
  obtain ⟨hcounted, hmem, hcard⟩ := (h s).insert tag hi (hroom.imp And.left id)
  rw [← hs] at hcounted hmem hcard
  refine setSize_spec hother hcounted hmem hexact fun hmany => ?_
  have hfactor : (t' s).compressionFactor = (t s).compressionFactor := by
    rw [hs]
    rfl
  rw [hfactor]
  rcases hroom with hroom | hroom
  · exact hroom.2
  · rw [hcard, hroom, card_empty] at hmany
    omega

/-- Sizes are exact, and a block that is invalidated or changes its size is valid.  All sizes
are, so runs are excluded too in which a block with another size never shares its super
block. -/
def Allowed (t : Tags S P) : Action S P → Prop
  | .insert _ _ size _ _ _ => Exact P size
  | .invalidate s i => ((t s).blks i).valid = true
  | .resize s i size _ _ _ => ((t s).blks i).valid = true ∧ Exact P size

instance (t : Tags S P) : (a : Action S P) → Decidable (Allowed t a)
  | .insert _ _ size _ _ _ => inferInstanceAs (Decidable (Exact P size))
  | .invalidate s i => inferInstanceAs (Decidable (((t s).blks i).valid = true))
  | .resize s i size _ _ _ =>
    inferInstanceAs (Decidable (((t s).blks i).valid = true ∧ Exact P size))

theorem Inv.allocated (h : Inv t) (hexact : Exact P size) {tag : ℕ} :
    ∃ t', allocateBlock t tag i size entries victim busy = some t' ∧ Inv t' := by
  unfold allocateBlock
  split
  · exact ⟨t, rfl, h⟩
  · next d co hfind =>
      split
      · exact ⟨t, rfl, h⟩
      · next t1 hevict =>
          obtain ⟨hinv, -, hi, hroom⟩ := h.place hfind hevict
          refine hinv.insert tag hexact hi hroom (update_self ..) fun s' hs => ?_
          rw [update_of_ne hs]
          exact hinv s'

/-- The block changes its size after all others of its super block are evicted. -/
theorem Inv.resizeAlone (h : Inv t) (hi : i ∈ (t s).valid) (hexact : Exact P size)
    (hevict : handleEvictions t s (others t s (some i)) busy = some t') :
    ∃ t'', setSize t' s i size = some t'' ∧ Inv t'' := by
  obtain ⟨hinv, -, hvalid⟩ := h.evicted hevict
  have hsingle : (t' s).valid = {i} := by
    ext j
    rw [hvalid, mem_singleton, Option.some.injEq]
    exact ⟨And.right, fun hj => ⟨hj ▸ hi, hj⟩⟩
  refine setSize_spec (fun s' _ => hinv s') ((hinv s).counted _) (by simp [hsingle]) hexact
    fun hmany => ?_
  rw [hsingle, card_singleton] at hmany
  omega

theorem Inv.updated (h : Inv t) (hi : i ∈ (t s).valid) (hexact : Exact P size) :
    ∃ t', updateCompressionData t s i size entries victim busy = some t' ∧ Inv t' := by
  have hfailed : ∃ t', some (Function.update t s ((t s).invalidate i)) = some t' ∧ Inv t' :=
    ⟨_, rfl, h.update ((h s).invalidate hi)⟩
  dsimp only [updateCompressionData]
  split
  · split
    · split
      · exact hfailed
      · next d co hfind =>
          split
          · split
            · exact hfailed
            · next hevict => exact h.resizeAlone hi hexact hevict
          · next hne =>
              split
              · exact hfailed
              · next t1 hevict =>
                  obtain ⟨hinv, hother, hfree, hroom⟩ := h.place hfind hevict
                  have hsrc : t1 s = t s := hother s (Ne.symm hne)
                  rw [moveBlock, if_neg (by rwa [SuperBlk.mem_valid] at hfree)]
                  refine hinv.insert (t1 s).tag hexact hfree hroom ?_ fun s' hs' => ?_
                  · rw [update_of_ne hne, update_self]
                  · rw [update_of_ne (Ne.symm hne)]
                    by_cases hs : s' = s
                    · subst hs
                      rw [update_self, hsrc]
                      exact (h s').invalidate hi
                    · rw [update_of_ne hs, update_of_ne hs']
                      exact hinv s'
    · split
      · exact hfailed
      · next hevict => exact h.resizeAlone hi hexact hevict
  · next hkept =>
      -- the factor of the size is at least that of the super block
      refine setSize_spec (fun s' _ => h s') ((h s).counted _) hi hexact fun hmany => ?_
      have hshared := (h s).shared hmany
      have hfactor : (t s).compressionFactor ≤ calculateCompressionFactor P size := by
        simp only [Bool.or_eq_true, decide_eq_true_eq, not_or, not_lt] at hkept
        exact hkept.1
      apply (mul_le_mul_right size hfactor).trans
      exact (mul_calculateCompressionFactor_le hexact).resolve_left (by omega)

theorem Inv.step (h : Inv t) (a : Action S P) (ha : Allowed t a) :
    ∃ t', step t a = some t' ∧ Inv t' := by
  cases a with
  | insert tag i size entries victim busy => exact h.allocated ha
  | invalidate s i => exact ⟨_, rfl, h.update ((h s).invalidate (SuperBlk.mem_valid.mpr ha))⟩
  | resize s i size entries victim busy =>
    exact h.updated (SuperBlk.mem_valid.mpr ha.1) ha.2

/-- **A super block is never over-committed** when the factors of all sizes are exact: the
blocks that share it fit in the room of one. -/
theorem never_overcommitted {as : List (Action S P)}
    (hallowed : AllowedSteps step Allowed (init S P) as) :
    ∃ t, runSteps step (init S P) as = some t ∧
      ∀ s, 1 < (t s).valid.card → ∑ j ∈ (t s).valid, ((t s).blks j).size ≤ 8 * P.blkSize := by
  obtain ⟨t, hrun, hinv⟩ := AllowedSteps.run (fun _ a h ha => Inv.step h a ha)
    (show Inv (init S P) from fun _ => SuperBlk.ok_init) hallowed
  exact ⟨t, hrun, fun s hs => (hinv s).room hs⟩

/-- Blocks of 64 bytes, four to a super block. -/
def four : Params := ⟨64, 4, by decide, false, false⟩

/-- A block of the super block with tag 7 comes in. -/
def put (offset : Fin 4) (size : ℕ) : Action Unit four :=
  .insert 7 offset size [()] () fun _ _ => false

theorem never_overcommitted_shared : ∃ t, runSteps step (init Unit four)
      [put 0 128, put 1 100, .resize () (0 : Fin 4) 64 [()] () fun _ _ => false] = some t ∧
    ∀ s, 1 < (t s).valid.card → ∑ j ∈ (t s).valid, ((t s).blks j).size ≤ 8 * four.blkSize :=
  never_overcommitted (by decide +kernel)

/-- A block of 170 bits gets the factor 4, and three blocks of 128 bits may join it. -/
theorem overcommitted : ∃ t, runSteps step (init Unit four)
      [put 0 170, put 1 128, put 2 128, put 3 128] = some t ∧
    (t ()).valid.card = 4 ∧ ∑ j ∈ (t ()).valid, ((t ()).blks j).size = 554 ∧
    8 * four.blkSize = 512 :=
  ⟨_, rfl, by decide +kernel, by decide +kernel, by decide⟩

end CompressedTags
