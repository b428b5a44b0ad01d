/-
# Chunks of a region

`ChunkGenerator` (base/chunk_generator.hh) cuts a region into chunks that end at
multiples of the chunk size.  The client may grow the current chunk with
`setNext`; the chunk after it then runs up to the next multiple, even if the
region ends before that.

Addresses do not wrap around; `sizeLeft` does when a chunk goes too far.  In the source
`roundUp` wraps near 2^64, in the constructor already for 100 bytes at 2^64 - 3000 in chunks
of 4096; `chunks_tile` asks for a chunk's distance to 2^64.
-/
import Gem5.Bitfield
import Gem5.Run

open List

structure ChunkGenerator where
  curAddr : ℕ
  nextAddr : ℕ
  curSize : ℕ
  nextSize : ℕ
  sizeLeft : ℕ
  chunkSize : ℕ

namespace ChunkGenerator

/-- `roundUp(val, align)` of base/intmath.hh. -/
def roundUp (val align : ℕ) : ℕ :=
  let mask := align - 1
  val + mask - ((val + mask) &&& mask)

/-- The constructor; a chunk size of zero asks for a single chunk. -/
def init (startAddr totalSize chunkSize : ℕ) : ChunkGenerator :=
  let nextAddr :=
    if chunkSize = 0 then startAddr + totalSize
    else
      let nextAddr := roundUp startAddr chunkSize
      min (if startAddr = nextAddr then nextAddr + chunkSize else nextAddr) (startAddr + totalSize)
  let curSize := nextAddr - startAddr
  let sizeLeft := totalSize - curSize
  ⟨startAddr, nextAddr, curSize, min sizeLeft chunkSize, sizeLeft, chunkSize⟩

variable (g : ChunkGenerator)

abbrev done : Prop := g.curSize = 0

abbrev last : Prop := g.sizeLeft = 0

/-- `setNext(next)`, unless one of its two assertions fails. -/
def setNext (next : ℕ) : Option ChunkGenerator :=
  if next < g.nextAddr ∨ g.chunkSize = 0 then none
  else
    let skipping := min (next - g.nextAddr) g.sizeLeft
    let sizeLeft := g.sizeLeft - skipping
    let nextSize := roundUp next g.chunkSize - next
    some { g with
      sizeLeft, curSize := g.curSize + skipping, nextAddr := next
      nextSize := if nextSize = 0 then min sizeLeft g.chunkSize else nextSize }

def next : ChunkGenerator :=
  if g.last then { g with curSize := 0 }
  else
    let sizeLeft := (g.sizeLeft + 2 ^ 64 - g.nextSize) % 2 ^ 64
    { g with
      curAddr := g.nextAddr, curSize := g.nextSize, sizeLeft
      nextAddr := g.nextAddr + g.nextSize, nextSize := min sizeLeft g.chunkSize }

/-! ## The loop of a client -/

inductive Call
  | next
  | setNext (next : ℕ)

/-- The chunks that are done with, the last one first, and whether `setNext` has been used. -/
structure Loop extends ChunkGenerator where
  chunks : List (ℕ × ℕ) := []
  grown : Bool := false

def Loop.step (l : Loop) : Call → Option Loop
  | .next => some ⟨l.next, (l.curAddr, l.curSize) :: l.chunks, l.grown⟩
  | .setNext n => (l.setNext n).map (⟨·, l.chunks, true⟩)

/-- The calls of the loop for a region that ends at `hi`: after `setNext` there is a multiple
of the chunk size up to the end, or nothing is left. -/
def Loop.allowed (hi : ℕ) (l : Loop) : Call → Bool
  | .next => ¬ l.done
  | .setNext n => ¬ l.done ∧ l.nextAddr ≤ n ∧ n ≤ hi ∧ (roundUp n l.chunkSize ≤ hi ∨ n = hi)

/-- Contiguous chunks from `lo` to `hi`, the last one first. -/
inductive Tiles (lo : ℕ) : List (ℕ × ℕ) → ℕ → Prop
  | nil : Tiles lo [] lo
  | cons {chunks : List (ℕ × ℕ)} {a n : ℕ} (h : Tiles lo chunks a) (hn : 0 < n) :
    Tiles lo ((a, n) :: chunks) (a + n)

theorem Tiles.length_le {lo hi : ℕ} {chunks : List (ℕ × ℕ)} (h : Tiles lo chunks hi) :
    lo + chunks.length ≤ hi := by
  induction h with
  | nil => exact le_rfl
  | cons h hn ih =>
    rw [length_cons]
    omega

/-- Inside one aligned chunk of size `c`. -/
def Inside (c : ℕ) (chunk : ℕ × ℕ) : Prop := chunk.1 % c + chunk.2 ≤ c

/-- The chunks go up to the current one, or to the end when the generator is done. -/
structure Covers (lo hi c : ℕ) (l : Loop) : Prop where
  tiles : Tiles lo l.chunks (if l.done then hi else l.curAddr)
  within : ¬ l.done → l.curAddr + l.curSize ≤ hi
  inside : !l.grown → ∀ chunk ∈ l.chunks, Inside c chunk

/-- What is left is between `nextAddr` and the end, and the next chunk fits there. -/
structure Inv (lo hi c : ℕ) (l : Loop) : Prop extends Covers lo hi c l where
  chunkSize : l.chunkSize = c
  left : l.nextAddr + l.sizeLeft = hi
  cur : ¬ l.done → l.curAddr + l.curSize = l.nextAddr
  fits : ¬ l.last → 0 < l.nextSize ∧ l.nextSize ≤ l.sizeLeft
  aligned : !l.grown → Inside c (l.curAddr, l.curSize) ∧ l.nextSize = min l.sizeLeft c ∧
    (¬ l.last → c ∣ l.nextAddr)

variable {lo hi c : ℕ} {l : Loop}

theorem Inv.next (h : Inv lo hi c l) (hc : 0 < c) (hhi : hi < 2 ^ 64) (hcur : ¬ l.done) :
    Inv lo hi c ⟨l.next, (l.curAddr, l.curSize) :: l.chunks, l.grown⟩ := by
  have hleft := h.left
  have htiles := h.tiles
  rw [if_neg hcur] at htiles
  have htiles := htiles.cons (Nat.pos_of_ne_zero hcur)
  rw [h.cur hcur] at htiles
  have hinside : !l.grown → ∀ chunk ∈ (l.curAddr, l.curSize) :: l.chunks, Inside c chunk :=
    fun hg => forall_mem_cons.mpr ⟨(h.aligned hg).1, h.inside hg⟩
  by_cases hlast : l.last
  · have hnext : l.next = { l with curSize := 0 } := if_pos hlast
    rw [hnext]
    refine ⟨⟨?_, absurd rfl, hinside⟩, h.chunkSize, hleft, absurd rfl, h.fits, fun hg => ?_⟩
    · rw [← hleft, hlast]
      exact htiles
    · exact ⟨(Nat.mod_lt _ hc).le, (h.aligned hg).2⟩
  · obtain ⟨hpos, hle⟩ := h.fits hlast
    have hnext : l.next = ⟨l.nextAddr, l.nextAddr + l.nextSize, l.nextSize,
        min (l.sizeLeft - l.nextSize) c, l.sizeLeft - l.nextSize, c⟩ := by
      have hsub : (l.sizeLeft + 2 ^ 64 - l.nextSize) % 2 ^ 64 = l.sizeLeft - l.nextSize := by omega
      rw [ChunkGenerator.next, if_neg hlast, hsub, h.chunkSize]
    rw [hnext]
    refine ⟨⟨?_, fun _ => ?_, hinside⟩, rfl, ?_, fun _ => rfl, fun hne => ?_, fun hg => ?_⟩
    · rwa [if_neg (Nat.ne_of_gt hpos)]
    · exact (Nat.add_le_add_left hle _).trans_eq hleft
    · dsimp only
      omega
    · dsimp only [last] at hne ⊢
      omega
    · obtain ⟨-, hsize, hdvd⟩ := h.aligned hg
      have hdvd := hdvd hlast
      refine ⟨?_, rfl, fun hne => ?_⟩
      · dsimp only [Inside]
        omega
      · rw [show l.nextSize = c by dsimp only [last] at hne; omega]
        exact hdvd.add (dvd_refl c)

theorem Inv.setNext {n : ℕ} (h : Inv lo hi c l) (hc : 0 < c) (hround : n ≤ roundUp n c)
    (hcur : ¬ l.done) (hn : l.nextAddr ≤ n) (hhi : n ≤ hi) (hfits : roundUp n c ≤ hi ∨ n = hi) :
    ∃ g, l.setNext n = some g ∧ Inv lo hi c ⟨g, l.chunks, true⟩ := by
  have hleft := h.left
  have hend := h.cur hcur
  have hskip : min (n - l.nextAddr) l.sizeLeft = n - l.nextAddr := by omega
  have htiles := h.tiles
  rw [if_neg hcur] at htiles
  refine ⟨_, if_neg ?_, ⟨?_, ?_, nofun⟩, h.chunkSize, ?_, ?_, ?_, nofun⟩
  · rw [h.chunkSize]
    omega
  all_goals dsimp only [done, last]
  · rwa [if_neg (by omega)]
  · omega
  · omega
  · omega
  · rw [h.chunkSize]
    split <;> omega

theorem roundUp_spec {e : ℕ} (hc : c = 2 ^ e) (v : ℕ) :
    c ∣ roundUp v c ∧ v ≤ roundUp v c ∧ roundUp v c < v + c := by
  have hpos : 0 < c := hc ▸ Nat.two_pow_pos e
  have hlt := Nat.mod_lt (v + (c - 1)) hpos
  have hround : roundUp v c = v + (c - 1) - (v + (c - 1)) % c := by
    rw [roundUp, hc, Nat.and_two_pow_sub_one_eq_mod]
  rw [hround]
  exact ⟨Nat.dvd_sub_mod _, by omega, by omega⟩

theorem Inv.init {total e : ℕ} (hc : c = 2 ^ e) (htotal : 0 < total) :
    Inv lo (lo + total) c { toChunkGenerator := init lo total c } := by
  -- the first multiple after the start
  obtain ⟨m, hm, ⟨k, hk⟩, hle, hlt⟩ : ∃ m, m = (if lo = roundUp lo c then roundUp lo c + c
      else roundUp lo c) ∧ c ∣ m ∧ lo < m ∧ m ≤ lo + c := by
    obtain ⟨hdvd, hle, hlt⟩ := roundUp_spec hc lo
    refine ⟨_, rfl, ?_⟩
    split
    · exact ⟨hdvd.add (dvd_refl c), by omega, by omega⟩
    · exact ⟨hdvd, by omega, hlt.le⟩
  have hmod : lo % c = lo + c - m := by
    rw [← Nat.add_mod_right, show lo + c = c * k + (lo + c - m) by omega, Nat.mul_add_mod,
      Nat.mod_eq_of_lt (by omega)]
    omega
  have hinit : ChunkGenerator.init lo total c = ⟨lo, min m (lo + total), min m (lo + total) - lo,
      min (total - (min m (lo + total) - lo)) c, total - (min m (lo + total) - lo), c⟩ := by
    rw [ChunkGenerator.init, if_neg (by omega), hm]
  rw [hinit]
  refine ⟨⟨?_, ?_, by simp⟩, rfl, ?_, ?_, ?_, fun _ => ⟨?_, rfl, ?_⟩⟩
  all_goals dsimp only [done, last]
  · rw [if_neg (by omega)]
    exact .nil
  · omega
  · omega
  · omega
  · omega
  · rw [Inside, hmod]
    omega
  · intro hne
    rw [min_eq_left (by omega)]
    exact ⟨k, hk⟩

/-- **The chunks tile the region**, and there are no more of them than bytes. -/
theorem chunks_tile (startAddr totalSize chunkSize : ℕ) (calls : List Call)
    (htotal : 0 < totalSize) (hchunk : isPowerOf2 chunkSize)
    (hwrap : startAddr + totalSize + chunkSize ≤ 2 ^ 64)
    (hcalls : AllowedSteps Loop.step (fun l call => l.allowed (startAddr + totalSize) call)
      { toChunkGenerator := init startAddr totalSize chunkSize } calls) :
    ∃ l, runSteps Loop.step { toChunkGenerator := init startAddr totalSize chunkSize } calls = some l ∧
      Covers startAddr (startAddr + totalSize) chunkSize l ∧ l.chunks.length ≤ totalSize := by
  obtain ⟨e, hc⟩ := (isPowerOf2_iff _).mp hchunk
  have hpos : 0 < chunkSize := hc ▸ Nat.two_pow_pos e
  obtain ⟨l, hrun, hinv⟩ := hcalls.run (by
    rintro l (_ | n) hinv hcall
    · exact ⟨_, rfl, hinv.next hpos (by omega) (of_decide_eq_true hcall)⟩
    · obtain ⟨hcur, hn, hhi, hfits⟩ := of_decide_eq_true hcall
      rw [hinv.chunkSize] at hfits
      obtain ⟨g, hg, hinv⟩ := hinv.setNext hpos (roundUp_spec hc n).2.1 hcur hn hhi hfits
      exact ⟨_, by rw [Loop.step, hg]; rfl, hinv⟩) (Inv.init hc htotal)
  refine ⟨l, hrun, hinv.toCovers, ?_⟩
  have hlength := hinv.tiles.length_le
  have hwithin := hinv.within
  split at hlength <;> omega

/-- A region that starts inside a chunk, and a first chunk that is grown. -/
theorem chunks_tile_grown : ∃ l, runSteps Loop.step { toChunkGenerator := init 4 16 8 }
    [.setNext 12, .next, .next, .next] = some l ∧ Covers 4 20 8 l ∧ l.chunks.length ≤ 16 :=
  chunks_tile 4 16 8 _ (by decide) (by decide) (by decide) (by decide)

/-- Grown by one byte to 9, the chunk is followed by one up to 16, but the region ends at 10. -/
theorem chunk_beyond_end : (init 0 10 8).nextAddr ≤ 9 ∧
    ∃ l, runSteps Loop.step { toChunkGenerator := init 0 10 8 } [.setNext 9, .next] = some l ∧
      ¬ l.done ∧ 10 < l.curAddr + l.curSize :=
  ⟨by decide, _, rfl, by decide, by decide⟩

end ChunkGenerator
