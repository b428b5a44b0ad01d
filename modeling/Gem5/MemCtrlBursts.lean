/-
# The bursts of a packet

How `MemCtrl` cuts a packet into bursts, and when the machine arithmetic of the source does
what it is meant to: the count of the bursts is computed with 32 bits, and addresses with
64 bits, so the packet must not be too long and must not reach the last burst of the
address space.
-/
import Gem5.Blocks
import Gem5.MemCtrl

open BitVec Nat

namespace MemCtrl

open QoSMemCtrl

/-- The bytes of a burst in a packet. -/
def bytesPerBurst (P : Params) : ℕ := P.burstSize.toNat

/-- The number of bursts does not overflow, and the last of them ends below the end of the
address space. -/
structure Packet.Fits (P : Params) (pkt : Packet) : Prop where
  count : pkt.addr.toNat % bytesPerBurst P + pkt.size.toNat + bytesPerBurst P - 1 < 2 ^ 32
  stop : ((pkt.addr.toNat + pkt.size.toNat - 1) / bytesPerBurst P + 1) * bytesPerBurst P < 2 ^ 64

instance (P : Params) (pkt : Packet) : Decidable (pkt.Fits P) :=
  decidable_of_iff (_ ∧ _) ⟨fun h => ⟨h.1, h.2⟩, fun h => ⟨h.1, h.2⟩⟩

/-- The bytes `[first, last)` of a burst. -/
def span (b : Burst) : ℕ × ℕ := (b.addr.toNat, b.addr.toNat + b.size.toNat)

/-! ## Burst arithmetic -/

section Arithmetic

variable {P : Params} {pkt : Packet} {j : ℕ} {x : Addr}

theorem exists_bytesPerBurst (P : Params) : ∃ k < 32, bytesPerBurst P = 2 ^ k := by
  obtain ⟨k, hk⟩ := (isPowerOf2_iff _).mp P.burstSize_pow
  refine ⟨k, ?_, hk⟩
  have hlt : P.burstSize.toNat < 2 ^ 32 := P.burstSize.isLt
  rw [hk] at hlt
  exact (Nat.pow_lt_pow_iff_right (by norm_num)).mp hlt

theorem bytesPerBurst_pos (P : Params) : 0 < bytesPerBurst P := by
  obtain ⟨k, -, hk⟩ := exists_bytesPerBurst P
  rw [hk]
  positivity

theorem toNat_burstMask (P : Params) : P.burstMask.toNat = bytesPerBurst P - 1 := by
  have hle : (1 : BitVec 32) ≤ P.burstSize := by
    exact bytesPerBurst_pos P
  rw [Params.burstMask, toNat_setWidth, toNat_sub_of_le hle]
  exact mod_eq_of_lt (by omega)

theorem toNat_nextBurst_mod (P : Params) (x : Addr) : (P.nextBurst x).toNat
    = (x.toNat / bytesPerBurst P + 1) * bytesPerBurst P % 2 ^ 64 := by
  obtain ⟨k, -, hk⟩ := exists_bytesPerBurst P
  have hmask : P.burstMask.toNat = 2 ^ k - 1 := by rw [toNat_burstMask, hk]
  rw [Params.nextBurst, toNat_add, show (1 : BitVec 64).toNat = 1 from rfl,
    toNat_or_lowMask hmask x, hk]

/-- Two addresses are in the same burst. -/
theorem burstAlign_eq_iff {y : Addr} :
    P.burstAlign x = P.burstAlign y ↔ x.toNat / bytesPerBurst P = y.toNat / bytesPerBurst P := by
  obtain ⟨k, -, hk⟩ := exists_bytesPerBurst P
  have hmask : P.burstMask.toNat = 2 ^ k - 1 := by rw [toNat_burstMask, hk]
  rw [← toNat_inj, Params.burstAlign, Params.burstAlign, toNat_and_not_lowMask hmask,
    toNat_and_not_lowMask hmask, hk]
  exact Nat.mul_left_inj (by positivity)

theorem toNat_pktCount_mod (P : Params) (pkt : Packet) : (P.pktCount pkt).toNat
    = (pkt.addr.toNat % bytesPerBurst P + pkt.size.toNat + bytesPerBurst P - 1) % 2 ^ 32
      / bytesPerBurst P := by
  obtain ⟨k, hk32, hk⟩ := exists_bytesPerBurst P
  have hpos := bytesPerBurst_pos P
  have hlt : bytesPerBurst P < 2 ^ 32 := P.burstSize.isLt
  have hoffset : ((pkt.addr &&& P.burstMask).setWidth 32).toNat
      = pkt.addr.toNat % bytesPerBurst P := by
    have hmod : pkt.addr.toNat % bytesPerBurst P < bytesPerBurst P := mod_lt _ hpos
    rw [toNat_setWidth, toNat_and, toNat_burstMask]
    nth_rewrite 1 [hk]
    rw [and_two_pow_sub_one_eq_mod, ← hk]
    exact mod_eq_of_lt (hmod.trans hlt)
  have hone : (1 : BitVec 32).toNat = 1 := rfl
  have hsize : P.burstSize.toNat = bytesPerBurst P := rfl
  have hsum : ((pkt.addr &&& P.burstMask).setWidth 32 + pkt.size + P.burstSize - 1).toNat
      = (pkt.addr.toNat % bytesPerBurst P + pkt.size.toNat + bytesPerBurst P - 1) % 2 ^ 32 := by
    -- in 32 bits the sum may wrap around before 1 is subtracted
    rw [toNat_sub, toNat_add, toNat_add, hone, hsize]
    omega
  rw [Params.pktCount, toNat_udiv, hsum, hsize]

section

variable (hfits : pkt.Fits P)

include hfits

theorem toNat_pktCount :
    (P.pktCount pkt).toNat = pieceCount (bytesPerBurst P) pkt.addr.toNat pkt.size.toNat := by
  rw [toNat_pktCount_mod, mod_eq_of_lt hfits.count, pieceCount]

variable (hsize : pkt.size ≠ 0)

include hsize

/-- Every burst of the packet ends below the end of the address space. -/
theorem Packet.Fits.pieceStart_le
    (hj : j ≤ pieceCount (bytesPerBurst P) pkt.addr.toNat pkt.size.toNat) :
    (pkt.addr.toNat / bytesPerBurst P + j) * bytesPerBurst P < 2 ^ 64 := by
  have hlen : 0 < pkt.size.toNat := pos_of_ne_zero fun h => hsize (eq_of_toNat_eq h)
  have hle := add_le_of_le_pieceCount (bytesPerBurst_pos P) hlen hj
  exact (mul_le_mul_right _ hle).trans_lt hfits.stop

variable (hj : j < pieceCount (bytesPerBurst P) pkt.addr.toNat pkt.size.toNat)

include hj

variable (hx : x.toNat = pieceStart (bytesPerBurst P) pkt.addr.toNat j)

include hx

theorem toNat_nextBurst_piece :
    (P.nextBurst x).toNat = pieceStart (bytesPerBurst P) pkt.addr.toNat (j + 1) := by
  have hpos := bytesPerBurst_pos P
  rw [toNat_nextBurst_mod, hx, pieceStart_div hpos, mod_eq_of_lt, pieceStart_succ hpos]
  exact hfits.pieceStart_le hsize hj

/-- The length of a burst is that of the piece of the packet in it. -/
theorem toNat_burstLen :
    x.toNat + (P.burstLen pkt x).toNat
      = pieceStop (bytesPerBurst P) pkt.addr.toNat pkt.size.toNat j := by
  have hpos := bytesPerBurst_pos P
  have hlen : 0 < pkt.size.toNat := pos_of_ne_zero fun h => hsize (eq_of_toNat_eq h)
  have hlast : pkt.addr.toNat + pkt.size.toNat < 2 ^ 64 := by
    refine lt_of_le_of_lt ?_ hfits.stop
    have hlt := lt_mul_of_div_lt
      (lt_add_one ((pkt.addr.toNat + pkt.size.toNat - 1) / bytesPerBurst P)) hpos
    omega
  have hstop : (pkt.addr + pkt.size.setWidth 64).toNat = pkt.addr.toNat + pkt.size.toNat := by
    rw [toNat_add, toNat_setWidth]
    omega
  have hnext : (P.nextBurst x).toNat
      = (pkt.addr.toNat / bytesPerBurst P + j + 1) * bytesPerBurst P := by
    rw [toNat_nextBurst_piece hfits hsize hj hx, pieceStart_succ hpos]
  have hmin : (if pkt.addr + pkt.size.setWidth 64 < P.nextBurst x then
        pkt.addr + pkt.size.setWidth 64 else P.nextBurst x).toNat
      = pieceStop (bytesPerBurst P) pkt.addr.toNat pkt.size.toNat j := by
    rw [pieceStop, ← hstop, ← hnext]
    split
    · next h => exact (min_eq_left (lt_def.mp h).le).symm
    · next h => exact (min_eq_right (not_lt.mp fun h' => h (lt_def.mpr h'))).symm
  have hlt : x.toNat < pieceStop (bytesPerBurst P) pkt.addr.toNat pkt.size.toNat j := by
    rw [hx]
    exact pieceStart_lt_pieceStop hpos hlen hj
  have hle : pieceStop (bytesPerBurst P) pkt.addr.toNat pkt.size.toNat j
      ≤ x.toNat + bytesPerBurst P := by
    have hblock := pieceStop_le hpos pkt.addr.toNat pkt.size.toNat j
    rw [← hx, Nat.add_mul] at hblock
    have hdown := div_mul_le_self x.toNat (bytesPerBurst P)
    omega
  have hburst : bytesPerBurst P < 2 ^ 32 := P.burstSize.isLt
  simp only [Params.burstLen]
  rw [toNat_setWidth, toNat_sub_of_le (le_def.mpr (by rw [hmin]; exact hlt.le)), hmin]
  omega

/-- A burst has at least one byte, and stays in a burst of the memory that does not end at
the end of the address space. -/
theorem burst_bounds : 0 < (P.burstLen pkt x).toNat ∧
      x.toNat + (P.burstLen pkt x).toNat ≤ (x.toNat / bytesPerBurst P + 1) * bytesPerBurst P ∧
      (x.toNat / bytesPerBurst P + 1) * bytesPerBurst P < 2 ^ 64 := by
  have hpos := bytesPerBurst_pos P
  have hlen : 0 < pkt.size.toNat := pos_of_ne_zero fun h => hsize (eq_of_toNat_eq h)
  have hstop := toNat_burstLen hfits hsize hj hx
  have hlt := pieceStart_lt_pieceStop hpos hlen hj
  refine ⟨by omega, ?_, ?_⟩
  · rw [hstop, hx]
    exact pieceStop_le hpos _ _ _
  · rw [hx, pieceStart_div hpos]
    exact hfits.pieceStart_le hsize hj

end

/-- Without wrapping around, a read is subsumed in a write if its bytes are. -/
theorem subsumes_iff {n : ℕ} {p : MemPacket n} {size : BitVec 32}
    (hp : (span p.toBurst).2 < 2 ^ 64) (hx : x.toNat + size.toNat < 2 ^ 64) : subsumes x size p ↔
      (span p.toBurst).1 ≤ x.toNat ∧ x.toNat + size.toNat ≤ (span p.toBurst).2 := by
  simp only [span] at hp ⊢
  have hadd : ∀ (y : Addr) (z : BitVec 32), y.toNat + z.toNat < 2 ^ 64 →
      (y + z.setWidth 64).toNat = y.toNat + z.toNat := by
    intro y z hyz
    rw [toNat_add, toNat_setWidth]
    omega
  simp [subsumes, le_def, hadd _ _ hp, hadd _ _ hx]

end Arithmetic

/-! ## Tiling -/

/-- The bytes of the burst in a round of the loops. -/
def Params.burstSpan (P : Params) (pkt : Packet) (cnt : ℕ) : ℕ × ℕ :=
  let addr := P.nextBurst^[cnt] pkt.addr
  (addr.toNat, addr.toNat + (P.burstLen pkt addr).toNat)

section Tiling

variable {P : Params} {pkt : Packet} {n ptr cnt : ℕ} {prio : Fin n}

theorem addr_readBurst {pktCount : ℕ} {l l' : ReadLoop n}
    (h : State.readBurst P pkt ptr prio pktCount l cnt = some l') : l'.addr = P.nextBurst l.addr := by
  simp only [State.readBurst, ReadLoop.makeHelper] at h
  split_ifs at h <;> cases h <;> rfl

theorem addr_writeBurst {l l' : State n × Addr}
    (h : State.writeBurst P pkt ptr prio l cnt = some l') : l'.2 = P.nextBurst l.2 := by
  simp only [State.writeBurst] at h
  split_ifs at h <;> cases h <;> rfl

/-- A burst that ends where the address space does is cut there, not at the end of the packet. -/
theorem burst_end_lt {x : Addr} (h : x.toNat + (P.burstLen pkt x).toNat < 2 ^ 64) :
    (x.toNat / bytesPerBurst P + 1) * bytesPerBurst P < 2 ^ 64 := by
  obtain ⟨k, hk32, hk⟩ := exists_bytesPerBurst P
  have hle : (x.toNat / 2 ^ k + 1) * 2 ^ k ≤ 2 ^ 64 := by
    have hsplit : 2 ^ (64 - k) * 2 ^ k = 2 ^ 64 := by
      rw [← Nat.pow_add, Nat.sub_add_cancel (by omega)]
    rw [← hsplit]
    refine mul_le_mul_right _ (Nat.div_lt_of_lt_mul ?_)
    rw [mul_comm, hsplit]
    exact x.isLt
  by_contra hstop
  have hnext : P.nextBurst x = 0 := by
    apply eq_of_toNat_eq
    rw [toNat_nextBurst_mod, hk, le_antisymm hle (hk ▸ not_lt.mp hstop)]
    rfl
  have hblock : 2 ^ k ≤ 2 ^ 31 := Nat.pow_le_pow_right (by omega) (by omega)
  have hdown := div_mul_le_self x.toNat (2 ^ k)
  rw [hk, Nat.add_mul] at hstop
  have hfull : (P.burstLen pkt x).toNat = 2 ^ 64 - x.toNat := by
    have hzero : (0 : Addr).toNat = 0 := rfl
    simp only [Params.burstLen, hnext]
    rw [if_neg (by simp), toNat_setWidth, toNat_sub]
    omega
  omega

/-- **Both loops visit `pktCount` bursts, and these tile the packet** just if the count does not
overflow and the last burst does not end with the address space. -/
theorem bursts_tile_iff (P : Params) (pkt : Packet) (hsize : pkt.size ≠ 0)
    (hwrap : pkt.addr.toNat + pkt.size.toNat < 2 ^ 64) :
    (∀ {n pktCount cnt} {s : State n} {ptr prio l},
      runSteps (State.readBurst P pkt ptr prio pktCount) ⟨s, pkt.addr, 0, none⟩ (List.range cnt)
        = some l → l.addr = P.nextBurst^[cnt] pkt.addr) ∧
    (∀ {n cnt} {s : State n} {ptr prio l},
      runSteps (State.writeBurst P pkt ptr prio) (s, pkt.addr) (List.range cnt) = some l →
        l.2 = P.nextBurst^[cnt] pkt.addr) ∧
    (Tiles (bytesPerBurst P) pkt.addr.toNat (pkt.addr.toNat + pkt.size.toNat)
      ((List.range (P.pktCount pkt).toNat).map (P.burstSpan pkt)) ↔ pkt.Fits P) := by
  have hpos := bytesPerBurst_pos P
  have hlen : 0 < pkt.size.toNat := pos_of_ne_zero fun h => hsize (eq_of_toNat_eq h)
  refine ⟨fun h => ?_, fun h => ?_, fun h => ?_, fun hfits => ?_⟩
  · simpa using runSteps_iterate (fun _ _ _ => addr_readBurst) h
  · simpa using runSteps_iterate (fun _ _ _ => addr_writeBurst) h
  · obtain ⟨j, hcount⟩ : ∃ j, (P.pktCount pkt).toNat = j + 1 := by
      refine exists_eq_succ_of_ne_zero fun hzero => ?_
      rw [hzero] at h
      exact absurd (show _ = _ from h) (by omega)
    rw [hcount] at h
    constructor
    · obtain ⟨k, hk32, hk⟩ := exists_bytesPerBurst P
      have hblock : bytesPerBurst P ≤ 2 ^ 31 := by
        rw [hk]
        exact Nat.pow_le_pow_right (by omega) (by omega)
      have hsplit := div_add_mod' pkt.addr.toNat (bytesPerBurst P)
      have hle := h.le hpos (by simp)
      rw [List.length_map, List.length_range, Nat.add_mul, ← hcount, toNat_pktCount_mod] at hle
      have hcut := hle.trans (Nat.add_le_add_left (div_mul_le_self _ _) _)
      omega
    · rw [List.range_succ, List.map_append] at h
      obtain ⟨hlt, hblock, hlast⟩ := h.last
      set x := P.nextBurst^[j] pkt.addr
      have hdown := div_mul_le_self x.toNat (bytesPerBurst P)
      rw [Nat.div_eq_of_lt_le (k := x.toNat / bytesPerBurst P) (by omega) (by omega)]
      exact burst_end_lt (hlast.trans_lt hwrap)
  · convert tiles_pieces hpos hlen using 1
    rw [toNat_pktCount hfits]
    apply List.map_congr_left
    intro j hj
    rw [List.mem_range] at hj
    have hstart : (P.nextBurst^[j] pkt.addr).toNat
        = pieceStart (bytesPerBurst P) pkt.addr.toNat j := by
      induction j with
      | zero => exact (pieceStart_zero _ _).symm
      | succ j ih =>
        rw [Function.iterate_succ_apply',
          toNat_nextBurst_piece hfits hsize (by omega) (ih (by omega))]
    exact Prod.ext hstart (toNat_burstLen hfits hsize hj hstart)

/-- Bursts of 64 bytes. -/
def burst64 : Params := ⟨64, by decide, 64, 64, fun _ => true, false, false⟩

theorem bursts_tile_64 : Tiles 64 0x30 0x90 [(0x30, 0x40), (0x40, 0x80), (0x80, 0x90)] :=
  (bursts_tile_iff burst64 ⟨0x30, 0x60, false, true, false, 0⟩ (by decide) (by decide)).2.2.mpr
    (by decide)

/-- A packet of nearly 4 GiB: the sum wraps around to 63, and no burst is visited. -/
theorem bursts_none_of_4GiB : (burst64.pktCount ⟨1, 0xffffffff, false, true, false, 0⟩).toNat = 0 ∧
    ¬ Tiles 64 1 0x100000000 [] :=
  ⟨by decide, by simp [Tiles]⟩

end Tiling

end MemCtrl
