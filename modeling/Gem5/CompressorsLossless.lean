/-
# The compressors are lossless

A pattern class is sound if a pattern that was made of a value gives the value back,
from the dictionary entry it was matched against or from any other one if it does
not use the dictionary.  With sound classes the decompressor finds in its dictionary
what the compressor had in its own, pattern by pattern.
-/
import Gem5.Compressors
import Gem5.Run

open List

namespace Compression

open Digits

variable {ν : Type} {k : ℕ} {dict : Dictionary k} {N : ℕ} {size : ℕ}

theorem fromDictionaryEntry_toDictionaryEntry (value : BitVec (8 * k)) :
    fromDictionaryEntry (toDictionaryEntry value) = value :=
  join_digit (by norm_num) le_rfl value

theorem toDictionaryEntry_fromDictionaryEntry (entry : Entry k) :
    toDictionaryEntry (fromDictionaryEntry entry) = entry := by
  funext i
  exact digit_join (by norm_num) le_rfl entry i

/-! ## Bit fields -/

/-- Only the low bits count, once they are masked. -/
theorem sext_and_mask (hN : 0 < N) (val : BitVec 64) : sext N (val &&& mask N) = szext N val := by
  have hbits : bits (val &&& mask N) (N - 1) (N - 1) = bits val (N - 1) (N - 1) := by
    apply BitVec.eq_of_getLsbD_eq
    intro i hi
    rw [getLsbD_bits _ _ _ _ hi, getLsbD_bits _ _ _ _ hi, BitVec.getLsbD_and]
    by_cases hi0 : i < N - 1 - (N - 1) + 1
    · by_cases h64 : N - 1 + i < 64
      · rw [getLsbD_mask _ _ h64, decide_eq_true (by omega : N - 1 + i < N), Bool.and_true]
      · rw [BitVec.getLsbD_of_ge val _ (by omega), Bool.false_and]
    · rw [decide_eq_false hi0, Bool.false_and, Bool.false_and]
  unfold sext szext
  rw [hbits]
  split_ifs
  · apply BitVec.eq_of_getLsbD_eq
    intro i hi
    simp only [BitVec.getLsbD_or, BitVec.getLsbD_and, BitVec.getLsbD_not, getLsbD_mask _ _ hi, hi,
      decide_true]
    by_cases hiN : i < N <;> simp [hiN]
  · rfl

/-- `szext<N>` only looks at the low bits. -/
theorem szext_congr (hN : 0 < N) {x y : BitVec 64} (h : ∀ i, i < N → x.getLsbD i = y.getLsbD i) :
    szext N x = szext N y := by
  rw [← sext_and_mask hN, ← sext_and_mask hN]
  congr 1
  apply BitVec.eq_of_getLsbD_eq
  intro i hi
  rw [BitVec.getLsbD_and, BitVec.getLsbD_and, getLsbD_mask _ _ hi]
  by_cases hiN : i < N
  · rw [h i hiN]
  · simp [hiN]

/-! ## Sound classes -/

/-- The pattern gives the value back, from the entry at its location or from any. -/
def Pattern.Restores (p : Pattern ν k) (bytes dictBytes : Entry k) (loc : ℤ) : Prop :=
  (p.matchLocation = loc ∨ p.matchLocation = -1) ∧
    ∀ d, (p.matchLocation = loc → 0 ≤ loc → d = dictBytes) → p.decompress d = bytes

def PatternClass.Sound (cls : PatternClass ν k) : Prop :=
  ∀ bytes dictBytes loc, cls.isPattern bytes dictBytes loc = true →
    (cls.new bytes loc).Restores bytes dictBytes loc

section Classes

variable (number : ν) (metadataLength : ℕ) (loc : ℤ) (bytes dictBytes : Entry k)

theorem restores_uncompressed :
    (uncompressedPattern number metadataLength loc bytes).Restores bytes dictBytes loc :=
  ⟨.inl rfl, fun _ _ => rfl⟩

/-- The bits that are kept and those that match make up the value. -/
theorem toDictionaryEntry_bits {mask other : BitVec (8 * k)}
    (h : fromDictionaryEntry bytes &&& mask = other &&& mask) :
    toDictionaryEntry ((fromDictionaryEntry bytes &&& ~~~ mask) ||| (other &&& mask)) = bytes := by
  rw [← h, BitVec.or_comm, ← BitVec.and_or_distrib_left, BitVec.or_not_self, BitVec.and_allOnes,
    toDictionaryEntry_fromDictionaryEntry]

theorem restores_masked {mask : BitVec (8 * k)} (allocate : Bool)
    (h : isMasked loc bytes dictBytes mask = true) :
    (maskedPattern number metadataLength loc bytes mask allocate).Restores bytes dictBytes loc := by
  simp only [isMasked, Bool.and_eq_true, decide_eq_true_eq, beq_iff_eq] at h
  refine ⟨.inl rfl, ?_⟩
  intro d hd
  rw [hd rfl h.1]
  exact toDictionaryEntry_bits bytes h.2

theorem restores_maskedValue {value mask : BitVec (8 * k)} (loc' : ℤ) (hloc : loc' = loc ∨ loc' = -1)
    (allocate : Bool) (h : isMaskedValue bytes value mask = true) :
    (maskedValuePattern number metadataLength loc' bytes value mask allocate).Restores bytes
      dictBytes loc := by
  simp only [isMaskedValue, beq_iff_eq] at h
  refine ⟨hloc, ?_⟩
  intro d _
  show toDictionaryEntry (_ ||| (fromDictionaryEntry (toDictionaryEntry value) &&& mask)) = bytes
  rw [fromDictionaryEntry_toDictionaryEntry]
  exact toDictionaryEntry_bits bytes h.symm

theorem restores_repeatedValue (hsize : 0 < size) (hdvd : size ∣ k) (loc' : ℤ)
    (hloc : loc' = loc ∨ loc' = -1) (allocate : Bool) (h : isRepeatedValue bytes size = true) :
    (repeatedValuePattern number metadataLength loc' bytes size allocate).Restores bytes
      dictBytes loc := by
  simp only [isRepeatedValue, all_eq_true, mem_range, beq_iff_eq] at h
  refine ⟨hloc, ?_⟩
  intro d _
  show toDictionaryEntry (join (8 * k) fun _ : Fin (k / size) => _) = bytes
  have hdigits : (fun _ : Fin (k / size) => (fromDictionaryEntry bytes).setWidth (8 * size))
      = fun i : Fin (k / size) => digit (8 * size) (fromDictionaryEntry bytes) i := by
    funext i
    exact (h i i.isLt).symm
  have hwidth : 8 * k ≤ 8 * size * (k / size) := by
    rw [Nat.mul_assoc, Nat.mul_div_cancel' hdvd]
  rw [hdigits, join_digit (by omega) hwidth, toDictionaryEntry_fromDictionaryEntry]

theorem restores_signExtended (hN : 0 < N) (hNk : N ≤ 8 * k) (allocate : Bool)
    (h : isSignExtended bytes N = true) :
    (signExtendedPattern number metadataLength bytes N allocate).Restores bytes dictBytes loc := by
  simp only [isSignExtended, beq_iff_eq] at h
  refine ⟨.inr rfl, ?_⟩
  intro d _
  show toDictionaryEntry ((sext N (BitVec.setWidth 64 (BitVec.setWidth (8 * k) _))).setWidth (8 * k))
    = bytes
  have hback : BitVec.setWidth 64
      (((fromDictionaryEntry bytes).setWidth 64 &&& mask N).setWidth (8 * k))
      = (fromDictionaryEntry bytes).setWidth 64 &&& mask N := by
    apply BitVec.eq_of_getLsbD_eq
    intro i hi
    simp only [BitVec.getLsbD_setWidth, BitVec.getLsbD_and, getLsbD_mask _ _ hi, hi, decide_true]
    by_cases hik : i < 8 * k
    · simp [hik]
    · simp [show ¬ i < N by omega]
  rw [hback, sext_and_mask hN, ← h, toDictionaryEntry_fromDictionaryEntry]

end Classes

/-- A halfword that is the extension of its low byte, by the test for it. -/
theorem halfword_eq {data : BitVec (8 * k)} {i : ℕ}
    (h : (Digits.digit 16 data i).toInt
      = ((szext 8 ((Digits.digit 16 data i).signExtend 64)).setWidth 16).toNat) :
    (szext 8 (((data >>> (16 * i)).setWidth 8).signExtend 64)).setWidth 16
      = Digits.digit 16 data i := by
  have hlow : szext 8 ((digit 16 data i).signExtend 64)
      = szext 8 (((data >>> (16 * i)).setWidth 8).signExtend 64) := by
    apply szext_congr (by norm_num)
    intro j hj
    have hj16 : j < 16 := by omega
    rw [BitVec.getLsbD_signExtend, BitVec.getLsbD_signExtend, if_pos hj16, if_pos hj,
      getLsbD_digit, BitVec.getLsbD_setWidth, BitVec.getLsbD_ushiftRight,
      decide_eq_true hj16, decide_eq_true hj]
  rw [← hlow]
  apply BitVec.eq_of_toNat_eq
  rw [BitVec.toInt_eq_toNat_cond] at h
  split_ifs at h <;> omega

theorem join_halfwords (hk : 8 * k = 32) (data : BitVec (8 * k)) :
    (((Digits.digit 16 data 1).setWidth 32 <<< 16) ||| (Digits.digit 16 data 0).setWidth 32).setWidth
      (8 * k) = data := by
  apply BitVec.eq_of_getLsbD_eq
  intro j hj
  have hj32 : j < 32 := by omega
  simp only [BitVec.getLsbD_setWidth, BitVec.getLsbD_or, BitVec.getLsbD_shiftLeft, getLsbD_digit]
  by_cases hj16 : j < 16
  · simp [hj16, hj, hj32]
  · simp [hj16, hj, hj32, show j - 16 < 16 by omega, show j - 16 < 32 by omega,
      show 16 + (j - 16) = j by omega]

theorem sound_twoHalfwords : FPC.SignExtendedTwoHalfwords.Sound := by
  intro bytes dictBytes loc h
  refine ⟨.inr rfl, ?_⟩
  intro d _
  simp only [FPC.SignExtendedTwoHalfwords, Bool.and_eq_true, beq_iff_eq] at h
  have h1 := halfword_eq h.2
  have h0 := halfword_eq h.1
  simp only [Pattern.decompress, FPC.SignExtendedTwoHalfwords, Payload.decompress]
  rw [h1, h0]
  exact (congrArg toDictionaryEntry (join_halfwords rfl _)).trans
    (toDictionaryEntry_fromDictionaryEntry bytes)

/-! ## Sound compressors -/

/-- `I m` says of a dictionary that `m` more values can be compressed. -/
structure Compressor.Sound (c : Compressor ν k) (I : ℕ → Dictionary k → Prop) : Prop where
  classes : ∀ cls ∈ c.classes, cls.Sound
  last : c.last.Sound ∧ ∀ bytes dictBytes loc, c.last.isPattern bytes dictBytes loc = true
  /-- An entry may be marked, but not so that it is decompressed in another way. -/
  addEntry : ∀ comp pattern, ∃ pattern',
    (c.addEntry comp pattern).entries = comp.entries ++ [pattern'] ∧
      pattern'.payload = pattern.payload ∧ pattern'.matchLocation = pattern.matchLocation ∧
      pattern'.allocate = pattern.allocate
  inUse : ∀ m dict, I m dict →
    dict.numEntries ≤ dict.dictionary.length ∧ dict.dictionary.length ≤ 256
  mono : ∀ m dict, I (m + 1) dict → I m dict
  add : ∀ m dict data, I (m + 1) dict → ∃ dict', c.addToDictionary dict data = some dict' ∧ I m dict'

namespace Compressor.Sound

variable {c : Compressor ν k} {I : ℕ → Dictionary k → Prop} (hc : c.Sound I)

include hc

theorem restores_getPattern (bytes dictBytes : Entry k) (loc : ℤ) :
    (c.getPattern bytes dictBytes loc).Restores bytes dictBytes loc := by
  suffices hall : ∀ l : List (PatternClass ν k), (∀ cls ∈ l, cls.Sound) →
      (factory c.last l bytes dictBytes loc).Restores bytes dictBytes loc from
    hall c.classes hc.classes
  intro l
  induction l with
  | nil => exact fun _ => hc.last.1 bytes dictBytes loc (hc.last.2 _ _ _)
  | cons cls tail ih =>
    intro hl
    rw [factory]
    split_ifs with h
    · exact hl cls mem_cons_self bytes dictBytes loc h
    · exact ih fun cls' hmem => hl cls' (mem_cons_of_mem cls hmem)

/-- The pattern that is chosen gives the value back from the dictionary. -/
theorem decompress_bestPattern {m : ℕ} (hdict : I m dict) (beyond : ℕ → Entry k) (bytes : Entry k) :
    let p := c.bestPattern dict bytes
    p.decompress (dict.dictionary.getD p.getMatchLocation (beyond p.getMatchLocation)) = bytes := by
  obtain ⟨hinUse, hlen⟩ := hc.inUse m dict hdict
  -- the best pattern so far restores the value, whatever entry it was matched against
  have hfold : ∀ l : List ℕ, (∀ i ∈ l, i < dict.numEntries) → ∀ p0 : Pattern ν k,
      p0.decompress (dict.dictionary.getD p0.getMatchLocation (beyond p0.getMatchLocation)) = bytes →
      let p := l.foldl (c.better dict bytes) p0
      p.decompress (dict.dictionary.getD p.getMatchLocation (beyond p.getMatchLocation)) = bytes := by
    intro l
    induction l with
    | nil => exact fun _ p0 hp0 => hp0
    | cons i l ih =>
      intro hl p0 hp0
      apply ih (fun j hj => hl j (mem_cons_of_mem i hj)) _
      simp only [Compressor.better]
      split_ifs
      · have hi : i < dict.numEntries := hl i mem_cons_self
        obtain ⟨-, hrestores⟩ := hc.restores_getPattern bytes
          (dict.dictionary.getD i (toDictionaryEntry 0)) i
        apply hrestores
        intro hloc _
        have hget : (c.getPattern bytes (dict.dictionary.getD i (toDictionaryEntry 0)) i).getMatchLocation
            = i := by
          rw [Pattern.getMatchLocation, hloc, BitVec.ofInt_natCast]
          exact Nat.mod_eq_of_lt (by omega)
        have hlt : i < dict.dictionary.length := by omega
        rw [hget, getD_eq_getElem _ _ hlt, getD_eq_getElem _ _ hlt]
      · exact hp0
  apply hfold _ fun i hi => mem_range.mp hi
  obtain ⟨-, hrestores⟩ := hc.restores_getPattern bytes (toDictionaryEntry 0) (-1)
  exact hrestores _ fun _ hneg => absurd hneg (by norm_num)

variable (beyond : ℕ → Entry k)

/-- One value: the decompressor gets it back, and the same dictionary. -/
theorem compressValue_decompressValue (m : ℕ) (dict : Dictionary k)
    (value : BitVec (8 * k)) (hdict : I (m + 1) dict) :
    ∃ p dict', c.compressValue dict value = some (p, dict') ∧
      c.decompressValue beyond dict p = some (value, dict') ∧ I m dict' := by
  have hdata := hc.decompress_bestPattern hdict beyond (toDictionaryEntry value)
  obtain ⟨dict', hallocate, hI⟩ : ∃ dict',
      c.allocate dict (c.bestPattern dict (toDictionaryEntry value)) (toDictionaryEntry value)
        = some dict' ∧ I m dict' := by
    unfold allocate
    split_ifs
    · exact hc.add m dict _ hdict
    · exact ⟨dict, rfl, hc.mono m dict hdict⟩
  refine ⟨c.bestPattern dict (toDictionaryEntry value), dict', ?_, ?_, hI⟩
  · simp [compressValue, hallocate]
  · simp only [decompressValue, hdata, hallocate, Option.map_some,
      fromDictionaryEntry_toDictionaryEntry]

/-- The loop of `compress` collects the patterns, each of them perhaps marked. -/
theorem compressChunks_eq (chunks : List (BitVec (8 * k)))
    {dict dict' : Dictionary k} {patterns : List (Pattern ν k)}
    (h : Codec.codeAll c.compressValue dict chunks = some (patterns, dict')) (comp : CompData ν k) :
    ∃ comp' patterns', c.compressChunks dict comp chunks = some (comp', dict') ∧
      comp'.entries = comp.entries ++ patterns' ∧
      List.Forall₂ (fun p p' => ∀ d, c.decompressValue beyond d p = c.decompressValue beyond d p')
        patterns' patterns := by
  induction chunks generalizing dict patterns comp with
  | nil =>
    obtain ⟨rfl, rfl⟩ := Prod.mk.inj (Option.some.inj h)
    exact ⟨comp, [], rfl, (append_nil _).symm, Forall₂.nil⟩
  | cons value chunks ih =>
    rw [Codec.codeAll, Option.bind_eq_some_iff] at h
    obtain ⟨⟨p, dict1⟩, hvalue, hrest⟩ := h
    obtain ⟨⟨ps, dict2⟩, hps, heq⟩ := Option.map_eq_some_iff.mp hrest
    cases heq
    obtain ⟨p', hentries, hpayload, hloc, halloc⟩ := hc.addEntry comp p
    obtain ⟨comp', patterns', hcomp, hentries', hsame⟩ := ih hps (c.addEntry comp p)
    refine ⟨comp', p' :: patterns', ?_, ?_, Forall₂.cons ?_ hsame⟩
    · rw [compressChunks, hvalue]
      exact hcomp
    · rw [hentries', hentries, append_assoc]
      rfl
    · intro d
      simp only [decompressValue, Pattern.getMatchLocation, Pattern.decompress, allocate, hpayload,
        hloc, halloc]

/-- **Round trip of the chunks.** -/
theorem decompressValues_compressChunks (chunks : List (BitVec (8 * k)))
    (hdict : I chunks.length dict) :
    ∃ comp dict', c.compressChunks dict {} chunks = some (comp, dict') ∧
      c.decompressValues beyond dict comp.entries = some (chunks, dict') := by
  obtain ⟨patterns, dict', hcode, -, hdecode, -⟩ :=
    Codec.decode_encode (hc.compressValue_decompressValue beyond) chunks (m := 0) hdict
  obtain ⟨comp, patterns', hcomp, hentries, hsame⟩ := hc.compressChunks_eq beyond chunks hcode {}
  refine ⟨comp, dict', hcomp, ?_⟩
  rw [hentries]
  exact (Codec.codeAll_congr hsame dict).trans hdecode

end Compressor.Sound

/-! ## The words of a line -/

namespace Compressor

variable (c : Compressor ν k)

/-- A chunk is a digit of its word. -/
theorem setWidth_bits (hk : 0 < k) (hk8 : k ≤ 8) (x : BitVec 64) (start : ℕ) :
    (bits x ((start + 1) * (8 * k) - 1) (start * (8 * k))).setWidth (8 * k)
      = Digits.digit (8 * k) x start := by
  apply BitVec.eq_of_getLsbD_eq
  intro i hi
  have hwidth : (start + 1) * (8 * k) - 1 - start * (8 * k) + 1 = 8 * k := by
    rw [Nat.succ_mul]
    omega
  rw [BitVec.getLsbD_setWidth, getLsbD_bits _ _ _ _ (by omega), getLsbD_digit, hwidth,
    decide_eq_true hi, Nat.mul_comm start]
  rfl

/-- The chunks of a word and of the line. -/
theorem chunks_per_word (hk : 0 < k) (hk8 : k ∣ 8) (hsize : 8 ∣ size) :
    64 / (8 * k) = 8 / k ∧ 8 / k * (8 * k) = 64 ∧ size * 8 / (8 * k) = 8 / k * (size / 8) := by
  have hle := Nat.le_of_dvd (by norm_num) hk8
  interval_cases k <;> omega

variable {data : List (BitVec 64)}

/-- Putting the chunks together gives the line. -/
theorem concatenate_toChunks (hk : 0 < k) (hk8 : k ∣ 8) (hblk : 8 ∣ c.blkSize)
    (hdata : data.length = c.blkSize / 8) :
    c.concatenate ((c.toChunks data).map fun v => v.setWidth (8 * k)) = data := by
  simp only [toChunks, map_map, Function.comp_def,
    setWidth_bits hk (Nat.le_of_dvd (by norm_num) hk8)]
  obtain ⟨hper, hword, hchunks⟩ := chunks_per_word hk hk8 hblk
  simp only [concatenate]
  rw [hper, hchunks, ← hdata]
  generalize 8 / k = n at *
  have hn0 : 0 < n := Nat.pos_of_ne_zero (by rintro rfl; omega)
  apply ext_getElem
  · rw [length_map, length_range]
  · intro i hi hi'
    rw [getElem_map, getElem_range]
    -- the chunks of word `i` are its digits
    have hdigits : (fun j : Fin n => ((range (n * data.length)).map fun i =>
          digit (8 * k) (data.getD (i / n) 0) (i % n)).getD (n * i + j) 0)
        = fun j : Fin n => digit (8 * k) data[i] j := by
      funext j
      have hlt : n * i + j < n * data.length := by
        calc n * i + j < n * (i + 1) := by rw [Nat.mul_succ]; omega
          _ ≤ n * data.length := Nat.mul_le_mul_left n hi'
      have hdiv : (n * i + j) / n = i := by
        rw [Nat.mul_add_div hn0, Nat.div_eq_of_lt j.isLt, Nat.add_zero]
      have hmod : (n * i + j) % n = j := by
        rw [Nat.mul_add_mod, Nat.mod_eq_of_lt j.isLt]
      rw [getD_eq_getElem _ _ (by simpa using hlt), getElem_map, getElem_range, hdiv,
        hmod, getD_eq_getElem _ _ hi']
    rw [hdigits]
    exact place_digit (by omega) (by rw [Nat.mul_comm, hword]) data[i]

theorem getLsbD_toChunks {i j : ℕ} (hk : 0 < 8 * k)
    (hi : i < (c.toChunks data).length) (hj : j < 64) :
    ((c.toChunks data).getD i 0).getLsbD j = (decide (j < 8 * k) &&
      (data.getD (i / (64 / (8 * k))) 0).getLsbD (i % (64 / (8 * k)) * (8 * k) + j)) := by
  rw [getD_eq_getElem _ _ hi]
  simp only [toChunks, getElem_map, getElem_range, getLsbD_bits _ _ _ _ hj, Nat.succ_mul]
  congr 2
  exact propext (by omega)

theorem div_lt_of_mul_eq {n w j : ℕ} (hword : n * w = 64) (hj : j < 64) : j / w < n :=
  Nat.div_lt_of_lt_mul (by rwa [Nat.mul_comm, hword])

/-- After `m` chunks the digits before the `m`-th are in place. -/
theorem foldl_insertBits {n w m : ℕ} {chunks data : List (BitVec 64)} (hpos : 0 < w) (hn : 0 < n)
    (hword : n * w = 64) (hbit : ∀ {i j}, i < chunks.length → j < 64 →
      (chunks.getD i 0).getLsbD j =
        (decide (j < w) && (data.getD (i / n) 0).getLsbD (i % n * w + j)))
    (hm : m ≤ chunks.length) : ∃ words : List (BitVec 64), (range m).foldl (fun data i =>
        data.modify (i / n) fun word =>
          insertBits word ((i % n + 1) * w - 1) (i % n * w) (chunks.getD i 0))
        (replicate data.length 0) = words ∧ words.length = data.length ∧
      ∀ i (hi : i < words.length), ∀ j < 64, words[i].getLsbD j =
        (decide (i * n + j / w < m) && (data.getD i 0).getLsbD j) := by
  induction m with
  | zero => exact ⟨_, rfl, length_replicate, by simp⟩
  | succ m ih =>
    obtain ⟨words, hwords, hlen, hold⟩ := ih (by omega)
    refine ⟨_, by rw [range_succ, foldl_append, hwords, foldl_cons, foldl_nil], by simpa, ?_⟩
    intro i hi j hj
    have hlast : i * n + j / w = m ↔ m / n = i ∧ m % n = j / w := by
      rw [Nat.div_mod_unique hn, Nat.add_comm, Nat.mul_comm, and_iff_left (div_lt_of_mul_eq hword hj)]
    have hstep (hne : i * n + j / w ≠ m) :
        decide (i * n + j / w < m) = decide (i * n + j / w < m + 1) :=
      decide_eq_decide.mpr (by omega)
    rw [getElem_modify]
    split_ifs with him
    · have hle : (m % n + 1) * w ≤ 64 := hword ▸ Nat.mul_le_mul_right w (Nat.mod_lt m hn)
      rw [getLsbD_insertBits _ (by omega) _ _ _ hj, hold _ _ _ hj, Nat.succ_mul]
      split_ifs with hin
      · have hm' := hlast.mpr ⟨him, ((Nat.div_eq_iff hpos).mpr hin).symm⟩
        rw [hbit hm (by omega), him, Nat.add_sub_cancel' hin.1, decide_eq_true (by omega),
          decide_eq_true (by omega)]
      · rw [hstep fun h => hin ((Nat.div_eq_iff hpos).mp (hlast.mp h).2.symm)]
    · rw [hold _ _ _ hj, hstep fun h => him (hlast.mp h).1]

/-- **Chunking is invertible**, for chunks of 8, 16, 32 or 64 bits. -/
theorem fromChunks_toChunks (hk : 8 * k ∈ [8, 16, 32, 64]) (hblk : 8 ∣ c.blkSize)
    {data : List (BitVec 64)} (hdata : data.length = c.blkSize / 8) :
    c.fromChunks (c.toChunks data) = data ∧
      (c.toChunks data).length = c.blkSize * 8 / (8 * k) ∧
        ∀ v ∈ c.toChunks data, v.toNat < 2 ^ (8 * k) := by
  obtain ⟨hpos, hk8⟩ : 0 < 8 * k ∧ k ∣ 8 := by
    simp only [mem_cons, not_mem_nil, or_false] at hk
    obtain rfl | rfl | rfl | rfl : k = 1 ∨ k = 2 ∨ k = 4 ∨ k = 8 := by omega
    all_goals decide
  obtain ⟨hper, hword, hchunks⟩ := chunks_per_word (by omega) hk8 hblk
  have hlen : (c.toChunks data).length = c.blkSize * 8 / (8 * k) := by simp [toChunks]
  have hbit := @getLsbD_toChunks _ _ c data
  refine ⟨?_, hlen, fun v hv => ?_⟩
  · rw [hchunks, ← hdata] at hlen
    rw [hper] at hbit
    rw [fromChunks, ← hdata, hper]
    have hn : 0 < 8 / k := Nat.div_pos (Nat.le_of_dvd (by norm_num) hk8) (by omega)
    obtain ⟨words, hwords, hlen', hbits⟩ := foldl_insertBits hpos hn hword (hbit hpos) le_rfl
    refine hwords.trans (ext_getElem hlen' fun i hi hi' => BitVec.eq_of_getLsbD_eq fun j hj => ?_)
    have hlt : i * (8 / k) + j / (8 * k) < (c.toChunks data).length := by
      rw [hlen, Nat.mul_comm (8 / k)]
      exact (Nat.add_lt_add_left (div_lt_of_mul_eq hword hj) _).trans_le
        (Nat.succ_mul i _ ▸ Nat.mul_le_mul_right _ hi')
    simpa [hi', hlt] using hbits i hi j hj
  · obtain ⟨i, hi, rfl⟩ := getElem_of_mem hv
    refine Nat.lt_pow_two_of_testBit _ fun j hj => ?_
    by_cases hj' : j < 64
    · rw [← getD_eq_getElem _ 0]
      exact (hbit hpos hi hj').trans (by simp [hj])
    · exact BitVec.getLsbD_of_ge _ _ (by omega)

theorem fromChunks_toChunks_two : (CPack.compressor 16 16 4).fromChunks
    ((CPack.compressor 16 16 4).toChunks [1, 2]) = [1, 2] :=
  ((CPack.compressor 16 16 4).fromChunks_toChunks (by decide) (by decide) rfl).1

/-- The dictionary after a compression. -/
def afterCompress (dict : Dictionary k) (data : List (BitVec 64)) : Option (Dictionary k) :=
  (c.compress dict data).map Prod.snd

/-- **Round trip of a line**, whatever the dictionary was before. -/
theorem Sound.decompress_compress {c : Compressor ν k} {I : ℕ → Dictionary k → Prop} (hc : c.Sound I)
    (hk : 0 < k) (hk8 : k ∣ 8) (hblk : 8 ∣ c.blkSize)
    (hreset : ∃ dict, c.resetDictionary = some dict ∧ I (c.blkSize * 8 / (8 * k)) dict)
    (beyond : ℕ → Entry k) (data : List (BitVec 64)) (before : Dictionary k) :
    ∃ comp dict, c.compress before data = some (comp, dict) ∧ (data.length = c.blkSize / 8 →
        ∀ before', c.decompress beyond before' comp = some (data, dict)) := by
  obtain ⟨dict0, hreset, hdict⟩ := hreset
  obtain ⟨comp, dict, hcomp, hdecomp⟩ := hc.decompressValues_compressChunks beyond
    ((c.toChunks data).map fun v => v.setWidth (8 * k))
    (by simpa [toChunks])
  have hcompress : c.compress before data
      = some ({ comp with
          size := if c.sizeThreshold * 8 < c.finalSize dict comp.size then c.blkSize * 8
            else c.finalSize dict comp.size }, dict) := by
    simp [compress, hreset, hcomp]
  refine ⟨_, dict, hcompress, ?_⟩
  · intro hdata before'
    simp [decompress, hreset, hdecomp, c.concatenate_toChunks hk hk8 hblk hdata]

end Compressor

/-! ## The compressors -/

/-- There is room for `m` more entries. -/
def Room (dictionarySize m : ℕ) (dict : Dictionary k) : Prop :=
  dict.dictionary.length = dictionarySize ∧ dict.numEntries + m ≤ dictionarySize

theorem Room.mono {dictionarySize m : ℕ} (h : Room dictionarySize (m + 1) dict) :
    Room dictionarySize m dict :=
  ⟨h.1, by have := h.2; omega⟩

theorem Room.append {dictionarySize m : ℕ} (data : Entry k) (h : Room dictionarySize (m + 1) dict) :
    ∃ dict', append dict data dictionarySize = some dict' ∧ Room dictionarySize m dict' := by
  obtain ⟨hlen, hroom⟩ := h
  refine ⟨_, if_pos (by omega), ?_, ?_⟩
  · rw [length_set, hlen]
  · show dict.numEntries + 1 + m ≤ dictionarySize
    omega

theorem addEntry_entries (comp : CompData ν k) (pattern : Pattern ν k) :
    ∃ pattern', (comp.addEntry pattern).entries = comp.entries ++ [pattern'] ∧
      pattern'.payload = pattern.payload ∧ pattern'.matchLocation = pattern.matchLocation ∧
      pattern'.allocate = pattern.allocate :=
  ⟨pattern, rfl, rfl, rfl, rfl⟩

section Instances

variable (blkSize sizeThreshold : ℕ) {dictionarySize : ℕ} (hmax : dictionarySize ≤ 256)

include hmax

theorem CPack.sound :
    (CPack.compressor blkSize sizeThreshold dictionarySize).Sound (Room dictionarySize) where
  classes := by
    have hmasked : ∀ number metadataLength mask, (CPack.masked number metadataLength mask).Sound :=
      fun number metadataLength mask bytes dictBytes loc h =>
        restores_masked number metadataLength loc bytes dictBytes true h
    have hvalue : ∀ number metadataLength value mask,
        (CPack.maskedValue number metadataLength value mask).Sound :=
      fun number metadataLength value mask bytes dictBytes loc h =>
        restores_maskedValue number metadataLength loc bytes dictBytes loc (.inl rfl) false h
    simp only [CPack.compressor, forall_mem_cons]
    exact ⟨hvalue _ _ _ _, hmasked _ _ _, hvalue _ _ _ _, hmasked _ _ _, hmasked _ _ _, by simp⟩
  last := ⟨fun bytes _ loc _ => restores_uncompressed _ _ loc bytes _, fun _ _ _ => rfl⟩
  addEntry := addEntry_entries
  inUse := by
    rintro m dict ⟨hlen, hroom⟩
    omega
  mono := fun _ _ h => h.mono
  add := fun _ _ data h => h.append data

theorem FPC.sound (zeroRunSizeBits : ℕ) :
    (FPC.compressor blkSize sizeThreshold dictionarySize zeroRunSizeBits).Sound
      fun _ dict => dict.dictionary.length = dictionarySize ∧ dict.numEntries = 0 where
  classes := by
    have hsign : ∀ number N, 0 < N → N ≤ 8 * 4 → (FPC.signExtended number N).Sound :=
      fun number N hN hN4 bytes dictBytes loc h =>
        restores_signExtended number 3 loc bytes dictBytes hN hN4 false h
    intro cls hmem
    simp only [FPC.compressor, mem_cons, not_mem_nil, or_false] at hmem
    rcases hmem with rfl | rfl | rfl | rfl | rfl | rfl | rfl
    · exact fun bytes dictBytes loc h =>
        restores_maskedValue FPC.PatternNumber.ZERO_RUN 3 loc bytes dictBytes (-1) (.inr rfl) false h
    · exact hsign _ 4 (by norm_num) (by norm_num)
    · exact hsign _ 8 (by norm_num) (by norm_num)
    · exact hsign _ 16 (by norm_num) (by norm_num)
    · exact fun bytes dictBytes loc h =>
        restores_maskedValue _ 3 loc bytes dictBytes (-1) (.inr rfl) false h
    · exact sound_twoHalfwords
    · exact fun bytes dictBytes loc h =>
        restores_repeatedValue _ 3 loc bytes dictBytes one_pos (one_dvd 4) (-1) (.inr rfl) false h
  last := ⟨fun bytes dictBytes loc _ => ⟨.inr rfl, fun _ _ => rfl⟩, fun _ _ _ => rfl⟩
  addEntry := by
    intro comp pattern
    show ∃ pattern', (FPC.addEntry zeroRunSizeBits comp pattern).entries = _ ∧ _
    unfold FPC.addEntry
    split_ifs
    · refine ⟨_, rfl, ?_⟩
      unfold FPC.markZeroRun
      split
      · exact ⟨rfl, rfl, rfl⟩
      · split
        · split_ifs <;> exact ⟨rfl, rfl, rfl⟩
        · exact ⟨rfl, rfl, rfl⟩
    · exact addEntry_entries comp pattern
  inUse := by
    rintro m dict ⟨hlen, hnum⟩
    omega
  mono := fun _ _ h => h
  add := fun _ dict _ h => ⟨dict, rfl, h⟩

theorem FPCD.sound :
    (FPCD.compressor blkSize sizeThreshold dictionarySize).Sound fun m dict =>
      dict.dictionary.length = dictionarySize ∧ dict.numEntries ≤ 2 ∧
        dict.numEntries ≤ dictionarySize ∧ min 2 (dict.numEntries + m) ≤ dictionarySize where
  classes := by
    have hvalue : ∀ number value mask, (FPCD.maskedValue number value mask).Sound :=
      fun number value mask bytes dictBytes loc h =>
        restores_maskedValue number _ loc bytes dictBytes loc (.inl rfl) true h
    have hlocated : ∀ number mask location, (FPCD.locatedMasked number mask location).Sound := by
      intro number mask location bytes dictBytes loc h
      simp only [FPCD.locatedMasked, isLocatedMasked, Bool.and_eq_true] at h
      exact restores_masked number _ loc bytes dictBytes true h.2
    simp only [FPCD.compressor, forall_mem_cons]
    refine ⟨hvalue _ _ _, hvalue _ _ _, hlocated _ _ _, hlocated _ _ _, hvalue _ _ _,
      hvalue _ _ _, ?_, hlocated _ _ _, hlocated _ _ _, hvalue _ _ _, hvalue _ _ _,
      hvalue _ _ _, hvalue _ _ _, hlocated _ _ _, hlocated _ _ _, by simp⟩
    exact fun bytes dictBytes loc h =>
      restores_repeatedValue _ _ loc bytes dictBytes one_pos (one_dvd 4) loc (.inl rfl) true h
  last := ⟨fun bytes _ loc _ => restores_uncompressed _ _ loc bytes _, fun _ _ _ => rfl⟩
  addEntry := addEntry_entries
  inUse := by
    rintro m dict ⟨hlen, -, hnum, -⟩
    omega
  mono := by
    rintro m dict ⟨hlen, htwo, hnum, hroom⟩
    exact ⟨hlen, htwo, hnum, by omega⟩
  add := by
    rintro m dict data ⟨hlen, htwo, hnum, hroom⟩
    show ∃ dict', FPCD.addToDictionary dict data = some dict' ∧ _
    unfold FPCD.addToDictionary
    by_cases hfull : dict.numEntries = 2
    · have hprevious : FPCD.previousIndex < dict.dictionary.length := by
        show 1 < _
        omega
      rw [if_pos hfull, getElem?_eq_getElem hprevious]
      refine ⟨_, rfl, ?_, htwo, hnum, ?_⟩
      · rw [length_set, length_set, hlen]
      · show min 2 (dict.numEntries + m) ≤ dictionarySize
        omega
    · rw [if_neg hfull, if_pos (by omega)]
      refine ⟨_, rfl, ?_, ?_, ?_, ?_⟩
      · rw [length_set, hlen]
      · show dict.numEntries + 1 ≤ 2
        omega
      · show dict.numEntries + 1 ≤ dictionarySize
        omega
      · show min 2 (dict.numEntries + 1 + m) ≤ dictionarySize
        omega

theorem BaseDelta.sound (deltaSizeBits : ℕ) :
    (BaseDelta.compressor k deltaSizeBits blkSize sizeThreshold dictionarySize).Sound
      (Room dictionarySize) where
  classes := by
    intro cls hmem
    obtain rfl := mem_singleton.mp hmem
    exact fun _ _ _ _ => ⟨.inl rfl, fun _ _ => rfl⟩
  last := ⟨fun bytes _ loc _ => restores_uncompressed _ _ loc bytes _, fun _ _ _ => rfl⟩
  addEntry := addEntry_entries
  inUse := by
    rintro m dict ⟨hlen, hroom⟩
    omega
  mono := fun _ _ h => h.mono
  add := fun _ _ data h => h.append data

end Instances

/-! ## All of them -/

/-- The compressors; a base of BaseDelta has `size` bytes. -/
inductive Scheme where
  | CPack
  | FPC (zeroRunSizeBits : ℕ)
  | FPCD
  | BaseDelta (size deltaSizeBits : ℕ)

namespace Scheme

def PatternNumber : Scheme → Type
  | CPack => Compression.CPack.PatternNumber
  | FPC _ => Compression.FPC.PatternNumber
  | FPCD => Compression.FPCD.PatternNumber
  | BaseDelta _ _ => Compression.BaseDelta.PatternNumber

/-- `sizeof(T)` -/
def sizeofT : Scheme → ℕ
  | CPack | FPC _ | FPCD => 4
  | BaseDelta size _ => size

/-- `T` is an unsigned integer type of at most 64 bits, and a delta is smaller. -/
def Valid : Scheme → Prop
  | BaseDelta size deltaSizeBits => size ∣ 8 ∧ deltaSizeBits < 8 * size
  | _ => True

/-- The entries that a line of so many chunks may need.  FPC stores nothing in its
dictionary, but reads through `begin()`, which an empty one does not have. -/
def room (chunks : ℕ) : Scheme → ℕ
  | CPack => chunks
  | FPC _ => 1
  | FPCD => min 2 chunks
  | BaseDelta _ _ => chunks + 1

def compressor (blkSize sizeThreshold dictionarySize : ℕ) :
    (s : Scheme) → Compressor s.PatternNumber s.sizeofT
  | CPack => Compression.CPack.compressor blkSize sizeThreshold dictionarySize
  | FPC zeroRunSizeBits =>
    Compression.FPC.compressor blkSize sizeThreshold dictionarySize zeroRunSizeBits
  | FPCD => Compression.FPCD.compressor blkSize sizeThreshold dictionarySize
  | BaseDelta size deltaSizeBits =>
    Compression.BaseDelta.compressor size deltaSizeBits blkSize sizeThreshold dictionarySize

theorem blkSize_compressor (s : Scheme) (blkSize sizeThreshold dictionarySize : ℕ) :
    (s.compressor blkSize sizeThreshold dictionarySize).blkSize = blkSize := by
  cases s <;> rfl

theorem Valid.sizeofT_dvd {s : Scheme} (hs : s.Valid) : 0 < s.sizeofT ∧ s.sizeofT ∣ 8 := by
  cases s with
  | BaseDelta size deltaSizeBits => exact ⟨Nat.pos_of_dvd_of_pos hs.1 (by norm_num), hs.1⟩
  | _ => exact ⟨by norm_num [sizeofT], by norm_num [sizeofT]⟩

/-- Every compressor is sound, from the dictionary that a reset leaves. -/
theorem exists_sound (s : Scheme) (blkSize sizeThreshold : ℕ) {dictionarySize chunks : ℕ}
    (hroom : s.room chunks ≤ dictionarySize) (hmax : dictionarySize ≤ 256) :
    ∃ I dict, (s.compressor blkSize sizeThreshold dictionarySize).Sound I ∧
      (s.compressor blkSize sizeThreshold dictionarySize).resetDictionary = some dict ∧
      I chunks dict := by
  cases s with
  | CPack =>
    refine ⟨_, _, Compression.CPack.sound blkSize sizeThreshold hmax, rfl, ?_, ?_⟩
    · exact length_replicate
    · simpa [room, Compressor.cleared] using hroom
  | FPC zeroRunSizeBits =>
    exact ⟨_, _, Compression.FPC.sound blkSize sizeThreshold hmax zeroRunSizeBits, rfl,
      length_replicate, rfl⟩
  | FPCD =>
    refine ⟨_, _, Compression.FPCD.sound blkSize sizeThreshold hmax, rfl, ?_, ?_, ?_, ?_⟩
    · exact length_replicate
    · exact Nat.zero_le 2
    · exact Nat.zero_le _
    · simpa [room, Compressor.cleared] using hroom
  | BaseDelta size deltaSizeBits =>
    have hcleared : Room dictionarySize (chunks + 1) (Compressor.cleared
        (Compression.BaseDelta.compressor size deltaSizeBits blkSize sizeThreshold
          dictionarySize)) := by
      refine ⟨length_replicate, ?_⟩
      simpa [room, Compressor.cleared] using hroom
    obtain ⟨dict, hadd, hdict⟩ := hcleared.append (toDictionaryEntry 0)
    exact ⟨_, dict, Compression.BaseDelta.sound blkSize sizeThreshold hmax deltaSizeBits,
      (bind_pure _).trans hadd, hdict⟩

end Scheme

/-- **The compressors are lossless**: a line that is compressed after any lines before,
and decompressed after any lines since, is the line again. -/
theorem compress_lossless (s : Scheme) (hs : s.Valid) (blkSize sizeThreshold dictionarySize : ℕ)
    (hblk : 8 ∣ blkSize) (hroom : s.room (blkSize / s.sizeofT) ≤ dictionarySize)
    (hmax : dictionarySize ≤ 256) (beyond : ℕ → Entry s.sizeofT)
    (earlier later : List (List (BitVec 64))) (data : List (BitVec 64))
    (hdata : data.length = blkSize / 8) : let c := s.compressor blkSize sizeThreshold dictionarySize
    ∃ dict0 comp dict1 dict2 dict3, runSteps c.afterCompress c.cleared earlier = some dict0 ∧
      c.compress dict0 data = some (comp, dict1) ∧
      runSteps c.afterCompress dict1 later = some dict2 ∧
      c.decompress beyond dict2 comp = some (data, dict3) := by
  intro c
  obtain ⟨hk, hk8⟩ := hs.sizeofT_dvd
  obtain ⟨I, reset, hsound, hreset, hI⟩ := s.exists_sound blkSize sizeThreshold hroom hmax
  have hblkSize : c.blkSize = blkSize := s.blkSize_compressor blkSize sizeThreshold dictionarySize
  have hchunks : c.blkSize * 8 / (8 * s.sizeofT) = blkSize / s.sizeofT := by
    rw [hblkSize, Nat.mul_comm, Nat.mul_div_mul_left _ _ (by norm_num)]
  have hline := hsound.decompress_compress hk hk8 (by rw [s.blkSize_compressor]; exact hblk)
    ⟨reset, hreset, by rw [hchunks]; exact hI⟩ beyond
  have hafter : ∀ dict l, True → ∃ dict', c.afterCompress dict l = some dict' ∧ True := by
    intro dict l _
    obtain ⟨comp, dict', hcompress, -⟩ := hline l dict
    exact ⟨dict', congrArg (Option.map Prod.snd) hcompress, trivial⟩
  obtain ⟨dict0, hdict0, -⟩ := runSteps_total hafter earlier trivial
  obtain ⟨comp, dict1, hcompress, hdecompress⟩ := hline data dict0
  obtain ⟨dict2, hdict2, -⟩ := runSteps_total hafter later trivial
  exact ⟨dict0, comp, dict1, dict2, dict1, hdict0, hcompress, hdict2,
    hdecompress (by rw [hdata]; exact congrArg (· / 8) hblkSize.symm) dict2⟩

/-- CPack with a block of two words and four entries, and a line that uses the
dictionary. -/
theorem compress_lossless_cpack : let c := Scheme.CPack.compressor 16 16 4
    ∃ dict0 comp dict1 dict2 dict3,
      runSteps c.afterCompress c.cleared [[1, 2], [3, 4]] = some dict0 ∧
      c.compress dict0 [0x1234567812345678, 0x12345600000000FF] = some (comp, dict1) ∧
      runSteps c.afterCompress dict1 [[5, 6]] = some dict2 ∧
      c.decompress (fun _ _ => 0) dict2 comp
        = some ([0x1234567812345678, 0x12345600000000FF], dict3) :=
  compress_lossless .CPack trivial 16 16 4 (by decide) (by decide) (by decide) _ _ _ _ rfl

end Compression
