import CComplete.CutTm.Model
import Mathlib.Data.List.GetD

/-!
# Cutting and reconstructing a file

One turn of the cutter writes two header bytes and the payload of its part, and no other byte of the
output. After a cut, every part therefore has its payload, and in a fresh process the other header
bytes are still zero. The joiner reads the number of parts and the payloads back; it takes the
length of the last part from `output_size`. The last part of a file whose size is a multiple of
`C__MAX_PART_SIZE` is cut with length 0, so such a file loses its last part unless it is empty
(`reconstruct_original_iff`).
-/

set_option autoImplicit false

namespace CComplete.CutTm

open CComplete.Library

theorem maxTotalLength_eq : maxTotalLength = 240 := rfl

theorem maxPartSize_eq : maxPartSize = 232 := rfl

theorem remainder_lt (size : ℕ) : size % maxPartSize < maxPartSize := Nat.mod_lt _ (by decide)

/-! ## What one part writes -/

theorem byte_storeByte (m : Memory) (i : ℕ) (b : UInt8) (p : ℕ) :
    (storeByte m i b).byte p = if p = i then b else m.byte p := by
  rw [storeByte, Memory.byte_copyIn]
  by_cases h : p = i
  · rw [if_pos h, if_pos (by omega)]
  · rw [if_neg h, if_neg (by omega)]

/-- The copy loop writes the payload and nothing else. -/
theorem byte_copyPart (m : Memory) (off : ℕ) (buff : Bytes) (n p : ℕ) (hoff : off + n ≤ 2 ^ 32) :
    (copyPart m off buff n).byte p =
      if off ≤ p ∧ p < off + n then buff.getD (p - off) 0 else m.byte p := by
  induction n with
  | zero =>
    rw [if_neg (by omega)]
    rfl
  | succ n ih =>
    have hstep : copyPart m off buff (n + 1) =
        storeByte (copyPart m off buff n) (toUnsignedInt (off + n : ℕ)) (buff.getD n 0) := by
      simp [copyPart, List.range_succ]
    rw [hstep, byte_storeByte, toUnsignedInt_of_lt (by omega), ih (by omega)]
    -- below, at or above the byte of this turn
    rcases Nat.lt_trichotomy p (off + n) with hlt | rfl | hgt
    · rw [if_neg hlt.ne]
      exact if_congr (by omega) rfl rfl
    · rw [if_pos rfl, if_pos (by omega), Nat.add_sub_cancel_left]
    · rw [if_neg hgt.ne', if_neg (by omega), if_neg (by omega)]

theorem partSize_le {n r i : ℕ} (hr : r ≤ maxPartSize) : partSize n r i ≤ maxPartSize := by
  rw [partSize]
  split
  · exact le_rfl
  · exact hr

/-- Part number `i` of `n` in the output: the two header bytes and the payload. -/
structure HoldsPart (fp : Bytes) (n r : ℕ) (m : Memory) (i : ℕ) : Prop where
  total : m.byte ((maxTotalLength * i : ℕ) : ℤ) = UInt8.ofNat n
  actual : m.byte ((maxTotalLength * i + 4 : ℕ) : ℤ) = UInt8.ofNat i
  payload : m.block ((maxTotalLength * i + 8 : ℕ) : ℤ) (partSize n r i) =
    pread fp (maxPartSize * i) (partSize n r i)

/-- The indexes that part number `i` writes. -/
def Written (n r i p : ℕ) : Prop :=
  p = maxTotalLength * i ∨ p = maxTotalLength * i + 4 ∨
    (maxTotalLength * i + 8 ≤ p ∧ p < maxTotalLength * i + 8 + partSize n r i)

variable {fp : Bytes} {n r i : ℕ}

theorem HoldsPart.congr {m m' : Memory} (h : HoldsPart fp n r m i) (hr : r ≤ maxPartSize)
    (heq : ∀ p : ℕ, maxTotalLength * i ≤ p → p < maxTotalLength * (i + 1) →
      m'.byte p = m.byte p) : HoldsPart fp n r m' i := by
  have hsize := partSize_le (n := n) (i := i) hr
  obtain ⟨htotal, hactual, hpayload⟩ := h
  refine ⟨?_, ?_, ?_⟩
  all_goals simp only [maxTotalLength_eq, maxPartSize_eq] at *
  · exact (heq _ (by omega) (by omega)).trans htotal
  · exact (heq _ (by omega) (by omega)).trans hactual
  · rw [← hpayload]
    refine Memory.block_congr fun j hj => ?_
    rw [← Nat.cast_add]
    exact heq _ (by omega) (by omega)

/-- The bytes of the output after one turn of the cutter. -/
theorem byte_cutPart (fp : Bytes) (n : ℕ) (st : Output × Bytes)
    (hi : maxTotalLength * (i + 1) ≤ 2 ^ 32)
    (hr : r ≤ maxPartSize) (p : ℕ) :
    (cutPart fp n r st i).1.outputCutTm.byte p =
      if maxTotalLength * i + 8 ≤ p ∧ p < maxTotalLength * i + 8 + partSize n r i then
        (overlay (pread fp (maxPartSize * i) (partSize n r i)) st.2).getD
          (p - (maxTotalLength * i + 8)) 0
      else if p = maxTotalLength * i + 4 then UInt8.ofNat i
      else if p = maxTotalLength * i then UInt8.ofNat n
      else st.1.outputCutTm.byte p := by
  have hsize := partSize_le (n := n) (i := i) hr
  simp only [maxTotalLength_eq, maxPartSize_eq] at *
  -- none of the four `unsigned int` offsets wraps
  have hnumber : toUnsignedInt (i * 240 : ℕ) = 240 * i := by
    rw [Nat.mul_comm]
    exact toUnsignedInt_of_lt (by omega)
  have hid : toUnsignedInt (240 * i + 4 : ℕ) = 240 * i + 4 := toUnsignedInt_of_lt (by omega)
  have hout : toUnsignedInt (240 * i + 4 + 4 : ℕ) = 240 * i + 8 := toUnsignedInt_of_lt (by omega)
  have hfile : toUnsignedInt (i * 232 : ℕ) = 232 * i := by
    rw [Nat.mul_comm]
    exact toUnsignedInt_of_lt (by omega)
  simp only [cutPart, maxTotalLength_eq, maxPartSize_eq, sizeofTotalNumberField,
    sizeofActualPartField, hnumber, hid, hout, hfile]
  rw [byte_copyPart _ _ _ _ _ (by omega), byte_storeByte, byte_storeByte]
  rfl

/-- One turn of the cutter puts part number `i` into the output and keeps all bytes that it does not
write. -/
theorem cutPart_holds (st : Output × Bytes) (hi : maxTotalLength * (i + 1) ≤ 2 ^ 32)
    (hr : r ≤ maxPartSize) (hfile : maxPartSize * i + partSize n r i ≤ fp.length) :
    HoldsPart fp n r (cutPart fp n r st i).1.outputCutTm i ∧
      ∀ p, ¬ Written n r i p →
        (cutPart fp n r st i).1.outputCutTm.byte p = st.1.outputCutTm.byte p := by
  have hbyte := byte_cutPart fp n st hi hr
  have hlen : (pread fp (maxPartSize * i) (partSize n r i)).length = partSize n r i := by
    rw [length_pread]
    omega
  refine ⟨⟨?_, ?_, ?_⟩, fun p hp => ?_⟩
  -- the two header bytes, the payload byte by byte, the frame
  · rw [hbyte, if_neg (by omega), if_neg (by omega), if_pos rfl]
  · rw [hbyte, if_neg (by omega), if_pos rfl]
  · apply List.ext_getElem
    · rw [Memory.length_block, hlen]
    · intro j hj hj'
      rw [Memory.length_block] at hj
      rw [Memory.getElem_block, ← Nat.cast_add, hbyte, if_pos (by omega), Nat.add_sub_cancel_left,
        overlay, List.getD_append _ _ _ _ hj', List.getD_eq_getElem _ _ hj']
  · rw [Written, not_or, not_or] at hp
    rw [hbyte, if_neg hp.2.2, if_neg hp.2.1, if_neg hp.1]

/-! ## What a cut writes -/

/-- A part writes between its header and the next part. -/
theorem Written.bounds {p : ℕ} (h : Written n r i p) (hr : r ≤ maxPartSize) :
    maxTotalLength * i ≤ p ∧ p < maxTotalLength * (i + 1) := by
  have hsize := partSize_le (n := n) (i := i) hr
  simp only [Written, maxTotalLength_eq, maxPartSize_eq] at *
  omega

/-- The upper bytes of the two header fields are never written. -/
theorem not_written_header (hr : r ≤ maxPartSize) (j : ℕ) {c : ℕ} (hc : c < 8) (h0 : c ≠ 0)
    (h4 : c ≠ 4) : ¬ Written n r i (maxTotalLength * j + c) := by
  have hsize := partSize_le (n := n) (i := i) hr
  simp only [Written, maxTotalLength_eq, maxPartSize_eq] at *
  omega

/-- After the first `k` turns, the output has the first `k` parts, and all other bytes are those of
the start. -/
theorem cutParts_hold (hn : maxTotalLength * n ≤ 2 ^ 32) (hr : r ≤ maxPartSize)
    (hfile : ∀ i, i < n → maxPartSize * i + partSize n r i ≤ fp.length) (st : Output × Bytes)
    (k : ℕ) (hk : k ≤ n) :
    let m := ((List.range k).foldl (cutPart fp n r) st).1.outputCutTm
    (∀ i, i < k → HoldsPart fp n r m i) ∧
      ∀ p, (∀ i, i < k → ¬ Written n r i p) → m.byte p = st.1.outputCutTm.byte p := by
  induction k with
  | zero => exact ⟨fun i hi => absurd hi (Nat.not_lt_zero i), fun p _ => rfl⟩
  | succ k ih =>
    obtain ⟨hparts, hkeep⟩ := ih (Nat.le_of_succ_le hk)
    have hoff : maxTotalLength * (k + 1) ≤ 2 ^ 32 := (Nat.mul_le_mul_left _ hk).trans hn
    obtain ⟨hnew, hframe⟩ := cutPart_holds ((List.range k).foldl (cutPart fp n r) st) hoff hr
      (hfile k hk)
    rw [List.range_succ, List.foldl_concat]
    refine ⟨fun i hi => ?_, fun p hp => ?_⟩
    · rcases Nat.lt_or_eq_of_le (Nat.le_of_lt_succ hi) with hlt | rfl
      · -- an earlier part lies below everything that this turn writes
        refine (hparts i hlt).congr hr fun p _ hp => hframe p fun hw => ?_
        have hnext := Nat.mul_le_mul_left maxTotalLength (show i + 1 ≤ k from hlt)
        have := (hw.bounds hr).1
        omega
      · exact hnew
    · exact (hframe p (hp k (Nat.lt_succ_self k))).trans
        (hkeep p fun i hi => hp i (Nat.lt_succ_of_lt hi))

theorem partSize_of_lt (hi : i + 1 < n) (hn : n < 2 ^ 32) : partSize n r i = maxPartSize := by
  have hlast : toUnsignedInt ((n : ℤ) - 1) = n - 1 := by
    rw [← Nat.cast_pred (by omega)]
    exact toUnsignedInt_of_lt (by omega)
  rw [partSize, hlast, if_pos (by omega)]

theorem partSize_last (hi : i + 1 < 2 ^ 32) : partSize (i + 1) r i = r := by
  have hlast : toUnsignedInt (((i + 1 : ℕ) : ℤ) - 1) = i := by
    rw [Nat.cast_succ, add_sub_cancel_right]
    exact toUnsignedInt_of_lt (by omega)
  rw [partSize, hlast, if_neg (fun h => h rfl)]

theorem outputSize_cutPart (st : Output × Bytes) (i : ℕ) :
    (cutPart fp n r st i).1.outputSize =
      toUnsignedInt (st.1.outputSize + (8 + partSize n r i) : ℕ) := rfl

/-- The output size before the last part: whole parts only. -/
theorem outputSize_cutParts (fp : Bytes) (r : ℕ) (st : Output × Bytes) (hn : n < 2 ^ 32) (k : ℕ)
    (hk : k < n)
    (hsize : st.1.outputSize + maxTotalLength * k < 2 ^ 32) :
    ((List.range k).foldl (cutPart fp n r) st).1.outputSize =
      st.1.outputSize + maxTotalLength * k := by
  induction k with
  | zero => rfl
  | succ k ih =>
    rw [Nat.mul_succ] at hsize ⊢
    rw [List.range_succ, List.foldl_concat, outputSize_cutPart,
      ih (by omega) (by omega), partSize_of_lt hk hn]
    rw [maxTotalLength_eq] at hsize ⊢
    rw [maxPartSize_eq, toUnsignedInt_of_lt (by omega)]
    omega

/-! ## What the joiner reads -/

/-- The payload of a part that was read into the buffer. -/
theorem HoldsPart.payload_read {m : Memory} (h : HoldsPart fp n r m i) (buffer : Bytes) :
    ((overlay (m.block ((maxTotalLength * i : ℕ) : ℤ) (8 + partSize n r i)) buffer).drop 8).take
        (partSize n r i) = pread fp (maxPartSize * i) (partSize n r i) := by
  rw [take_drop_overlay _ _ (Memory.length_block _ _ _).symm, Memory.block_add,
    List.drop_left' (Memory.length_block _ _ _), ← h.payload, ← Nat.cast_add]

/-- On a file with the parts of `fp`, the joiner copies the payloads of the parts that remain. -/
theorem reconstructLoop_eq {m : Memory} (hr : r ≤ maxPartSize) (hn : n ≤ maxPartsNumber)
    (hparts : ∀ i, i < n → HoldsPart fp n r m i) (k : ℕ) :
    ∀ (i : ℕ) (buffer out : Bytes), k + 1 + i = n → buffer.length = maxTotalLength →
      reconstructLoop (maxTotalLength * (n - 1) + (8 + r))
          (m.block 0 (maxTotalLength * (n - 1) + (8 + r))) n (k + 1) i (maxTotalLength * i) buffer
          out =
        some (out ++ pread fp (maxPartSize * i) (maxPartSize * k + r)) := by
  have hn' : n ≤ 255 := hn
  rw [maxPartSize_eq] at hr
  induction k with
  | zero =>
    -- the last part: its length is what `output_size` leaves
    intro i buffer out hlast hbuffer
    obtain rfl : n = i + 1 := by omega
    have hread := (hparts i (Nat.lt_succ_self i)).payload_read buffer
    rw [partSize_last (by omega)] at hread
    have hpart : toUnsignedInt (((maxTotalLength * (i + 1 - 1) + (8 + r) : ℕ) : ℤ) -
        ((maxTotalLength * i : ℕ) : ℤ)) = 8 + r := by
      rw [Nat.add_sub_cancel, Nat.cast_add, add_sub_cancel_left]
      exact toUnsignedInt_of_lt (by omega)
    have hsize : toUnsignedLong (((8 + r : ℕ) : ℤ) -
        ((sizeofTotalNumberField + sizeofActualPartField : ℕ) : ℤ)) = r := by
      rw [show sizeofTotalNumberField + sizeofActualPartField = 8 from rfl, Nat.cast_add,
        add_sub_cancel_left]
      exact toUnsignedLong_of_lt (by omega)
    have hfile : pread (m.block 0 (maxTotalLength * (i + 1 - 1) + (8 + r))) (maxTotalLength * i)
        (8 + r) = m.block ((maxTotalLength * i : ℕ) : ℤ) (8 + r) := by
      rw [Memory.pread_block m 0 (by rw [Nat.add_sub_cancel]), zero_add]
    rw [reconstructLoop, if_neg (by omega)]
    simp only [hpart, hsize, hfile]
    rw [if_pos, reconstructLoop, Nat.mul_zero, Nat.zero_add, ← hread]
    · rfl
    · rw [length_overlay, Memory.length_block, hbuffer, maxTotalLength_eq,
        show sizeofTotalNumberField + sizeofActualPartField = 8 from rfl]
      omega
  | succ k ih =>
    -- a whole part, then the parts after it
    intro i buffer out hmore hbuffer
    have hread := (hparts i (by omega)).payload_read buffer
    rw [partSize_of_lt (by omega) (by omega)] at hread
    have hoffset : toUnsignedInt (maxTotalLength * i + maxTotalLength : ℕ) =
        maxTotalLength * (i + 1) := by
      rw [maxTotalLength_eq]
      exact toUnsignedInt_of_lt (by omega)
    have hfile : pread (m.block 0 (maxTotalLength * (n - 1) + (8 + r))) (maxTotalLength * i)
        maxTotalLength = m.block ((maxTotalLength * i : ℕ) : ℤ) maxTotalLength := by
      have hle : maxTotalLength * (i + 1) ≤ maxTotalLength * (n - 1) :=
        Nat.mul_le_mul_left _ (by omega)
      rw [Memory.pread_block m 0 (by rw [Nat.mul_succ] at hle; omega), zero_add]
    have hwhole : (overlay (m.block ((maxTotalLength * i : ℕ) : ℤ) maxTotalLength) buffer).length =
        maxTotalLength := by
      rw [length_overlay, Memory.length_block, hbuffer, Nat.max_self]
    have hsplit : pread fp (maxPartSize * i) (maxPartSize * (k + 1) + r) =
        pread fp (maxPartSize * i) maxPartSize ++
          pread fp (maxPartSize * (i + 1)) (maxPartSize * k + r) := by
      rw [Nat.mul_succ maxPartSize i, ← pread_add]
      congr 1
      rw [Nat.mul_succ]
      omega
    rw [reconstructLoop, if_pos (by omega)]
    simp only [hfile, hoffset]
    rw [ih (i + 1) _ _ (by omega) hwhole, hsplit, ← hread, List.append_assoc]
    rfl

/-! ## Round trip -/

theorem numberOfParts_le {size : ℕ} (h : size ≤ maxPartsNumber * maxPartSize) :
    numberOfParts size ≤ maxPartsNumber := by
  rw [numberOfParts, maxPartsNumber, maxPartSize_eq] at *
  split <;> omega

/-- The parts lie in the file. -/
theorem part_le_length (size : ℕ) (hn : numberOfParts size < 2 ^ 32) (i : ℕ)
    (hi : i < numberOfParts size) :
    maxPartSize * i + partSize (numberOfParts size) (size % maxPartSize) i ≤ size := by
  have hq : numberOfParts size - 1 ≤ size / maxPartSize := by
    rw [numberOfParts, maxPartSize_eq]
    split <;> omega
  rcases Nat.lt_or_eq_of_le (Nat.succ_le_of_lt hi) with hlt | hlast
  · rw [partSize_of_lt hlt hn, maxPartSize_eq] at *
    omega
  · rw [← hlast] at hq hn ⊢
    rw [partSize_last hn, maxPartSize_eq] at *
    omega

/-- A cut of a file of the supported size runs the loop once for each part. -/
theorem cutTheTm_eq (s : Output) (fp : Bytes) (hfp : fp.length ≤ maxPartsNumber * maxPartSize) :
    let n := numberOfParts fp.length
    cutTheTm s fp (UInt32.ofNat fp.length) =
      (n, ((List.range n).foldl (cutPart fp n (fp.length % maxPartSize))
        (s, List.replicate maxPartSize 0)).1) := by
  have hlt : fp.length < 2 ^ 32 := lt_of_le_of_lt hfp (by decide)
  have hbase : (UInt32.ofNat fp.length).toNat = fp.length := UInt32.toNat_ofNat_of_lt' hlt
  simp only [cutTheTm, hbase]

/-- A cut of a file of the supported size, whatever was cut before: all parts are in the output and
no byte outside of them changed. -/
theorem cutTheTm_parts (s : Output) (fp : Bytes)
    (hfp : fp.length ≤ maxPartsNumber * maxPartSize) :
    let n := numberOfParts fp.length
    let r := fp.length % maxPartSize
    let m := (cutTheTm s fp (UInt32.ofNat fp.length)).2.outputCutTm
    (∀ i, i < n → HoldsPart fp n r m i) ∧
      ∀ p, (∀ i, i < n → ¬ Written n r i p) → m.byte p = s.outputCutTm.byte p := by
  intro n r m
  have hn : n ≤ 255 := numberOfParts_le hfp
  have hr : r < maxPartSize := remainder_lt _
  simp only [m, cutTheTm_eq s fp hfp]
  exact cutParts_hold (by rw [maxTotalLength_eq]; omega) hr.le
    (part_le_length fp.length (show n < 2 ^ 32 by omega)) (s, List.replicate maxPartSize 0) n le_rfl

/-- A cut of a file of the supported size, with room in `output_size`: it also grows by the length
of the parts. -/
theorem cutTheTm_holds (s : Output) (fp : Bytes) (hfp : fp.length ≤ maxPartsNumber * maxPartSize)
    (hsize : s.outputSize + maxTotalLength * maxPartsNumber < 2 ^ 32) :
    let n := numberOfParts fp.length
    let r := fp.length % maxPartSize
    let call := cutTheTm s fp (UInt32.ofNat fp.length)
    call.1 = n ∧ (∀ i, i < n → HoldsPart fp n r call.2.outputCutTm i) ∧
      (∀ p, (∀ i, i < n → ¬ Written n r i p) →
        call.2.outputCutTm.byte p = s.outputCutTm.byte p) ∧
      call.2.outputSize =
        s.outputSize + if n = 0 then 0 else maxTotalLength * (n - 1) + (8 + r) := by
  intro n r call
  have hn : n ≤ 255 := numberOfParts_le hfp
  have hr : r < maxPartSize := remainder_lt _
  have hcall : call = (n, ((List.range n).foldl (cutPart fp n r)
      (s, List.replicate maxPartSize 0)).1) := cutTheTm_eq s fp hfp
  obtain ⟨hparts, hkeep⟩ := cutTheTm_parts s fp hfp
  rw [maxTotalLength_eq, maxPartsNumber] at hsize
  refine ⟨congrArg Prod.fst hcall, hparts, hkeep, ?_⟩
  rw [hcall]
  rcases Nat.eq_zero_or_eq_succ_pred n with hzero | hsucc
  · rw [hzero, if_pos rfl]
    rfl
  · -- whole parts first, then the last one
    generalize n.pred = k at hsucc
    have hwhole := outputSize_cutParts fp r (s, List.replicate maxPartSize 0)
      (show n < 2 ^ 32 by omega) k (by omega)
      (by rw [maxTotalLength_eq]; show s.outputSize + 240 * k < 2 ^ 32; omega)
    rw [hsucc] at hwhole ⊢
    rw [maxPartSize_eq] at hr
    rw [List.range_succ, List.foldl_concat, outputSize_cutPart,
      hwhole, partSize_last (by omega), if_neg (Nat.succ_ne_zero k), Nat.succ_sub_one,
      Nat.add_assoc, maxTotalLength_eq]
    exact toUnsignedInt_of_lt (show s.outputSize + (240 * k + (8 + r)) < 2 ^ 32 by omega)

/-- A number below 256 that is stored in the first byte of a field is its whole word, if the other
three bytes are zero. -/
theorem block_header {m : Memory} {a : ℤ} (hn : n ≤ maxPartsNumber)
    (hlow : m.byte a = UInt8.ofNat n) (hzero : ∀ c : ℕ, 0 < c → c < 4 → m.byte (a + c) = 0) :
    m.block a 4 = le32 (UInt32.ofNat n) := by
  have hn' : n ≤ 255 := hn
  have hbytes : m.block a 4 = [m.byte (a + 0), m.byte (a + 1), m.byte (a + 2), m.byte (a + 3)] :=
    rfl
  -- the number fits into the one byte that is assigned
  have hupper : ∀ j, 8 ≤ j → UInt8.ofNat (n / 2 ^ j) = 0 := by
    intro j hj
    have hpow : 2 ^ 8 ≤ 2 ^ j := Nat.pow_le_pow_right (by decide) hj
    rw [Nat.div_eq_of_lt (by omega)]
    rfl
  rw [hbytes, add_zero, hlow, show m.byte (a + 1) = 0 from hzero 1 (by decide) (by decide),
    show m.byte (a + 2) = 0 from hzero 2 (by decide) (by decide),
    show m.byte (a + 3) = 0 from hzero 3 (by decide) (by decide), le32,
    UInt32.toNat_ofNat_of_lt' (show n < 2 ^ 32 by omega), hupper 8 (by decide),
    hupper 16 (by decide), hupper 24 (by decide)]

/-- In a fresh process, the cut file starts with the number of parts as a whole word. -/
theorem readAt_total {m : Memory} (hn : n ≤ maxPartsNumber) (htotal : m.byte 0 = UInt8.ofNat n)
    (hzero : ∀ c : ℕ, 0 < c → c < 4 → m.byte c = 0) {size : ℕ} (hsize : 4 ≤ size) :
    wordCodec.readAt (m.block 0 size) 0 0 = UInt32.ofNat n := by
  have hword : m.block 0 4 = le32 (UInt32.ofNat n) := by
    refine block_header hn htotal fun c h0 h4 => ?_
    rw [zero_add]
    exact hzero c h0 h4
  refine Codec.Holds.readAt_eq ?_ 0
  show pread (m.block 0 size) 0 4 = _
  rw [Memory.pread_block m 0 (by omega), Nat.cast_zero, add_zero, hword]
  rfl

/-- In a fresh process, the reconstructed file is the file up to the part that was cut last, with
the remainder as the length of that part. -/
theorem reconstructed_eq (d : Disk) (fp : Bytes)
    (hfp : fp.length ≤ maxPartsNumber * maxPartSize) :
    ∃ d', (testCutTm zeroOutput d fp).2 = some d' ∧ d'.outReconstructed =
      some (fp.take (maxPartSize * (numberOfParts fp.length - 1) + fp.length % maxPartSize)) := by
  obtain ⟨-, hparts, hkeep, hsize⟩ := cutTheTm_holds zeroOutput fp hfp (by decide)
  have hn := numberOfParts_le hfp
  have hr := remainder_lt fp.length
  rw [testCutTm]
  generalize (cutTheTm zeroOutput fp (UInt32.ofNat fp.length)).2 = s at *
  have hpart : numberOfParts fp.length = 0 → fp.length % maxPartSize = 0 := by
    intro hzero
    rw [numberOfParts, maxPartSize_eq] at hzero
    rw [maxPartSize_eq]
    split at hzero <;> omega
  generalize numberOfParts fp.length = n at *
  generalize fp.length % maxPartSize = r at *
  rw [show zeroOutput.outputSize = 0 from rfl, Nat.zero_add] at hsize
  cases n with
  | zero =>
    -- the empty file: nothing is cut and nothing is read back
    rw [hpart rfl]
    refine ⟨{ d with outFile := some [], outReconstructed := some [] }, ?_, by simp⟩
    rw [if_pos rfl] at hsize
    simp only [saveToNewFile, if_true, hsize, reconstruct]
    rfl
  | succ k =>
    rw [if_neg (Nat.succ_ne_zero k)] at hsize
    have hn' : k + 1 ≤ 255 := hn
    -- bytes 1 to 3 of the first word are the zeros of the static array
    have htotal : wordCodec.readAt (s.outputCutTm.block 0 s.outputSize) 0 0 =
        UInt32.ofNat (k + 1) := by
      refine readAt_total hn (hparts 0 (Nat.succ_pos k)).total (fun c h0 h4 => ?_) (by omega)
      have hgap : ∀ i, i < k + 1 → ¬ Written (k + 1) r i (maxTotalLength * 0 + c) := fun i _ =>
        not_written_header hr.le 0 (by omega) (by omega) (by omega)
      rw [Nat.mul_zero, Nat.zero_add] at hgap
      exact hkeep c hgap
    have hloop := reconstructLoop_eq hr.le hn hparts k 0 (List.replicate maxTotalLength 0) []
      (Nat.add_zero _) List.length_replicate
    rw [← hsize] at hloop
    have hcount : (UInt32.ofNat (k + 1)).toNat = k + 1 :=
      UInt32.toNat_ofNat_of_lt' (show k + 1 < 2 ^ 32 by omega)
    refine ⟨{ d with
      outFile := some (s.outputCutTm.block 0 s.outputSize)
      outReconstructed := some (pread fp 0 (maxPartSize * k + r)) }, ?_, rfl⟩
    simp only [saveToNewFile, if_true, reconstruct, htotal, hcount, Bool.and_self]
    rw [Nat.mul_zero] at hloop
    rw [hloop]
    rfl

/-- Cutting the file, saving the cut file and reconstructing give the file back. -/
def Reconstructs (s : Output) (d : Disk) (fp : Bytes) : Prop :=
  ∃ d', (testCutTm s d fp).2 = some d' ∧ d'.outReconstructed = some fp

/-- In a fresh process, a file of the supported size is cut and reconstructed exactly if and only if
it is empty or its size is not a multiple of `C__MAX_PART_SIZE`. -/
theorem reconstruct_original_iff (d : Disk) (fp : Bytes)
    (hfp : fp.length ≤ maxPartsNumber * maxPartSize) :
    Reconstructs zeroOutput d fp ↔ fp = [] ∨ fp.length % maxPartSize ≠ 0 := by
  obtain ⟨d', hcall, hout⟩ := reconstructed_eq d fp hfp
  have hiff : Reconstructs zeroOutput d fp ↔
      fp.length ≤ maxPartSize * (numberOfParts fp.length - 1) + fp.length % maxPartSize := by
    rw [← List.take_eq_self_iff]
    constructor
    · rintro ⟨d'', hcall', hout'⟩
      obtain rfl := Option.some.inj (hcall.symm.trans hcall')
      exact Option.some.inj (hout.symm.trans hout')
    · intro htake
      exact ⟨d', hcall, hout.trans (congrArg some htake)⟩
  rw [hiff, ← List.length_eq_zero_iff, numberOfParts, maxPartSize_eq]
  split <;> omega

/-- A file of two parts, the second of one byte, is reconstructed. -/
theorem reconstruct_original_iff_two_parts :
    Reconstructs zeroOutput ⟨none, none⟩ (List.replicate 233 7) := by
  have hlength : (List.replicate 233 (7 : UInt8)).length = 233 := List.length_replicate
  refine (reconstruct_original_iff ⟨none, none⟩ (List.replicate 233 7) ?_).2 (Or.inr ?_)
  · rw [hlength]
    decide
  · rw [hlength]
    decide

/-- A file of exactly one part is lost. -/
theorem reconstruct_loses_whole_part :
    (List.replicate 232 (1 : UInt8)).length ≤ maxPartsNumber * maxPartSize ∧
      ¬ Reconstructs zeroOutput ⟨none, none⟩ (List.replicate 232 1) := by
  refine ⟨by rw [List.length_replicate]; decide, ?_⟩
  have hlost : (testCutTm zeroOutput ⟨none, none⟩ (List.replicate 232 1)).2 =
      some ⟨some [1, 0, 0, 0, 0, 0, 0, 0], some []⟩ := by
    decide +kernel
  rintro ⟨d', hcall, hout⟩
  obtain rfl := Option.some.inj (hlost.symm.trans hcall)
  exact absurd hout (by decide)

end CComplete.CutTm
