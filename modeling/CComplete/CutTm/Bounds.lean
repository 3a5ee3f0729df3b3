import CComplete.CutTm.History

/-!
# The indexes that the cutter writes

The cutter computes its indexes from the size of the file, and compares neither the size nor the
number of parts with the constants that the output array is sized for. Up to
`C__MAX_PARTS_NUMBER` parts all indexes are inside. A larger file has a part number 255, whose
header starts at the first index after the array (`cut_inside_iff`).
-/

set_option autoImplicit false

namespace CComplete.CutTm

open CComplete.Library

/-! ## The indexes of one part -/

/-- The index of the first header byte of part `i`. -/
def numberIndex (i : ℕ) : ℕ := toUnsignedInt (i * maxTotalLength : ℕ)

/-- The index of the second header byte of part `i`. -/
def idIndex (i : ℕ) : ℕ := toUnsignedInt (numberIndex i + sizeofTotalNumberField : ℕ)

/-- The indexes of the payload of part `i`. -/
def payloadIndexes (numberOfParts remainder i : ℕ) : List ℕ :=
  (List.range (partSize numberOfParts remainder i)).map fun j =>
    toUnsignedInt (toUnsignedInt (idIndex i + sizeofActualPartField : ℕ) + j : ℕ)

/-- The indexes that one turn of the cutter writes, in order. -/
def partIndexes (numberOfParts remainder i : ℕ) : List ℕ :=
  numberIndex i :: idIndex i :: payloadIndexes numberOfParts remainder i

theorem accessed_storeByte (m : Memory) (i : ℕ) (b : UInt8) :
    (storeByte m i b).accessed = m.accessed ++ [(i : ℤ)] := by
  simp [storeByte, Memory.copyIn, Memory.blockAddresses]

theorem accessed_copyPart (m : Memory) (off : ℕ) (buff : Bytes) (n : ℕ) :
    (copyPart m off buff n).accessed = m.accessed ++
      ((List.range n).map fun j => toUnsignedInt (off + j : ℕ)).map Nat.cast := by
  induction n with
  | zero => exact (List.append_nil _).symm
  | succ n ih =>
    rw [copyPart] at ih ⊢
    rw [List.range_succ, List.foldl_concat, accessed_storeByte, ih,
      List.map_append, List.map_append, List.append_assoc]
    rfl

theorem accessed_cutPart (fp : Bytes) (n r : ℕ) (st : Output × Bytes) (i : ℕ) :
    (cutPart fp n r st i).1.outputCutTm.accessed =
      st.1.outputCutTm.accessed ++ (partIndexes n r i).map Nat.cast := by
  simp only [cutPart]
  rw [accessed_copyPart, accessed_storeByte, accessed_storeByte, List.append_assoc,
    List.append_assoc]
  rfl

theorem accessed_cutParts (fp : Bytes) (n r : ℕ) (st : Output × Bytes) (k : ℕ) :
    ((List.range k).foldl (cutPart fp n r) st).1.outputCutTm.accessed =
      st.1.outputCutTm.accessed ++ ((List.range k).flatMap (partIndexes n r)).map Nat.cast := by
  induction k with
  | zero => exact (List.append_nil _).symm
  | succ k ih =>
    rw [List.range_succ, List.foldl_concat, accessed_cutPart, ih,
      List.append_assoc, List.flatMap_append, List.map_append, List.flatMap_singleton]

/-- The offsets of the first `C__MAX_PARTS_NUMBER` parts do not wrap. -/
theorem part_le_wrap {n i : ℕ} (hi : i < n) (hn : n ≤ maxPartsNumber) :
    maxTotalLength * (i + 1) ≤ 2 ^ 32 := by
  have hn' : n ≤ 255 := hn
  rw [maxTotalLength_eq]
  omega

section Offsets

variable {n r i : ℕ} (hi : maxTotalLength * (i + 1) ≤ 2 ^ 32)
include hi

theorem numberIndex_eq : numberIndex i = maxTotalLength * i := by
  rw [maxTotalLength_eq] at *
  rw [numberIndex, maxTotalLength_eq, Nat.mul_comm]
  exact toUnsignedInt_of_lt (by omega)

theorem idIndex_eq : idIndex i = maxTotalLength * i + 4 := by
  rw [idIndex, numberIndex_eq hi]
  rw [maxTotalLength_eq] at *
  exact toUnsignedInt_of_lt (show 240 * i + 4 < 2 ^ 32 by omega)

theorem mem_payloadIndexes (hr : r ≤ maxPartSize) {p : ℕ} :
    p ∈ payloadIndexes n r i ↔
      maxTotalLength * i + 8 ≤ p ∧ p < maxTotalLength * i + 8 + partSize n r i := by
  have hsize := partSize_le (n := n) (i := i) hr
  rw [payloadIndexes, idIndex_eq hi, List.mem_map]
  simp only [maxTotalLength_eq, maxPartSize_eq, sizeofActualPartField, List.mem_range] at *
  have hout : toUnsignedInt (240 * i + 4 + 4 : ℕ) = 240 * i + 8 := toUnsignedInt_of_lt (by omega)
  rw [hout]
  constructor
  · rintro ⟨j, hj, rfl⟩
    rw [toUnsignedInt_of_lt (by omega)]
    omega
  · rintro ⟨hle, hlt⟩
    refine ⟨p - (240 * i + 8), by omega, ?_⟩
    rw [toUnsignedInt_of_lt (by omega)]
    omega

/-- As long as no offset wraps, a part writes its header bytes and its payload. -/
theorem mem_partIndexes (hr : r ≤ maxPartSize) {p : ℕ} :
    p ∈ partIndexes n r i ↔ Written n r i p := by
  rw [partIndexes, List.mem_cons, List.mem_cons, mem_payloadIndexes hi hr, numberIndex_eq hi,
    idIndex_eq hi, Written]

end Offsets

/-- The indexes that a cut writes. -/
def cutIndexes (baseSize : ℕ) : List ℕ :=
  (List.range (numberOfParts baseSize)).flatMap
    (partIndexes (numberOfParts baseSize) (baseSize % maxPartSize))

theorem accessed_cutTheTm (s : Output) (fp : Bytes) (baseSize : UInt32) :
    (cutTheTm s fp baseSize).2.outputCutTm.accessed =
      s.outputCutTm.accessed ++ (cutIndexes baseSize.toNat).map Nat.cast :=
  accessed_cutParts fp _ _ (s, List.replicate maxPartSize 0) _

/-! ## Inside the array -/

/-- The output after the first `k` turns of the loop of `cut_the_tm`. -/
def afterTurns (s : Output) (fp : Bytes) (baseSize : UInt32) (k : ℕ) : Output :=
  ((List.range k).foldl
    (cutPart fp (numberOfParts baseSize.toNat) (baseSize.toNat % maxPartSize))
    (s, List.replicate maxPartSize 0)).1

/-- Every index that the cut adds to the record lies in `output_cut_tm`, and in a first cut
`output_size` is at most the size of the array after every turn. -/
def CutsInside (s : Output) (fp : Bytes) (baseSize : UInt32) : Prop :=
  (∀ a ∈ (cutTheTm s fp baseSize).2.outputCutTm.accessed.drop s.outputCutTm.accessed.length,
      0 ≤ a ∧ a < outputTmsArraySize) ∧
    (s.outputSize = 0 → ∀ k, k ≤ numberOfParts baseSize.toNat →
      (afterTurns s fp baseSize k).outputSize ≤ outputTmsArraySize)

/-- A file of more than the supported size has a part whose header starts after the array. -/
theorem outputTmsArraySize_mem_cutIndexes {baseSize : ℕ}
    (h : maxPartsNumber * maxPartSize < baseSize) : outputTmsArraySize ∈ cutIndexes baseSize := by
  have hn : maxPartsNumber < numberOfParts baseSize := by
    rw [numberOfParts, maxPartsNumber, maxPartSize_eq] at *
    split <;> omega
  have hhead : outputTmsArraySize = numberIndex maxPartsNumber := by decide
  rw [cutIndexes, List.mem_flatMap]
  exact ⟨maxPartsNumber, List.mem_range.2 hn, hhead ▸ List.mem_cons_self⟩

/-- The parts of a file of the supported size fit into the array. -/
theorem lt_of_mem_cutIndexes {baseSize p : ℕ} (h : baseSize ≤ maxPartsNumber * maxPartSize)
    (hp : p ∈ cutIndexes baseSize) : p < outputTmsArraySize := by
  have hn := numberOfParts_le h
  have hr := (remainder_lt baseSize).le
  obtain ⟨i, hi, hp⟩ := List.mem_flatMap.1 hp
  rw [List.mem_range] at hi
  have hwritten := (mem_partIndexes (part_le_wrap hi hn) hr).1 hp
  calc p < maxTotalLength * (i + 1) := (hwritten.bounds hr).2
    _ ≤ maxTotalLength * maxPartsNumber := Nat.mul_le_mul_left _ (Nat.succ_le_of_lt (hi.trans_le hn))
    _ = outputTmsArraySize := Nat.mul_comm _ _

/-- Every turn adds at most a whole part to `output_size`. -/
theorem outputSize_afterTurns_le (s : Output) (fp : Bytes) (baseSize : UInt32) (k : ℕ) :
    (afterTurns s fp baseSize k).outputSize ≤ s.outputSize + maxTotalLength * k := by
  have hr := (remainder_lt baseSize.toNat).le
  rw [afterTurns]
  induction k with
  | zero => exact le_rfl
  | succ k ih =>
    have hsize : partSize (numberOfParts baseSize.toNat) (baseSize.toNat % maxPartSize) k ≤ 232 :=
      partSize_le hr
    rw [List.range_succ, List.foldl_concat, outputSize_cutPart]
    refine (toUnsignedInt_le _).trans ?_
    rw [maxTotalLength_eq] at *
    omega

/-- The cut of a file of more than the supported size writes outside. -/
theorem not_cutsInside {s : Output} {fp : Bytes} {baseSize : UInt32}
    (h : maxPartsNumber * maxPartSize < baseSize.toNat) : ¬ CutsInside s fp baseSize := by
  rintro ⟨hinside, -⟩
  rw [accessed_cutTheTm, List.drop_left] at hinside
  have hmem := List.mem_map_of_mem (f := Nat.cast (R := ℤ)) (outputTmsArraySize_mem_cutIndexes h)
  exact absurd (hinside _ hmem).2 (lt_irrefl _)

/-- For every file: the cut stays inside the output array if and only if the size is at most
`C__MAX_PARTS_NUMBER` times `C__MAX_PART_SIZE`. -/
theorem cut_inside_iff (s : Output) (fp : Bytes) (baseSize : UInt32) :
    CutsInside s fp baseSize ↔ baseSize.toNat ≤ maxPartsNumber * maxPartSize := by
  constructor
  · intro hinside
    exact Nat.le_of_not_lt fun hlt => not_cutsInside hlt hinside
  · intro hle
    rw [CutsInside, accessed_cutTheTm, List.drop_left]
    refine ⟨fun a ha => ?_, fun hzero k hk => ?_⟩
    · obtain ⟨p, hp, rfl⟩ := List.mem_map.1 ha
      exact ⟨Int.natCast_nonneg p, Int.ofNat_lt.2 (lt_of_mem_cutIndexes hle hp)⟩
    · have hn := numberOfParts_le hle
      have hsize := outputSize_afterTurns_le s fp baseSize k
      rw [hzero, Nat.zero_add] at hsize
      exact hsize.trans ((Nat.mul_comm _ _).trans_le (Nat.mul_le_mul_right _ (hk.trans hn)))

/-- The first cut of a file that is one byte too long. -/
theorem cut_outside : ¬ CutsInside zeroOutput (List.replicate 59161 0) 59161 :=
  not_cutsInside (by decide)

end CComplete.CutTm
