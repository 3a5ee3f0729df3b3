import CComplete.CutTm.Bounds

/-!
# The headers of the cut parts

The cutter assigns one byte of each four-byte header field, and a reader takes all four. The two
agree because the number of parts fits into a byte, and because no cut ever writes the other three
bytes: they are still the zeros of the static array after any number of cuts (`headers_decode`).
-/

set_option autoImplicit false

namespace CComplete.CutTm

open CComplete.Library

/-- The output after the cuts of several files, one after the other. -/
def cutFiles (s : Output) (files : List Bytes) : Output :=
  files.foldl (fun s fp => (cutTheTm s fp (UInt32.ofNat fp.length)).2) s

/-- The header field of `size` bytes at `index`, read as one `unsigned int`. -/
def headerField (m : Memory) (index size : ℕ) : ℕ := (wordCodec.decode (m.block index size)).toNat

/-- What the cut of `fp` makes of the output `s`: `n` parts with their header fields and payloads.
No payload byte that it writes belongs to a header. -/
structure CutInto (fp : Bytes) (s : Output) (n : ℕ) (s' : Output) : Prop where
  parts : n = (fp.length + (maxPartSize - 1)) / maxPartSize
  holds : ∀ i, i < n → HoldsPart fp n (fp.length % maxPartSize) s'.outputCutTm i
  total : ∀ i, i < n →
    headerField s'.outputCutTm (maxTotalLength * i) sizeofTotalNumberField = n
  actual : ∀ i, i < n →
    headerField s'.outputCutTm (maxTotalLength * i + sizeofTotalNumberField)
      sizeofActualPartField = i
  written : s'.outputCutTm.accessed = s.outputCutTm.accessed ++
    ((List.range n).flatMap (partIndexes n (fp.length % maxPartSize))).map Nat.cast
  disjoint : ∀ i j, i < n → j < n → ∀ p ∈ payloadIndexes n (fp.length % maxPartSize) i,
    ¬ (maxTotalLength * j ≤ p ∧
      p < maxTotalLength * j + (sizeofTotalNumberField + sizeofActualPartField))

/-- The three upper bytes of every header field are zero. -/
def UpperZero (m : Memory) : Prop :=
  ∀ j c : ℕ, c < 8 → c ≠ 0 → c ≠ 4 → m.byte ((maxTotalLength * j + c : ℕ) : ℤ) = 0

theorem upperZero_zeroOutput : UpperZero zeroOutput.outputCutTm := fun _ _ _ _ _ => rfl

/-- A cut keeps the upper bytes of all header fields, also those of parts that it does not write. -/
theorem UpperZero.cutTheTm {s : Output} (h : UpperZero s.outputCutTm) {fp : Bytes}
    (hfp : fp.length ≤ maxPartsNumber * maxPartSize) :
    UpperZero (cutTheTm s fp (UInt32.ofNat fp.length)).2.outputCutTm := by
  intro j c hc h0 h4
  have hr := (remainder_lt fp.length).le
  obtain ⟨-, hkeep⟩ := cutTheTm_parts s fp hfp
  rw [hkeep _ fun i _ => not_written_header hr j hc h0 h4]
  exact h j c hc h0 h4

theorem UpperZero.cutFiles {files : List Bytes}
    (hfiles : ∀ fp ∈ files, fp.length ≤ maxPartsNumber * maxPartSize) :
    ∀ {s : Output}, UpperZero s.outputCutTm → UpperZero (cutFiles s files).outputCutTm := by
  induction files with
  | nil => exact fun h => h
  | cons fp files ih =>
    intro s h
    obtain ⟨hfp, hrest⟩ := List.forall_mem_cons.1 hfiles
    exact ih hrest (h.cutTheTm hfp)

/-- A header field whose first byte is `n` and whose upper bytes are zero is the word `n`. -/
theorem headerField_eq {m : Memory} {index n : ℕ} (hn : n ≤ maxPartsNumber)
    (hlow : m.byte index = UInt8.ofNat n)
    (hzero : ∀ c : ℕ, 0 < c → c < 4 → m.byte ((index + c : ℕ) : ℤ) = 0) :
    headerField m index 4 = n := by
  have hn' : n ≤ 255 := hn
  have hword : m.block index 4 = wordCodec.encode (UInt32.ofNat n) := by
    refine block_header hn hlow fun c h0 h4 => ?_
    rw [← Nat.cast_add]
    exact hzero c h0 h4
  rw [headerField, hword, wordCodec.decode_encode]
  exact UInt32.toNat_ofNat_of_lt' (show n < 2 ^ 32 by omega)

/-- The payload of a part lies behind its own header and before the next one. -/
theorem payload_disjoint {n r i : ℕ} (hi : maxTotalLength * (i + 1) ≤ 2 ^ 32)
    (hr : r ≤ maxPartSize) (j : ℕ) {p : ℕ} (hp : p ∈ payloadIndexes n r i) :
    ¬ (maxTotalLength * j ≤ p ∧ p < maxTotalLength * j + 8) := by
  have hsize : partSize n r i ≤ 232 := partSize_le hr
  rw [mem_payloadIndexes hi hr] at hp
  rw [maxTotalLength_eq] at *
  omega

theorem numberOfParts_eq (size : ℕ) :
    numberOfParts size = (size + (maxPartSize - 1)) / maxPartSize := by
  rw [numberOfParts, maxPartSize_eq]
  split <;> omega

/-- After any sequence of cuts of files of the supported size, the cut of another such file leaves
its parts in the output, with header fields that decode to the number of parts and the number of the
part. -/
theorem headers_decode (earlier : List Bytes)
    (hearlier : ∀ fp ∈ earlier, fp.length ≤ maxPartsNumber * maxPartSize) (fp : Bytes)
    (hfp : fp.length ≤ maxPartsNumber * maxPartSize) :
    let s := cutFiles zeroOutput earlier
    let call := cutTheTm s fp (UInt32.ofNat fp.length)
    CutInto fp s call.1 call.2 := by
  intro s call
  have hn := numberOfParts_le hfp
  have hr := (remainder_lt fp.length).le
  have hzero : UpperZero call.2.outputCutTm :=
    (upperZero_zeroOutput.cutFiles hearlier).cutTheTm hfp
  obtain ⟨hparts, -⟩ := cutTheTm_parts s fp hfp
  have hcount : call.1 = numberOfParts fp.length := congrArg Prod.fst (cutTheTm_eq s fp hfp)
  have hlength : (UInt32.ofNat fp.length).toNat = fp.length :=
    UInt32.toNat_ofNat_of_lt' (lt_of_le_of_lt hfp (by decide))
  rw [hcount]
  refine ⟨numberOfParts_eq _, hparts, fun i hi => ?_, fun i hi => ?_, ?_, fun i j hi _ p hp => ?_⟩
  -- the two fields of part `i`
  · refine headerField_eq hn (hparts i hi).total fun c h0 h4 => ?_
    exact hzero i c (by omega) (by omega) (by omega)
  · refine headerField_eq (hi.le.trans hn) (hparts i hi).actual fun c h0 h4 => ?_
    rw [Nat.add_assoc]
    exact hzero i (4 + c) (by omega) (by omega) (by omega)
  -- the indexes that the cut writes
  · have hwritten := accessed_cutTheTm s fp (UInt32.ofNat fp.length)
    rw [hlength] at hwritten
    exact hwritten
  · exact payload_disjoint (part_le_wrap hi hn) hr j hp

/-- Two parts, after the cut of a file of one part. -/
theorem headers_decode_two_parts :
    let s := cutFiles zeroOutput [[1, 2, 3]]
    let fp := List.replicate 233 7
    let call := cutTheTm s fp (UInt32.ofNat fp.length)
    CutInto fp s call.1 call.2 :=
  headers_decode [[1, 2, 3]] (by decide) (List.replicate 233 7)
    (by rw [List.length_replicate]; decide)

end CComplete.CutTm
