import CComplete.CutTm.Headers

/-!
# The joiner on any file

The joiner takes the number of parts from the file that it reads and the length of the last part
from `output_size`, and compares neither with the other nor with the size of its buffer. Whatever
the file holds, it asks `fread` and `fwrite` for no byte outside `tmp_buffer` exactly when that length
is from a header to a whole part (`reconstruct_inside_iff`). What a call that asks for more does is
not part of the model: an `fwrite` of nearly 2^64 bytes may fail before it reads them.

Two uses of the program follow. A process can cut and join one file after the other as long as what
was cut before, together with the last part, fits into one part (`process_files_inside_iff`); and a
process that did not cut the file itself asks for more than the buffer has
(`fresh_reconstruct_outside`).
-/

set_option autoImplicit false

namespace CComplete.CutTm

open CComplete.Library

/-- The length that the joiner takes for the last of `parts` parts. -/
def lastPartSize (outputSize parts : ℕ) : ℕ :=
  toUnsignedInt
    ((outputSize : ℤ) - (toUnsignedInt ((parts - 1) * maxTotalLength : ℕ) : ℕ))

/-- A length from a header to a whole part. -/
def FitsPart (size : ℕ) : Prop :=
  sizeofTotalNumberField + sizeofActualPartField ≤ size ∧ size ≤ maxTotalLength

instance (size : ℕ) : Decidable (FitsPart size) := inferInstanceAs (Decidable (_ ∧ _))

/-- The offset of the next part. -/
theorem nextOffset (i : ℕ) :
    toUnsignedInt (toUnsignedInt (i * maxTotalLength : ℕ) + maxTotalLength : ℕ) =
      toUnsignedInt ((i + 1) * maxTotalLength : ℕ) := by
  have hcast : ((toUnsignedInt (i * maxTotalLength : ℕ) : ℕ) : ℤ) =
      ((i * maxTotalLength : ℕ) : ℤ) % 2 ^ 32 :=
    Int.toNat_of_nonneg (Int.emod_nonneg _ (by decide))
  rw [Nat.cast_add, hcast, toUnsignedInt, toUnsignedInt, Int.emod_add_emod, ← Nat.cast_add,
    Nat.succ_mul]

/-- Number of bytes that the joiner asks for as part `i`: a whole part, or what is left. -/
def askedSize (outputSize parts i : ℕ) : ℕ :=
  if i < parts - 1 then maxTotalLength else lastPartSize outputSize parts

/-- The file has all the bytes that the joiner asks for as part `i`. -/
def HasPart (outputSize : ℕ) (fpIn : Bytes) (parts i : ℕ) : Prop :=
  toUnsignedInt (i * maxTotalLength : ℕ) + askedSize outputSize parts i ≤ fpIn.length

instance (outputSize : ℕ) (fpIn : Bytes) (parts i : ℕ) :
    Decidable (HasPart outputSize fpIn parts i) := inferInstanceAs (Decidable (_ ≤ _))

/-- The bytes of part `i` in the file, without its header. -/
def payload (outputSize : ℕ) (fpIn : Bytes) (parts i : ℕ) : Bytes :=
  (pread fpIn (toUnsignedInt (i * maxTotalLength : ℕ)) (askedSize outputSize parts i)).drop
    (sizeofTotalNumberField + sizeofActualPartField)

/-- A part that the file has is written from the buffer as it is in the file. -/
theorem written_eq_payload {outputSize : ℕ} {fpIn : Bytes} {parts i size : ℕ}
    (hsize : askedSize outputSize parts i = 8 + size) (hpart : HasPart outputSize fpIn parts i)
    (buffer : Bytes) :
    ((overlay (pread fpIn (toUnsignedInt (i * maxTotalLength : ℕ)) (8 + size)) buffer).drop
        (sizeofTotalNumberField + sizeofActualPartField)).take size =
      payload outputSize fpIn parts i := by
  rw [HasPart, hsize] at hpart
  rw [payload, hsize]
  apply take_drop_overlay
  rw [length_pread, Nat.min_eq_left (by omega)]
  rfl

/-- The last turn of the joiner asks for no byte outside its buffer exactly if the length fits a
part, and then it writes what is left without the header. -/
theorem reconstructLast_eq (outputSize : ℕ) (fpIn : Bytes) {parts i : ℕ} (hi : i + 1 = parts)
    {buffer : Bytes} (hbuffer : buffer.length = maxTotalLength) (out : Bytes) :
    let last := lastPartSize outputSize parts
    let loop := reconstructLoop outputSize fpIn parts 1 i
      (toUnsignedInt (i * maxTotalLength : ℕ)) buffer out
    (FitsPart last → ∃ out', loop = some out' ∧ out'.length = out.length + (last - 8) ∧
        (HasPart outputSize fpIn parts i → out' = out ++ payload outputSize fpIn parts i)) ∧
      (¬ FitsPart last → loop = none) := by
  intro last loop
  have hlast :
      toUnsignedInt ((outputSize : ℤ) - toUnsignedInt (i * maxTotalLength : ℕ)) = last := by
    rw [← Nat.add_sub_cancel (n := i) (m := 1), hi]
    rfl
  have hlt : last < 2 ^ 32 := toUnsignedInt_lt _
  have hnot : ¬ i < parts - 1 := by omega
  have hheader : sizeofTotalNumberField + sizeofActualPartField = 8 := rfl
  simp only [loop, reconstructLoop, if_neg hnot, hlast, FitsPart, hheader]
  rw [maxTotalLength_eq] at *
  constructor
  · rintro ⟨hlow, hhigh⟩
    have hsize : toUnsignedLong ((last : ℤ) - ((8 : ℕ) : ℤ)) = last - 8 := by
      rw [← Nat.cast_sub hlow]
      exact toUnsignedLong_of_lt (by omega)
    have hlength :
        (overlay (pread fpIn (toUnsignedInt (i * 240 : ℕ)) last) buffer).length = 240 := by
      rw [length_overlay, length_pread, hbuffer]
      omega
    rw [hsize, hlength, if_pos ⟨le_rfl, by omega⟩]
    refine ⟨_, rfl, ?_, fun hpart => ?_⟩
    · rw [List.length_append, List.length_take, List.length_drop, hlength]
      omega
    · have hasked : askedSize outputSize parts i = 8 + (last - 8) := by
        rw [askedSize, if_neg hnot]
        omega
      have hwritten := written_eq_payload hasked hpart buffer
      rw [maxTotalLength_eq, Nat.add_sub_cancel' hlow] at hwritten
      exact congrArg (out ++ ·) hwritten
  · -- a length below the header wraps, one above a part is too long as it is
    intro hout
    rw [if_neg]
    rintro ⟨-, hsize⟩
    rcases Nat.lt_or_ge last 8 with hshort | hlow
    · rw [toUnsignedLong] at hsize
      omega
    · have hsame : toUnsignedLong ((last : ℤ) - ((8 : ℕ) : ℤ)) = last - 8 := by
        rw [← Nat.cast_sub hlow]
        exact toUnsignedLong_of_lt (by omega)
      rw [hsame] at hsize
      exact hout ⟨hlow, by omega⟩

/-- The turns that remain ask for no byte outside the buffer exactly if the last length fits a
part. -/
theorem reconstructLoop_cases (outputSize : ℕ) (fpIn : Bytes) (parts : ℕ) (k : ℕ) :
    ∀ (i : ℕ) (buffer out : Bytes), k + 1 + i = parts → buffer.length = maxTotalLength →
      let last := lastPartSize outputSize parts
      let loop := reconstructLoop outputSize fpIn parts (k + 1) i
        (toUnsignedInt (i * maxTotalLength : ℕ)) buffer out
      (FitsPart last → ∃ out', loop = some out' ∧
          out'.length = out.length + (maxPartSize * k + (last - 8)) ∧
          ((∀ j ∈ List.range' i (k + 1), HasPart outputSize fpIn parts j) →
            out' = out ++ (List.range' i (k + 1)).flatMap (payload outputSize fpIn parts))) ∧
        (¬ FitsPart last → loop = none) := by
  induction k with
  | zero =>
    intro i buffer out hi hbuffer
    simpa using reconstructLast_eq outputSize fpIn (show i + 1 = parts by omega) hbuffer out
  | succ k ih =>
    intro i buffer out hi hbuffer last loop
    let offset := toUnsignedInt (i * maxTotalLength : ℕ)
    let buffer' := overlay (pread fpIn offset maxTotalLength) buffer
    have hbuffer' : buffer'.length = maxTotalLength := by
      rw [length_overlay, length_pread, hbuffer]
      omega
    let written := (buffer'.drop (sizeofTotalNumberField + sizeofActualPartField)).take maxPartSize
    have hwritten : written.length = maxPartSize := by
      rw [List.length_take, List.length_drop, hbuffer']
      rfl
    have hloop : loop = reconstructLoop outputSize fpIn parts (k + 1) (i + 1)
        (toUnsignedInt ((i + 1) * maxTotalLength : ℕ)) buffer' (out ++ written) := by
      rw [← nextOffset]
      exact if_pos (show i < parts - 1 by omega)
    obtain ⟨hfits, hnot⟩ := ih (i + 1) buffer' (out ++ written) (by omega) hbuffer'
    rw [hloop]
    refine ⟨fun hlast => ?_, hnot⟩
    obtain ⟨out', hout, hlength, hrest⟩ := hfits hlast
    refine ⟨out', hout, ?_, fun hparts => ?_⟩
    · rw [hlength, List.length_append, hwritten, Nat.mul_succ]
      omega
    · rw [List.range'_succ, List.forall_mem_cons] at hparts
      have hasked : askedSize outputSize parts i = 8 + maxPartSize :=
        if_pos (show i < parts - 1 by omega)
      have hpayload : written = payload outputSize fpIn parts i :=
        written_eq_payload hasked hparts.1 buffer
      rw [hrest hparts.2, hpayload, List.append_assoc, ← List.flatMap_cons, ← List.range'_succ]

/-- Number of parts that the joiner reads in the file. -/
def readParts (fpIn : Bytes) : ℕ := (wordCodec.readAt fpIn 0 0).toNat

/-- The joiner has something to join with this `output_size`, or nothing to do. -/
def Joinable (outputSize : ℕ) (fpIn : Bytes) : Prop :=
  readParts fpIn = 0 ∨ FitsPart (lastPartSize outputSize (readParts fpIn))

/-- What the joiner wrote: whole parts and a last one, without their headers, and where the file has
all of these bytes, they are the bytes of the file. -/
def Joined (outputSize : ℕ) (fpIn out : Bytes) : Prop :=
  let parts := readParts fpIn
  out.length = (if parts = 0 then 0
    else maxPartSize * (parts - 1) + (lastPartSize outputSize parts - 8)) ∧
  ((∀ i < parts, HasPart outputSize fpIn parts i) →
    out = (List.range parts).flatMap (payload outputSize fpIn parts))

/-- With both files open, the joiner has a result exactly if the file is joinable, and then writes
all parts without their headers. -/
theorem reconstruct_cases (s : Output) (d : Disk) {fpIn : Bytes} (hfile : d.outFile = some fpIn) :
    (Joinable s.outputSize fpIn →
        ∃ out, reconstruct s d true true = some { d with outReconstructed := some out } ∧
          Joined s.outputSize fpIn out) ∧
      (¬ Joinable s.outputSize fpIn → reconstruct s d true true = none) := by
  obtain ⟨parts, hread⟩ : ∃ parts, readParts fpIn = parts := ⟨_, rfl⟩
  have hcall : reconstruct s d true true =
      (reconstructLoop s.outputSize fpIn parts parts 0 0 (List.replicate maxTotalLength 0) []).map
        fun out => { d with outReconstructed := some out } := by
    rw [← hread]
    simp only [reconstruct, hfile, Bool.and_self, if_true]
    rfl
  simp only [hcall, Joinable, Joined, hread]
  cases parts with
  | zero => exact ⟨fun _ => ⟨[], rfl, rfl, fun _ => rfl⟩, fun hno => absurd (Or.inl rfl) hno⟩
  | succ k =>
    obtain ⟨hfits, hnot⟩ := reconstructLoop_cases s.outputSize fpIn (k + 1) k 0
      (List.replicate maxTotalLength 0) [] rfl List.length_replicate
    have hstart : toUnsignedInt ((0 * maxTotalLength : ℕ) : ℤ) = 0 := by decide
    rw [hstart, List.length_nil, Nat.zero_add, ← List.range_eq_range'] at hfits
    rw [hstart] at hnot
    rw [or_iff_right (Nat.succ_ne_zero k), if_neg (Nat.succ_ne_zero k), Nat.succ_sub_one]
    refine ⟨fun hlast => ?_, fun hlast => ?_⟩
    · obtain ⟨out, hout, hlength, hparts⟩ := hfits hlast
      refine ⟨out, by rw [hout]; rfl, hlength, fun hall => ?_⟩
      exact hparts fun j hj => hall j (List.mem_range.1 hj)
    · rw [hnot hlast]
      rfl

/-- Whatever the file to join holds and whatever `output_size` is: `reconstruct` asks `fread` and
`fwrite` for no byte outside its buffer if and only if the file names no part, or the length that is
left for the last one is from a header to a whole part. It then writes as many bytes as these parts
have without their headers, and if the file has all of the parts, it writes the bytes that follow
their headers there, part after part. -/
theorem reconstruct_inside_iff (s : Output) (d : Disk) (fpIn : Bytes)
    (hfile : d.outFile = some fpIn) :
    let parts := readParts fpIn
    let last := lastPartSize s.outputSize parts
    ((reconstruct s d true true).isSome = true ↔ parts = 0 ∨ FitsPart last) ∧
      ∀ d', reconstruct s d true true = some d' → d'.outFile = d.outFile ∧
        ∃ out, d'.outReconstructed = some out ∧
          (out.length = if parts = 0 then 0 else maxPartSize * (parts - 1) + (last - 8)) ∧
          ((∀ i < parts, HasPart s.outputSize fpIn parts i) →
            out = (List.range parts).flatMap (payload s.outputSize fpIn parts)) := by
  intro parts last
  obtain ⟨hyes, hno⟩ := reconstruct_cases s d hfile
  by_cases hjoin : Joinable s.outputSize fpIn
  · obtain ⟨out, hout, hjoined⟩ := hyes hjoin
    rw [hout]
    refine ⟨iff_of_true rfl hjoin, fun d' hd => ?_⟩
    obtain rfl := Option.some.inj hd
    exact ⟨rfl, out, rfl, hjoined⟩
  · rw [hno hjoin]
    exact ⟨iff_of_false Bool.false_ne_true hjoin, fun d' hd => by cases hd⟩

/-- A saved file of one part, joined with a matching `output_size` of 11 bytes. -/
theorem reconstruct_inside_iff_one_part :
    ∃ d', reconstruct { zeroOutput with outputSize := 11 }
      ⟨some [1, 0, 0, 0, 0, 0, 0, 0, 5, 6, 7], none⟩ true true = some d' ∧
        d'.outReconstructed = some [5, 6, 7] := by
  obtain ⟨hiff, hwrites⟩ := reconstruct_inside_iff { zeroOutput with outputSize := 11 }
    ⟨some [1, 0, 0, 0, 0, 0, 0, 0, 5, 6, 7], none⟩ [1, 0, 0, 0, 0, 0, 0, 0, 5, 6, 7] rfl
  obtain ⟨d', hd'⟩ := Option.isSome_iff_exists.1 (hiff.2 (Or.inr (by decide)))
  obtain ⟨-, out, hout, -, hcontent⟩ := hwrites d' hd'
  rw [hcontent (by decide)] at hout
  exact ⟨d', hd', hout⟩

/-! ## One file after the other -/

/-- The saved file of the process: the first `output_size` bytes of the output. -/
def Output.saved (s : Output) : Bytes := s.outputCutTm.block 0 s.outputSize

/-- What the processing of every file keeps: the upper header bytes are zero, the saved file lies in
the output array and can be joined. -/
structure Ready (s : Output) : Prop where
  upperZero : UpperZero s.outputCutTm
  bounded : s.outputSize ≤ outputTmsArraySize
  joinable : Joinable s.outputSize s.saved

theorem ready_zeroOutput : Ready zeroOutput where
  upperZero := upperZero_zeroOutput
  bounded := Nat.zero_le _
  joinable := Or.inl rfl

/-- After the cut of a file that is not empty, the saved file names its parts, and the last one is
taken to be as long as itself and all that was cut before. -/
theorem saved_cutTheTm {s : Output} (hzero : UpperZero s.outputCutTm)
    (hbound : s.outputSize ≤ outputTmsArraySize) {fp : Bytes} (hne : fp ≠ [])
    (hfp : fp.length ≤ maxPartsNumber * maxPartSize) :
    let s' := (cutTheTm s fp (UInt32.ofNat fp.length)).2
    readParts s'.saved = numberOfParts fp.length ∧
      lastPartSize s'.outputSize (numberOfParts fp.length) =
        s.outputSize + (8 + fp.length % maxPartSize) := by
  intro s'
  have hbound' : s.outputSize ≤ 255 * 240 := hbound
  have hn : numberOfParts fp.length ≤ 255 := numberOfParts_le hfp
  have hr := remainder_lt fp.length
  have hpos : numberOfParts fp.length ≠ 0 := fun hno =>
    hne (List.length_eq_zero_iff.1 ((numberOfParts_eq_zero_iff _).1 hno))
  obtain ⟨-, hparts, -, hsize⟩ := cutTheTm_holds s fp hfp (by
    rw [maxTotalLength_eq, maxPartsNumber]
    omega)
  rw [if_neg hpos, maxTotalLength_eq] at hsize
  have hsize' : s'.outputSize = _ := hsize
  constructor
  · have htotal : wordCodec.readAt s'.saved 0 0 = UInt32.ofNat (numberOfParts fp.length) := by
      refine readAt_total hn (hparts 0 (Nat.pos_of_ne_zero hpos)).total (fun c h0 h4 => ?_)
        (by omega)
      have hupper := hzero.cutTheTm hfp 0 c (by omega) (by omega) (by omega)
      rwa [Nat.mul_zero, Nat.zero_add] at hupper
    rw [readParts, htotal]
    exact UInt32.toNat_ofNat_of_lt' (show numberOfParts fp.length < 2 ^ 32 by omega)
  · have hoffset : toUnsignedInt ((numberOfParts fp.length - 1) * maxTotalLength : ℕ) =
        240 * (numberOfParts fp.length - 1) := by
      rw [maxTotalLength_eq, Nat.mul_comm]
      exact toUnsignedInt_of_lt (by omega)
    rw [lastPartSize, hoffset, hsize', Nat.add_left_comm, Nat.cast_add, add_sub_cancel_left]
    have hlt : fp.length % maxPartSize < 232 := hr
    exact toUnsignedInt_of_lt (by omega)

/-- A file is processed exactly if its cut leaves a saved file in the array that can be joined. -/
theorem processFile_cases (s : Output) (d : Disk) (fp : Bytes) :
    let s' := (cutTheTm s fp (UInt32.ofNat fp.length)).2
    (s'.outputSize ≤ outputTmsArraySize ∧ Joinable s'.outputSize s'.saved →
        ∃ d', processFile (s, d) fp = some (s', d')) ∧
      (¬ (s'.outputSize ≤ outputTmsArraySize ∧ Joinable s'.outputSize s'.saved) →
        processFile (s, d) fp = none) := by
  intro s'
  have hsaved : (saveToNewFile s' d true).outFile = some s'.saved := rfl
  obtain ⟨hyes, hno⟩ := reconstruct_cases s' (saveToNewFile s' d true) hsaved
  have hcall : processFile (s, d) fp = if s'.outputSize ≤ outputTmsArraySize then
      (reconstruct s' (saveToNewFile s' d true) true true).map fun d => (s', d) else none := by
    rw [processFile, testCutTm]
  rw [hcall]
  constructor
  · rintro ⟨hle, hjoin⟩
    obtain ⟨out, hout, -⟩ := hyes hjoin
    rw [if_pos hle, hout]
    exact ⟨_, rfl⟩
  · intro hnot
    split
    · next hle =>
      rw [hno fun hjoin => hnot ⟨hle, hjoin⟩]
      rfl
    · rfl

/-- The part that a file adds last fits into one part, together with all that was cut before. -/
def LastPartFits (before : ℕ) (fp : Bytes) : Prop :=
  before + (8 + fp.length % maxPartSize) ≤ maxTotalLength

namespace Ready

variable {s : Output} {fp : Bytes}

/-- The cut of a file keeps the process ready, or the joiner goes outside. -/
theorem cut_iff (h : Ready s) (hfp : fp.length ≤ maxPartsNumber * maxPartSize) :
    let s' := (cutTheTm s fp (UInt32.ofNat fp.length)).2
    s'.outputSize ≤ outputTmsArraySize ∧ Joinable s'.outputSize s'.saved ↔
      (fp ≠ [] → LastPartFits s.outputSize fp) := by
  intro s'
  by_cases hne : fp = []
  · -- nothing is cut, so the file of before is saved and joined again
    subst hne
    exact iff_of_true ⟨h.bounded, h.joinable⟩ fun hno => absurd rfl hno
  · obtain ⟨hparts, hlast⟩ := saved_cutTheTm h.upperZero h.bounded hne hfp
    have hn : numberOfParts fp.length ≤ 255 := numberOfParts_le hfp
    have hpos : numberOfParts fp.length ≠ 0 := fun hno =>
      hne (List.length_eq_zero_iff.1 ((numberOfParts_eq_zero_iff _).1 hno))
    have hsize : s'.outputSize = s.outputSize + cutSize fp :=
      outputSize_testCutTm s ⟨none, none⟩ hfp h.bounded
    have hheader : sizeofTotalNumberField + sizeofActualPartField = 8 := rfl
    rw [Joinable, hparts, hlast, or_iff_right hpos, FitsPart, hheader, LastPartFits, hsize, cutSize,
      if_neg hpos, outputTmsArraySize, maxPartsNumber, maxTotalLength_eq]
    constructor
    · exact fun hfits _ => hfits.2.2
    · intro hfits
      have hfits' := hfits hne
      exact ⟨by omega, by omega, hfits'⟩

/-- The cut of a file that can be joined keeps the process ready. -/
theorem cut (h : Ready s) (hfp : fp.length ≤ maxPartsNumber * maxPartSize)
    (hfits : fp ≠ [] → LastPartFits s.outputSize fp) :
    Ready (cutTheTm s fp (UInt32.ofNat fp.length)).2 where
  upperZero := h.upperZero.cutTheTm hfp
  bounded := ((h.cut_iff hfp).2 hfits).1
  joinable := ((h.cut_iff hfp).2 hfits).2

/-- The files that follow are processed exactly if the last part of each fits. -/
theorem processFiles_iff {files : List Bytes}
    (hfiles : ∀ fp ∈ files, fp.length ≤ maxPartsNumber * maxPartSize) :
    ∀ {s : Output} {d : Disk}, Ready s →
      ((processFiles (s, d) files).isSome = true ↔
        ∀ earlier fp later, files = earlier ++ fp :: later → fp ≠ [] →
          LastPartFits (s.outputSize + (earlier.map cutSize).sum) fp) := by
  induction files with
  | nil =>
    intro s d _
    refine iff_of_true rfl fun earlier fp later hno => ?_
    exact absurd hno.symm (List.append_ne_nil_of_right_ne_nil _ (List.cons_ne_nil _ _))
  | cons fp files ih =>
    intro s d h
    obtain ⟨hfp, hrest⟩ := List.forall_mem_cons.1 hfiles
    obtain ⟨hyes, hno⟩ := processFile_cases s d fp
    have hsize :
        (cutTheTm s fp (UInt32.ofNat fp.length)).2.outputSize = s.outputSize + cutSize fp :=
      outputSize_testCutTm s ⟨none, none⟩ hfp h.bounded
    rw [processFiles]
    by_cases hfits : fp ≠ [] → LastPartFits s.outputSize fp
    · obtain ⟨d', hd'⟩ := hyes ((h.cut_iff hfp).2 hfits)
      rw [hd', Option.bind_some, ih hrest (h.cut hfp hfits), hsize]
      constructor
      · -- the first file, or one after it
        intro hlater earlier x later heq hx
        cases earlier with
        | nil =>
          obtain ⟨rfl, -⟩ := List.cons.inj heq
          exact hfits hx
        | cons y earlier =>
          obtain ⟨rfl, hfiles'⟩ := List.cons.inj heq
          have hx' := hlater earlier x later hfiles' hx
          rwa [Nat.add_assoc] at hx'
      · intro hall earlier x later heq hx
        have hx' := hall (fp :: earlier) x later (congrArg (fp :: ·) heq) hx
        rwa [List.map_cons, List.sum_cons, ← Nat.add_assoc] at hx'
    · rw [hno (mt (h.cut_iff hfp).1 hfits)]
      refine iff_of_false Bool.false_ne_true fun hall => hfits ?_
      exact hall [] fp files rfl

end Ready

/-- A fresh process cuts, saves and joins one supported file after the other without leaving the
buffer of the joiner or the output array if and only if, for each file that is not empty, its last
part with a header and all that was cut before it fit into one part. -/
theorem process_files_inside_iff (d : Disk) (files : List Bytes)
    (hfiles : ∀ fp ∈ files, fp.length ≤ maxPartsNumber * maxPartSize) :
    (processFiles (zeroOutput, d) files).isSome = true ↔
      ∀ earlier fp later, files = earlier ++ fp :: later → fp ≠ [] →
        (earlier.map cutSize).sum + (8 + fp.length % maxPartSize) ≤ maxTotalLength := by
  rw [ready_zeroOutput.processFiles_iff hfiles]
  simp only [LastPartFits, show zeroOutput.outputSize = 0 from rfl, Nat.zero_add]

/-- A file of one byte and an empty one. -/
theorem process_files_inside_iff_two_files :
    (processFiles (zeroOutput, ⟨none, none⟩) [[1], []]).isSome = true := by
  refine (process_files_inside_iff ⟨none, none⟩ [[1], []] (by decide)).2 ?_
  intro earlier fp later heq hne
  rcases earlier with _ | ⟨x, _ | ⟨y, earlier⟩⟩
  · obtain ⟨rfl, -⟩ := List.cons.inj heq
    decide
  · obtain ⟨-, hrest⟩ := List.cons.inj heq
    exact absurd (List.cons.inj hrest).1.symm hne
  · simp at heq

/-- The joiner needs the `output_size` that the cut left in its own process: in a fresh process it
asks `fwrite` for more than its buffer on the saved file of every supported file that is not
empty. -/
theorem fresh_reconstruct_outside (d : Disk) (fp : Bytes) (hne : fp ≠ [])
    (hfp : fp.length ≤ maxPartsNumber * maxPartSize) :
    let saved := saveToNewFile (cutTheTm zeroOutput fp (UInt32.ofNat fp.length)).2 d true
    reconstruct zeroOutput saved true true = none := by
  intro saved
  obtain ⟨hparts, -⟩ := saved_cutTheTm upperZero_zeroOutput (Nat.zero_le _) hne hfp
  have hn : numberOfParts fp.length ≤ 255 := numberOfParts_le hfp
  have hpos : numberOfParts fp.length ≠ 0 := fun hno =>
    hne (List.length_eq_zero_iff.1 ((numberOfParts_eq_zero_iff _).1 hno))
  refine (reconstruct_cases zeroOutput saved rfl).2 ?_
  rw [← Output.saved, Joinable, hparts, or_iff_right hpos]
  have hoffset : toUnsignedInt ((numberOfParts fp.length - 1) * maxTotalLength : ℕ) =
      240 * (numberOfParts fp.length - 1) := by
    rw [maxTotalLength_eq, Nat.mul_comm]
    exact toUnsignedInt_of_lt (by omega)
  have hlast : lastPartSize zeroOutput.outputSize (numberOfParts fp.length) =
      ((0 - 240 * ((numberOfParts fp.length - 1 : ℕ) : ℤ)) % 2 ^ 32).toNat := by
    rw [lastPartSize, hoffset, Nat.cast_mul]
    rfl
  have hheader : sizeofTotalNumberField + sizeofActualPartField = 8 := rfl
  rw [hlast, FitsPart, hheader, maxTotalLength_eq]
  have hk' : numberOfParts fp.length - 1 ≤ 254 := by omega
  clear hlast hoffset
  generalize numberOfParts fp.length - 1 = k at hk' ⊢
  -- the length left is 0 for one part, and wraps for more
  rcases Nat.eq_zero_or_pos k with rfl | hk
  · decide
  · have hwrap : (0 - 240 * (k : ℤ)) % 2 ^ 32 = 2 ^ 32 - 240 * (k : ℤ) := by
      rw [← Int.add_emod_right, Int.emod_eq_of_lt (by omega) (by omega), zero_sub, neg_add_eq_sub]
    rw [hwrap]
    omega

/-- The saved file of three bytes. -/
theorem fresh_reconstruct_outside_three_bytes :
    reconstruct zeroOutput
      (saveToNewFile (cutTheTm zeroOutput [1, 2, 3] (UInt32.ofNat 3)).2 ⟨none, none⟩ true)
      true true = none :=
  fresh_reconstruct_outside ⟨none, none⟩ [1, 2, 3] (by decide) (by decide)

end CComplete.CutTm
