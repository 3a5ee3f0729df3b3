import CComplete.Library.Memory

/-!
# Cutting a telemetry file into parts

Model of `cut_tm.c`. The static array `output_cut_tm` is a byte memory that starts at address 0 and
records every index that is accessed; `output_size` keeps its value between the calls. A file
opened for reading is its contents. The counters are natural numbers with the wrap-around of
`unsigned int` written out. All printing is left out.
-/

set_option autoImplicit false

namespace CComplete.CutTm

open CComplete.Library

/-! ## Sizes -/

/-- `LPUS_TM_CONFIGURATION__C_MAX_TOTAL_LENGTH`. -/
def maxTotalLength : ℕ := 240

/-- `C__MAX_PARTS_NUMBER`. -/
def maxPartsNumber : ℕ := 255

/-- `C__SIZEOF_TOTAL_NUMBER_FIELD`. -/
def sizeofTotalNumberField : ℕ := 4

/-- `C__SIZEOF_ACTUAL_PART_FIELD`. -/
def sizeofActualPartField : ℕ := 4

/-- `C__MAX_PART_SIZE`. -/
def maxPartSize : ℕ := maxTotalLength - sizeofTotalNumberField - sizeofActualPartField

/-! ## The cutter -/

/-- `output_cut_tm` and `output_size`. -/
structure Output where
  outputCutTm : Memory
  -- only ever added to: a second cut starts from the size of the first
  outputSize : ℕ

/-- The output when the program starts: static data is zero. -/
def zeroOutput : Output := ⟨⟨fun _ => 0, []⟩, 0⟩

/-- `output_cut_tm[i] = b`. -/
def storeByte (m : Memory) (i : ℕ) (b : UInt8) : Memory := m.copyIn i (fun _ => b) 1

/-- Copy loop of `cut_the_tm`: the first `partSize` bytes of `partFileBuff`. -/
def copyPart (m : Memory) (outputOffset : ℕ) (partFileBuff : Bytes) (partSize : ℕ) : Memory :=
  (List.range partSize).foldl
    (fun m j => storeByte m (toUnsignedInt (outputOffset + j : ℕ)) (partFileBuff.getD j 0)) m

/-- The `part_size` of part `i`. -/
def partSize (numberOfParts remainder i : ℕ) : ℕ :=
  -- the last part could be not full
  if i ≠ toUnsignedInt ((numberOfParts : ℤ) - 1) then maxPartSize else remainder

/-- One turn of the loop of `cut_the_tm`, on the output and `partFileBuff`. -/
def cutPart (fp : Bytes) (numberOfParts remainder : ℕ) (st : Output × Bytes) (i : ℕ) :
    Output × Bytes :=
  let numberOffset := toUnsignedInt (i * maxTotalLength : ℕ)
  let idOffset := toUnsignedInt (numberOffset + sizeofTotalNumberField : ℕ)
  let outputOffset := toUnsignedInt (idOffset + sizeofActualPartField : ℕ)
  let fileOffset := toUnsignedInt (i * maxPartSize : ℕ)
  let size := partSize numberOfParts remainder i
  -- only the first byte of each four-byte field is assigned
  let m := storeByte st.1.outputCutTm numberOffset (UInt8.ofNat numberOfParts)
  let m := storeByte m idOffset (UInt8.ofNat i)
  -- a short read leaves the rest of the buffer from the part before
  let partFileBuff := overlay (pread fp fileOffset size) st.2
  ({ outputCutTm := copyPart m outputOffset partFileBuff size
     outputSize := toUnsignedInt
      (st.1.outputSize + (sizeofTotalNumberField + sizeofActualPartField + size) : ℕ) },
    partFileBuff)

/-- `*_number_of_parts` after the first lines of `cut_the_tm`. -/
def numberOfParts (baseSize : ℕ) : ℕ :=
  baseSize / maxPartSize + if baseSize % maxPartSize ≠ 0 then 1 else 0

/-- `cut_the_tm`: the number of parts and the output. -/
def cutTheTm (s : Output) (fp : Bytes) (baseSize : UInt32) : ℕ × Output :=
  (numberOfParts baseSize.toNat,
    ((List.range (numberOfParts baseSize.toNat)).foldl
      (cutPart fp (numberOfParts baseSize.toNat) (baseSize.toNat % maxPartSize))
      (s, List.replicate maxPartSize 0)).1)

/-! ## The files -/

/-- `out_file.bin` and `out_reconstructed.bin`. -/
structure Disk where
  outFile : Option Bytes
  outReconstructed : Option Bytes
deriving DecidableEq

/-- `save_to_new_file`; `opened` says that `fopen` succeeds. -/
def saveToNewFile (s : Output) (d : Disk) (opened : Bool) : Disk :=
  if opened then { d with outFile := some (s.outputCutTm.block 0 s.outputSize) } else d

/-! ## The joiner -/

/-- Loop of `reconstruct` from part `i` on, with `remaining` parts to go; `out` is what was written
to the reconstructed file. There is no result when `fread` or `fwrite` is asked for bytes outside
`tmp_buffer`, whatever it then does. -/
def reconstructLoop (outputSize : ℕ) (fpIn : Bytes) (totalSize : ℕ) :
    ℕ → ℕ → ℕ → Bytes → Bytes → Option Bytes
  | 0, _, _, _, out => some out
  | remaining + 1, i, offset, tmpBuffer, out =>
      let header := sizeofTotalNumberField + sizeofActualPartField
      if i < totalSize - 1 then
        let tmpBuffer := overlay (pread fpIn offset maxTotalLength) tmpBuffer
        reconstructLoop outputSize fpIn totalSize remaining (i + 1)
          (toUnsignedInt (offset + maxTotalLength : ℕ)) tmpBuffer
          (out ++ (tmpBuffer.drop header).take maxPartSize)
      else
        -- less than a whole part may remain to be read
        let lastPart := toUnsignedInt ((outputSize : ℤ) - offset)
        let tmpBuffer := overlay (pread fpIn offset lastPart) tmpBuffer
        -- the sizes are of type `size_t`, so this difference may wrap
        let size := toUnsignedLong ((lastPart : ℤ) - header)
        if tmpBuffer.length ≤ maxTotalLength ∧ header + size ≤ maxTotalLength then
          reconstructLoop outputSize fpIn totalSize remaining (i + 1)
            (toUnsignedInt (offset + maxTotalLength : ℕ)) tmpBuffer
            (out ++ (tmpBuffer.drop header).take size)
        else none

/-- `reconstruct`; `openedIn` and `openedOut` say that `fopen` of the two files succeeds, the first
if the file exists. -/
def reconstruct (s : Output) (d : Disk) (openedIn openedOut : Bool) : Option Disk :=
  -- the output file is truncated even if the input file does not open
  let d' := if openedOut then { d with outReconstructed := some [] } else d
  match d.outFile with
  | none => some d'
  | some fpIn =>
      if openedIn && openedOut then
        -- the number of parts is the first word of the file
        let totalSize := wordCodec.readAt fpIn 0 0
        (reconstructLoop s.outputSize fpIn totalSize.toNat totalSize.toNat 0 0
          (List.replicate maxTotalLength 0) []).map
            fun out => { d with outReconstructed := some out }
      else some d'

/-- `test_cut_tm` on a file that opens, with all file operations succeeding: cut, save and
reconstruct. `get_file_octet_size` gives the size as an `unsigned int`. -/
def testCutTm (s : Output) (d : Disk) (fp : Bytes) : Output × Option Disk :=
  let s' := (cutTheTm s fp (UInt32.ofNat fp.length)).2
  (s', reconstruct s' (saveToNewFile s' d true) true true)

end CComplete.CutTm
