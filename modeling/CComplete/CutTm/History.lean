import CComplete.CutTm.RoundTrip

/-!
# Cutting one file after another

`output_size` is added to by every cut and set back by none. `save_to_new_file` writes that many
bytes, so the saved file of a process that already cut something is longer than the one of a fresh
process. Hence the files produced for the last of a sequence are those of a fresh process exactly
when all files before it were empty (`cut_history_independent_iff`).
-/

set_option autoImplicit false

namespace CComplete.CutTm

open CComplete.Library

/-! ## Sequences of files -/

/-- `C__OUTPUT_TMS_ARRAY_SIZE`. -/
def outputTmsArraySize : ℕ := maxPartsNumber * maxTotalLength

/-- Cut, save and reconstruct one file. There is no result when `fwrite` reads past the end of
`output_cut_tm`, or the joiner past the end of its buffer. -/
def processFile (st : Output × Disk) (fp : Bytes) : Option (Output × Disk) :=
  let r := testCutTm st.1 st.2 fp
  if r.1.outputSize ≤ outputTmsArraySize then r.2.map fun d => (r.1, d) else none

/-- One file after the other in the same process. -/
def processFiles : Output × Disk → List Bytes → Option (Output × Disk)
  | st, [] => some st
  | st, fp :: files => (processFile st fp).bind fun st => processFiles st files

/-- The two files on the disk after the last file of a process that starts with the disk `d`. -/
def producedFiles (d : Disk) (files : List Bytes) : Option Disk :=
  (processFiles (zeroOutput, d) files).map Prod.snd

/-- The files produced for `last` after the files `earlier` are those of a fresh process. -/
def HistoryIndependent (d : Disk) (earlier : List Bytes) (last : Bytes) : Prop :=
  ∃ produced, producedFiles d (earlier ++ [last]) = some produced ∧
    producedFiles d [last] = some produced

variable {st st' : Output × Disk} {fp : Bytes}

theorem processFiles_append (st : Output × Disk) (files files' : List Bytes) :
    processFiles st (files ++ files') =
      (processFiles st files).bind fun st => processFiles st files' := by
  induction files generalizing st with
  | nil => rfl
  | cons fp files ih =>
    rw [List.cons_append, processFiles, processFiles, Option.bind_assoc]
    exact congrArg _ (funext ih)

theorem processFiles_snoc (st : Output × Disk) (files : List Bytes) (fp : Bytes) :
    processFiles st (files ++ [fp]) = (processFiles st files).bind fun st => processFile st fp := by
  rw [processFiles_append]
  congr 1
  funext st
  exact Option.bind_fun_some _

/-! ## What one file adds to the output -/

/-- Number of bytes that the cut of a file adds to `output_size`. -/
def cutSize (fp : Bytes) : ℕ :=
  let n := numberOfParts fp.length
  if n = 0 then 0 else maxTotalLength * (n - 1) + (8 + fp.length % maxPartSize)

theorem numberOfParts_eq_zero_iff (size : ℕ) : numberOfParts size = 0 ↔ size = 0 := by
  rw [numberOfParts, maxPartSize_eq]
  split <;> omega

theorem cutSize_eq_zero_iff (fp : Bytes) : cutSize fp = 0 ↔ fp = [] := by
  rw [← List.length_eq_zero_iff, ← numberOfParts_eq_zero_iff fp.length, cutSize]
  split <;> omega

theorem cutSize_le (hfp : fp.length ≤ maxPartsNumber * maxPartSize) :
    cutSize fp ≤ outputTmsArraySize := by
  have hn : numberOfParts fp.length ≤ 255 := numberOfParts_le hfp
  have hr := remainder_lt fp.length
  rw [cutSize, outputTmsArraySize, maxTotalLength_eq, maxPartsNumber]
  rw [maxPartSize_eq] at hr ⊢
  split <;> omega

theorem outputSize_testCutTm (s : Output) (d : Disk)
    (hfp : fp.length ≤ maxPartsNumber * maxPartSize) (hs : s.outputSize ≤ outputTmsArraySize) :
    (testCutTm s d fp).1.outputSize = s.outputSize + cutSize fp := by
  have hroom : s.outputSize + maxTotalLength * maxPartsNumber < 2 ^ 32 := by
    have hle : s.outputSize ≤ 255 * 240 := hs
    rw [maxTotalLength_eq, maxPartsNumber]
    omega
  exact (cutTheTm_holds s fp hfp hroom).2.2.2

/-- The saved file has `output_size` bytes. -/
theorem outFile_testCutTm {s : Output} {d d' : Disk} (h : (testCutTm s d fp).2 = some d') :
    ∃ bytes, d'.outFile = some bytes ∧ bytes.length = (testCutTm s d fp).1.outputSize := by
  rw [testCutTm, saveToNewFile, if_pos rfl, reconstruct] at h
  simp only [Bool.and_self, if_true] at h
  obtain ⟨out, -, rfl⟩ := Option.map_eq_some_iff.1 h
  exact ⟨_, rfl, Memory.length_block _ _ _⟩

/-- Both files are written anew, so nothing of the disk before is left. -/
theorem processFile_disk (s : Output) (d d' : Disk) (fp : Bytes) :
    processFile (s, d) fp = processFile (s, d') fp := rfl

theorem processFile_spec (hfp : fp.length ≤ maxPartsNumber * maxPartSize)
    (hst : st.1.outputSize ≤ outputTmsArraySize) (h : processFile st fp = some st') :
    st'.1.outputSize = st.1.outputSize + cutSize fp ∧ st'.1.outputSize ≤ outputTmsArraySize ∧
      ∃ bytes, st'.2.outFile = some bytes ∧ bytes.length = st'.1.outputSize := by
  rw [processFile] at h
  split at h
  · next hle =>
    obtain ⟨d', hd', rfl⟩ := Option.map_eq_some_iff.1 h
    exact ⟨outputSize_testCutTm st.1 st.2 hfp hst, hle, outFile_testCutTm hd'⟩
  · cases h

/-- After a run that has a result, `output_size` is the sum of all cuts. -/
theorem processFiles_spec {files : List Bytes}
    (hfiles : ∀ fp ∈ files, fp.length ≤ maxPartsNumber * maxPartSize)
    (hst : st.1.outputSize ≤ outputTmsArraySize) (h : processFiles st files = some st') :
    st'.1.outputSize = st.1.outputSize + (files.map cutSize).sum ∧
      st'.1.outputSize ≤ outputTmsArraySize := by
  induction files generalizing st with
  | nil =>
    obtain rfl := Option.some.inj h
    exact ⟨rfl, hst⟩
  | cons fp files ih =>
    obtain ⟨st₁, hfirst, hrest⟩ := Option.bind_eq_some_iff.1 h
    obtain ⟨hfp, htail⟩ := List.forall_mem_cons.1 hfiles
    obtain ⟨hsize, hle, -⟩ := processFile_spec hfp hst hfirst
    obtain ⟨hsum, hbound⟩ := ih htail hle hrest
    refine ⟨?_, hbound⟩
    rw [hsum, hsize, List.map_cons, List.sum_cons, Nat.add_assoc]

/-! ## Empty files -/

/-- An empty file leaves the output of a fresh process as it is. -/
theorem processFile_nil (d : Disk) :
    processFile (zeroOutput, d) [] = some (zeroOutput, ⟨some [], some []⟩) := rfl

theorem processFiles_empty (d : Disk) {files : List Bytes} (hempty : ∀ fp ∈ files, fp = []) :
    ∃ d', processFiles (zeroOutput, d) files = some (zeroOutput, d') := by
  induction files generalizing d with
  | nil => exact ⟨d, rfl⟩
  | cons fp files ih =>
    obtain ⟨rfl, hrest⟩ := List.forall_mem_cons.1 hempty
    rw [processFiles, processFile_nil]
    exact ih _ hrest

/-! ## Independence -/

/-- A file of the supported size is processed in a fresh process. -/
theorem processFile_fresh (d : Disk) (hfp : fp.length ≤ maxPartsNumber * maxPartSize) :
    ∃ d', processFile (zeroOutput, d) fp = some ((testCutTm zeroOutput d fp).1, d') := by
  obtain ⟨d', hd', -⟩ := reconstructed_eq d fp hfp
  refine ⟨d', ?_⟩
  have hsize := outputSize_testCutTm zeroOutput d hfp (Nat.zero_le _)
  have hle : (testCutTm zeroOutput d fp).1.outputSize ≤ outputTmsArraySize := by
    rw [hsize]
    exact (Nat.zero_add _).trans_le (cutSize_le hfp)
  rw [processFile, if_pos hle, hd']
  rfl

/-- For files of the supported size: the saved and the reconstructed file of the last one are those
of a fresh process if and only if every file before it is empty. -/
theorem cut_history_independent_iff (d : Disk) (earlier : List Bytes) (last : Bytes)
    (hearlier : ∀ fp ∈ earlier, fp.length ≤ maxPartsNumber * maxPartSize)
    (hlast : last.length ≤ maxPartsNumber * maxPartSize) :
    HistoryIndependent d earlier last ↔ ∀ fp ∈ earlier, fp = [] := by
  constructor
  · rintro ⟨produced, hrun, hfresh⟩
    obtain ⟨st₁, hafter, rfl⟩ := Option.map_eq_some_iff.1 hrun
    obtain ⟨st₂, halone, hdisk⟩ := Option.map_eq_some_iff.1 hfresh
    rw [processFiles_snoc] at hafter
    obtain ⟨st, hbefore, hafter⟩ := Option.bind_eq_some_iff.1 hafter
    obtain ⟨hsum, hle⟩ := processFiles_spec hearlier (Nat.zero_le _) hbefore
    obtain ⟨hsize, -, bytes, hbytes, hlength⟩ := processFile_spec hlast hle hafter
    rw [← List.nil_append [last], processFiles_snoc] at halone
    obtain ⟨hsize', -, bytes', hbytes', hlength'⟩ :=
      processFile_spec hlast (Nat.zero_le _) (show processFile (zeroOutput, d) last = _ from halone)
    -- the two saved files have the same length, so nothing was cut before
    rw [hdisk] at hbytes'
    have hsame : bytes = bytes' := Option.some.inj (hbytes.symm.trans hbytes')
    have hnone : (earlier.map cutSize).sum = 0 := by
      rw [← hsame, hlength, hsize, hsum, hsize'] at hlength'
      simp only at hlength'
      omega
    intro fp hfp
    rw [← cutSize_eq_zero_iff]
    exact List.sum_eq_zero_iff_forall_eq_nat.1 hnone _ (List.mem_map_of_mem hfp)
  · intro hempty
    obtain ⟨d', hbefore⟩ := processFiles_empty d hempty
    obtain ⟨produced, hfresh⟩ := processFile_fresh d hlast
    refine ⟨produced, ?_, ?_⟩
    · rw [producedFiles, processFiles_snoc, hbefore, Option.bind_some,
        processFile_disk zeroOutput d' d, hfresh]
      rfl
    · rw [producedFiles, ← List.nil_append [last], processFiles_snoc, processFiles,
        Option.bind_some, hfresh]
      rfl

/-- A file of three bytes after an empty one. -/
theorem cut_history_independent_iff_empty_file :
    HistoryIndependent ⟨none, none⟩ [[]] [1, 2, 3] :=
  (cut_history_independent_iff ⟨none, none⟩ [[]] [1, 2, 3] (by decide) (by decide)).2 (by decide)

/-- The file of one byte that is cut after another one is saved with the 9 bytes of that cut. -/
theorem cut_history_dependent : ¬ HistoryIndependent ⟨none, none⟩ [[1]] [2] := by
  have hafter : (producedFiles ⟨none, none⟩ [[1], [2]]).map (fun d => d.outFile) =
      some (some [1, 0, 0, 0, 0, 0, 0, 0, 2, 0, 0, 0, 0, 0, 0, 0, 0, 0]) := by
    decide +kernel
  have hfresh : (producedFiles ⟨none, none⟩ [[2]]).map (fun d => d.outFile) =
      some (some [1, 0, 0, 0, 0, 0, 0, 0, 2]) := by
    decide +kernel
  rintro ⟨produced, hrun, halone⟩
  rw [show [[1]] ++ [[2]] = [[1], [(2 : UInt8)]] from rfl] at hrun
  rw [hrun] at hafter
  rw [halone] at hfresh
  have hsame := hafter.symm.trans hfresh
  exact absurd hsame (by decide)

end CComplete.CutTm
