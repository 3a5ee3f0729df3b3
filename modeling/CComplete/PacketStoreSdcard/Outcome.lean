import CComplete.PacketStoreSdcard.Model
import Mathlib.Tactic.Ring

/-!
# What each call does to the handler and the disk

Every call of the packet store ends in a world `w.finish h n es`: the handler `h`, `n` more calls of
`fopen` and the changes `es` of the disk, in order. The equations below give the code, the handler
and the changes of `store_callback` and `delete_up_to_time` for every answer of the environment, as
far as the info file exists.
-/

set_option autoImplicit false

namespace CComplete.PacketStoreSdcard

open CComplete.Library

/-- The world after `n` calls of `fopen` and the changes `es` of the disk, with the handler `h`. -/
def World.finish (w : World) (h : FileHandler) (n : ℕ) (es : List DiskEffect) : World where
  handler := h
  disk := es.foldl Disk.apply w.disk
  granted := w.granted
  opened := w.opened + n
  effects := w.effects ++ es

section Finish

variable (w : World) (h h' : FileHandler) (n n' : ℕ) (es es' : List DiskEffect)

@[simp] theorem finish_finish :
    (w.finish h n es).finish h' n' es' = w.finish h' (n + n') (es ++ es') := by
  simp [World.finish, Nat.add_assoc]

@[simp] theorem finish_handler : (w.finish h n es).handler = h := rfl

@[simp] theorem finish_granted : (w.finish h n es).granted = w.granted := rfl

@[simp] theorem finish_opened : (w.finish h n es).opened = w.opened + n := rfl

@[simp] theorem finish_effects : (w.finish h n es).effects = w.effects ++ es := rfl

@[simp] theorem finish_disk : (w.finish h n es).disk = es.foldl Disk.apply w.disk := rfl

@[simp] theorem finish_toStore :
    (w.finish h n es).toStore = ⟨h, es.foldl Disk.apply w.disk⟩ := rfl

@[simp] theorem begin_toStore (s : Store) (granted : ℕ → Bool) :
    (s.begin granted).toStore = s := rfl

@[simp] theorem finish_withHandler : (w.finish h n es).withHandler h' = w.finish h' n es := rfl

theorem nextFopen_eq : w.nextFopen = (w.granted w.opened, w.finish w.handler 1 []) := by
  simp [World.nextFopen, World.finish]

theorem emit_eq (e : DiskEffect) : w.emit e = w.finish w.handler 0 [e] := rfl

theorem withHandler_eq : w.withHandler h = w.finish h 0 [] := by
  simp [World.withHandler, World.finish]

end Finish

/-! ## The two files -/

/-- Only writes of a handler change the info file. -/
theorem infoFile_foldl (es : List DiskEffect) :
    ∀ d : Disk, (∀ e ∈ es, ∀ h, e ≠ .writeHandler h) →
      (es.foldl Disk.apply d).infoFile = d.infoFile := by
  induction es with
  | nil => exact fun d _ => rfl
  | cons e es ih =>
    intro d hes
    rw [List.foldl_cons, ih _ fun e' he' => hes e' (List.mem_cons_of_mem _ he')]
    cases e with
    | truncatePacketFile => rfl
    | writeElement position element => rfl
    | writeHandler h => exact absurd rfl (hes _ List.mem_cons_self h)

/-- No change removes the packet file. -/
theorem isSome_packetFile_foldl (es : List DiskEffect) :
    ∀ d : Disk, d.packetFile.isSome = true →
      (es.foldl Disk.apply d).packetFile.isSome = true := by
  induction es with
  | nil => exact fun d hd => hd
  | cons e es ih =>
    intro d hd
    refine ih (d.apply e) ?_
    cases e with
    | truncatePacketFile => rfl
    | writeElement position element => rfl
    | writeHandler h => exact hd

/-- The change that `update_info_file` makes: none when its `fopen` fails. -/
def infoUpdate (opened : Bool) (h : FileHandler) : List DiskEffect :=
  if opened then [.writeHandler h] else []

theorem packetBytes_infoUpdate (d : Disk) (opened : Bool) (h : FileHandler) :
    ((infoUpdate opened h).foldl Disk.apply d).packetBytes = d.packetBytes := by
  cases opened <;> rfl

theorem updateInfoFile_eq (w : World) (hinfo : w.disk.infoFile.isSome = true) :
    updateInfoFile w =
      (if w.granted w.opened then 0 else -1,
        w.finish w.handler 1 (infoUpdate (w.granted w.opened) w.handler)) := by
  cases hg : w.granted w.opened <;>
    simp [updateInfoFile, World.fopenInfoFile, nextFopen_eq, emit_eq, hinfo, hg, infoUpdate]

/-! ## Store -/

/-- The handler once `store_callback` has taken the packet `e` as the first of an empty store. -/
def FileHandler.admitting (h : FileHandler) (e : Element) : FileHandler :=
  if h.tmNumber = 0 then { h with oldestTmPosition := h.writeTo, oldestTime := e.coarseTime } else h

/-- The handler once the packet `e` is written. -/
def FileHandler.storing (h : FileHandler) (e : Element) : FileHandler :=
  { h with
    writeTo := updateBrowserAscending h h.writeTo
    tmNumber := toUnsignedInt (h.tmNumber + 1 : ℕ)
    newestTime := e.coarseTime }

/-- `store_callback` does not refuse the packet `e`. -/
def FileHandler.Accepts (N : ℕ) (h : FileHandler) (e : Element) : Prop :=
  h.tmNumber < N ∧ (h.tmNumber = 0 ∨ h.newestTime ≤ e.coarseTime)

instance (N : ℕ) (h : FileHandler) (e : Element) : Decidable (h.Accepts N e) :=
  inferInstanceAs (Decidable (_ ∧ _))

theorem writeAndUpdate_eq (w : World) (hinfo : w.disk.infoFile.isSome = true) (e : Element) :
    writeAndUpdate w e =
      (if w.granted w.opened then 0 else -2,
        w.finish (w.handler.storing e) 1
          (.writeElement w.handler.writeTo e ::
            infoUpdate (w.granted w.opened) (w.handler.storing e))) := by
  -- the info file still exists after the element is written
  have hkeep : (Disk.apply w.disk (.writeElement w.handler.writeTo e)).infoFile.isSome = true :=
    hinfo
  cases hg : w.granted w.opened <;>
    simp [writeAndUpdate, emit_eq, withHandler_eq, updateInfoFile_eq, hkeep, hg, infoUpdate,
      FileHandler.storing]

theorem openAndWrite_reopened (w : World) (hinfo : w.disk.infoFile.isSome = true)
    (hopen : (w.granted w.opened && w.disk.packetFile.isSome) = true) (e : Element) :
    openAndWrite w e =
      (if w.granted (w.opened + 1) then 0 else -2,
        w.finish (w.handler.storing e) 2
          (.writeElement w.handler.writeTo e ::
            infoUpdate (w.granted (w.opened + 1)) (w.handler.storing e))) := by
  have hwrite := writeAndUpdate_eq (w.finish w.handler 1 []) hinfo e
  simp only [openAndWrite, World.fopenPacketFile, nextFopen_eq, hopen, if_true, hwrite]
  simp
  rfl

theorem openAndWrite_created (w : World) (hinfo : w.disk.infoFile.isSome = true)
    (hclosed : (w.granted w.opened && w.disk.packetFile.isSome) = false)
    (hcreate : w.granted (w.opened + 1) = true) (e : Element) :
    openAndWrite w e =
      (if w.granted (w.opened + 2) then 0 else -2,
        w.finish (w.handler.storing e) 3
          (.truncatePacketFile :: .writeElement w.handler.writeTo e ::
            infoUpdate (w.granted (w.opened + 2)) (w.handler.storing e))) := by
  have hwrite := writeAndUpdate_eq (w.finish w.handler 2 [.truncatePacketFile]) hinfo e
  simp [openAndWrite, World.fopenPacketFile, World.fopenNewPacketFile, nextFopen_eq, hclosed,
    hcreate, emit_eq, hwrite]
  rfl

theorem openAndWrite_failed (w : World)
    (hclosed : (w.granted w.opened && w.disk.packetFile.isSome) = false)
    (hcreate : w.granted (w.opened + 1) = false) (e : Element) :
    openAndWrite w e = (1, w.finish w.handler 2 []) := by
  simp [openAndWrite, World.fopenPacketFile, World.fopenNewPacketFile, nextFopen_eq, hclosed,
    hcreate]

/-- The handler after the packet `e` was stored. -/
def FileHandler.stored (h : FileHandler) (e : Element) : FileHandler := (h.admitting e).storing e

@[simp] theorem admitting_tmNumber (h : FileHandler) (e : Element) :
    (h.admitting e).tmNumber = h.tmNumber := by
  unfold FileHandler.admitting
  split <;> rfl

/-- While there is room, the count of the packets does not wrap. -/
theorem storing_tmNumber {N : ℕ} {h : FileHandler} (hroom : h.tmNumber < N) (hN : N < 2 ^ 32)
    (e : Element) : (h.storing e).tmNumber = h.tmNumber + 1 :=
  toUnsignedInt_of_lt (Nat.lt_of_le_of_lt hroom hN)

theorem stored_tmNumber {N : ℕ} {h : FileHandler} (hroom : h.tmNumber < N) (hN : N < 2 ^ 32)
    (e : Element) : (h.stored e).tmNumber = h.tmNumber + 1 := by
  rw [← admitting_tmNumber h e] at hroom ⊢
  exact storing_tmNumber hroom hN e

section Store

variable (N : ℕ) (dataPtr : ℕ → UInt8) (dataSize : UInt32) (storageTime : ℕ → UInt8)

theorem storeCallback_refused (w : World)
    (h : ¬ w.handler.Accepts N (elementToWrite dataPtr dataSize storageTime)) :
    ∃ code, code ≠ 0 ∧
      storeCallback N w dataPtr dataSize storageTime = (code, w.finish w.handler 0 []) := by
  rw [← withHandler_eq]
  -- full, or older than the newest packet
  by_cases hfull : w.handler.tmNumber ≥ N
  · exact ⟨-1, by decide, if_pos hfull⟩
  · have hempty : w.handler.tmNumber ≠ 0 := fun h0 => h ⟨not_le.1 hfull, Or.inl h0⟩
    have hold : (elementToWrite dataPtr dataSize storageTime).coarseTime < w.handler.newestTime :=
      UInt32.not_le.1 fun hle => h ⟨not_le.1 hfull, Or.inr hle⟩
    refine ⟨-2, by decide, ?_⟩
    simp only [storeCallback, if_neg hfull, if_neg hempty, hold, if_true]
    rfl

theorem storeCallback_accepted (w : World)
    (h : w.handler.Accepts N (elementToWrite dataPtr dataSize storageTime)) :
    storeCallback N w dataPtr dataSize storageTime =
      openAndWrite
        (w.finish (w.handler.admitting (elementToWrite dataPtr dataSize storageTime)) 0 [])
        (elementToWrite dataPtr dataSize storageTime) := by
  obtain ⟨hlt, horder⟩ := h
  simp only [storeCallback, if_neg (not_le.2 hlt)]
  by_cases hempty : w.handler.tmNumber = 0
  · rw [if_pos hempty, FileHandler.admitting, if_pos hempty, withHandler_eq]
  · have hnewer := horder.resolve_left hempty
    rw [if_neg hempty, FileHandler.admitting, if_neg hempty, if_neg (UInt32.not_lt.2 hnewer),
      ← withHandler_eq]
    rfl

@[simp] theorem admitting_writeTo (h : FileHandler) (e : Element) :
    (h.admitting e).writeTo = h.writeTo := by
  unfold FileHandler.admitting
  split <;> rfl

/-- The four ways a call of `store_callback` can end: refused, written to the existing packet file,
written to a new packet file, or no packet file opened. -/
theorem storeCallback_cases (s : Store) (granted : ℕ → Bool)
    (hinfo : s.disk.infoFile.isSome = true) :
    let e := elementToWrite dataPtr dataSize storageTime
    let call := storeCallback N (s.begin granted) dataPtr dataSize storageTime
    (¬ s.handler.Accepts N e ∧
        ∃ code, code ≠ 0 ∧ call = (code, (s.begin granted).finish s.handler 0 [])) ∨
      (s.handler.Accepts N e ∧ (granted 0 && s.disk.packetFile.isSome) = true ∧
        call = (if granted 1 then 0 else -2,
          (s.begin granted).finish (s.handler.stored e) 2
            (.writeElement s.handler.writeTo e ::
              infoUpdate (granted 1) (s.handler.stored e)))) ∨
      (s.handler.Accepts N e ∧ (granted 0 && s.disk.packetFile.isSome) = false ∧
        granted 1 = true ∧
        call = (if granted 2 then 0 else -2,
          (s.begin granted).finish (s.handler.stored e) 3
            (.truncatePacketFile :: .writeElement s.handler.writeTo e ::
              infoUpdate (granted 2) (s.handler.stored e)))) ∨
      (s.handler.Accepts N e ∧ (granted 0 && s.disk.packetFile.isSome) = false ∧
        granted 1 = false ∧
        call = (1, (s.begin granted).finish (s.handler.admitting e) 2 [])) := by
  intro e call
  by_cases hacc : s.handler.Accepts N e
  · have hcall : call = _ :=
      storeCallback_accepted N dataPtr dataSize storageTime (s.begin granted) hacc
    let w := (s.begin granted).finish (s.handler.admitting e) 0 []
    refine Or.inr ?_
    cases hopen : (granted 0 && s.disk.packetFile.isSome) with
    | true =>
      have hwrite := openAndWrite_reopened w hinfo hopen e
      refine Or.inl ⟨hacc, rfl, hcall.trans (hwrite.trans ?_)⟩
      simp [w, FileHandler.stored, Store.begin]
    | false =>
      refine Or.inr ?_
      cases hcreate : granted 1 with
      | true =>
        have hwrite := openAndWrite_created w hinfo hopen hcreate e
        refine Or.inl ⟨hacc, rfl, rfl, hcall.trans (hwrite.trans ?_)⟩
        simp [w, FileHandler.stored, Store.begin]
      | false =>
        have hwrite := openAndWrite_failed w hopen hcreate e
        refine Or.inr ⟨hacc, rfl, rfl, hcall.trans (hwrite.trans ?_)⟩
        simp [w]
  · exact Or.inl ⟨hacc,
      storeCallback_refused N dataPtr dataSize storageTime (s.begin granted) hacc⟩

end Store

/-! ## Range read and restart -/

theorem searchForStartTime_world (w : World) (startTime : UInt32) :
    (searchForStartTimePositionInFile w startTime).2 = w.finish w.handler 1 [] := by
  simp only [searchForStartTimePositionInFile, World.fopenPacketFile, nextFopen_eq]
  split
  · split <;> rfl
  · rfl

theorem searchForEndTime_world (w : World) (endTm : UInt32) :
    (searchForEndTimePositionInFile w endTm).2 = w.finish w.handler 1 [] := by
  simp only [searchForEndTimePositionInFile, World.fopenPacketFile, nextFopen_eq]
  split
  · split <;> rfl
  · rfl

theorem copyRange_world (w : World) (elements : ℕ → Element) (maxElementToRead readNumber : ℕ)
    (startPos : ℤ) :
    ∃ n, (copyRange w elements maxElementToRead readNumber startPos).2 =
      w.finish w.handler n [] := by
  simp only [copyRange, World.fopenPacketFile, nextFopen_eq]
  split
  · exact ⟨0, withHandler_eq w w.handler⟩
  · split <;> exact ⟨1, rfl⟩

theorem copyRange_readNumber (w : World) (elements : ℕ → Element)
    (maxElementToRead readNumber : ℕ) (startPos : ℤ) :
    (copyRange w elements maxElementToRead readNumber startPos).1.readNumber = readNumber := by
  simp only [copyRange]
  split
  · rfl
  · split <;> rfl

/-- A range read only opens files. -/
theorem readElements_world (w : World) (elements : ℕ → Element)
    (maxElementToRead readNumber : ℕ) (startTime endTime : UInt32) :
    ∃ n, (readElementsBetweenTwoDates w elements maxElementToRead readNumber startTime
      endTime).2 = w.finish w.handler n [] := by
  have hstart := searchForStartTime_world w startTime
  have hcopy : ∀ (w' : World) (m : ℕ), w' = w.finish w.handler m [] → ∀ count startPos,
      ∃ n, (copyRange w' elements maxElementToRead count startPos).2 =
        w.finish w.handler n [] := by
    rintro w' m rfl count startPos
    obtain ⟨n, hn⟩ := copyRange_world (w.finish w.handler m []) elements maxElementToRead count
      startPos
    exact ⟨m + n, hn.trans (finish_finish _ _ _ _ _ _ _)⟩
  simp only [readElementsBetweenTwoDates]
  split
  -- no start search: everything, or up to the end time
  · split
    · split
      · exact ⟨0, withHandler_eq w w.handler⟩
      · simp only [World.fopenPacketFile, nextFopen_eq]
        split <;> exact ⟨1, rfl⟩
    · have hend := searchForEndTime_world w endTime
      split
      · next heq => rw [heq] at hend; exact ⟨1, hend⟩
      · next heq => rw [heq] at hend; exact hcopy _ 1 hend _ _
  -- a start search, then up to the newest, or up to the end time
  · split
    · next heq => rw [heq] at hstart; exact ⟨1, hstart⟩
    · next w' heq =>
      rw [heq] at hstart
      split
      · exact hcopy _ 1 hstart _ _
      · have hend := searchForEndTime_world w' endTime
        rw [show w' = _ from hstart, finish_finish] at hend
        split
        · next heq' =>
          rw [show w' = _ from hstart] at heq'
          rw [heq'] at hend
          exact ⟨2, hend⟩
        · next heq' =>
          rw [show w' = _ from hstart] at heq'
          rw [heq'] at hend
          exact hcopy _ 2 hend _ _

theorem readElements_toStore (w : World) (elements : ℕ → Element)
    (maxElementToRead readNumber : ℕ) (startTime endTime : UInt32) :
    (readElementsBetweenTwoDates w elements maxElementToRead readNumber startTime
      endTime).2.toStore = w.toStore := by
  obtain ⟨n, hn⟩ := readElements_world w elements maxElementToRead readNumber startTime endTime
  rw [hn]
  rfl

section Read

variable {w w' w'' : World} {startTime endTime : UInt32} {startPos endPos : ℤ}
variable (elements : ℕ → Element) (maxElementToRead readNumber : ℕ)

/-- A range that covers all times copies the whole store, if the packet file opens. -/
theorem readElements_dump (hstart : startTime ≤ w.handler.oldestTime)
    (hend : endTime ≥ w.handler.newestTime) (hroom : w.handler.tmNumber ≤ maxElementToRead) :
    (readElementsBetweenTwoDates w elements maxElementToRead readNumber startTime endTime).1 =
      if (w.granted w.opened && w.disk.packetFile.isSome) = true then
        ⟨0, w.handler.tmNumber,
          copyLoop w.handler w.disk.packetBytes w.handler.tmNumber 0 w.handler.oldestTmPosition
            elements⟩
      else ⟨1, readNumber, elements⟩ := by
  simp only [readElementsBetweenTwoDates, if_pos hstart, if_pos hend, if_neg (not_lt.2 hroom),
    World.fopenPacketFile, nextFopen_eq]
  split <;> rfl

theorem readElements_toEnd (hstart : startTime ≤ w.handler.oldestTime)
    (hend : ¬ endTime ≥ w.handler.newestTime)
    (hsearch : searchForEndTimePositionInFile w endTime = (.ok endPos, w')) :
    readElementsBetweenTwoDates w elements maxElementToRead readNumber startTime endTime =
      copyRange w' elements maxElementToRead
        (getNumberOfElementsBetweenTwoPosition w.handler w.handler.oldestTmPosition endPos)
        w.handler.oldestTmPosition := by
  simp only [readElementsBetweenTwoDates, if_pos hstart, if_neg hend, hsearch]

theorem readElements_fromStart (hstart : ¬ startTime ≤ w.handler.oldestTime)
    (hend : endTime ≥ w.handler.newestTime)
    (hsearch : searchForStartTimePositionInFile w startTime = (.ok startPos, w')) :
    readElementsBetweenTwoDates w elements maxElementToRead readNumber startTime endTime =
      copyRange w' elements maxElementToRead
        (getNumberOfElementsBetweenTwoPosition w.handler startPos
          (updateBrowserDescending w.handler w.handler.writeTo)) startPos := by
  simp only [readElementsBetweenTwoDates, if_neg hstart, if_pos hend, hsearch]

theorem readElements_between (hstart : ¬ startTime ≤ w.handler.oldestTime)
    (hend : ¬ endTime ≥ w.handler.newestTime)
    (hsearch : searchForStartTimePositionInFile w startTime = (.ok startPos, w'))
    (hsearch' : searchForEndTimePositionInFile w' endTime = (.ok endPos, w'')) :
    readElementsBetweenTwoDates w elements maxElementToRead readNumber startTime endTime =
      copyRange w'' elements maxElementToRead
        (getNumberOfElementsBetweenTwoPosition w.handler startPos endPos) startPos := by
  simp only [readElementsBetweenTwoDates, if_neg hstart, if_neg hend, hsearch, hsearch']

end Read

/-- A fresh process that can open the info file takes its handler image. -/
theorem init_of_image (N : ℕ) (d : Disk) {image : FileHandler} (hinfo : d.infoFile = some image)
    {granted : ℕ → Bool} (hopen : granted 0 = true) :
    (init N (Store.begin ⟨FileHandler.zero, d⟩ granted)).1 = 0 ∧
      (init N (Store.begin ⟨FileHandler.zero, d⟩ granted)).2.toStore = ⟨image, d⟩ ∧
      (init N (Store.begin ⟨FileHandler.zero, d⟩ granted)).2.effects = [] := by
  simp [init, Store.begin, World.withHandler, World.nextFopen, hinfo, hopen]

/-! ## Delete -/

/-- Null elements over the first `n` of the given positions. -/
def erasures (position : ℕ → ℤ) (n : ℕ) : List DiskEffect :=
  (List.range n).map fun i => .writeElement (position i) nullElement

/-- The handler after a delete of everything. -/
def FileHandler.cleared (h : FileHandler) : FileHandler :=
  { h with writeTo := 0, tmNumber := 0, oldestTmPosition := 0, oldestTime := 0, newestTime := 0 }

/-- The handler after a delete of the `stop` oldest packets, with the next one of time `time`. -/
def FileHandler.trimmed (h : FileHandler) (stop : ℕ) (time : UInt32) : FileHandler :=
  { h with
    tmNumber := toUnsignedInt (h.tmNumber - stop)
    oldestTmPosition := h.position stop
    oldestTime := time }

/-- Nor does it when live packets are dropped. -/
theorem trimmed_tmNumber {h : FileHandler} (hlt : h.tmNumber < 2 ^ 32) {stop : ℕ}
    (hstop : stop ≤ h.tmNumber) (time : UInt32) :
    (h.trimmed stop time).tmNumber = h.tmNumber - stop := by
  have hsub : ((h.tmNumber : ℤ) - stop) = ((h.tmNumber - stop : ℕ) : ℤ) := (Nat.cast_sub hstop).symm
  rw [FileHandler.trimmed, hsub]
  exact toUnsignedInt_of_lt ((Nat.sub_le _ _).trans_lt hlt)

theorem erasures_succ (position : ℕ → ℤ) (n : ℕ) :
    erasures position (n + 1) =
      .writeElement (position 0) nullElement :: erasures (fun i => position (i + 1)) n := by
  rw [erasures, List.range_succ_eq_map, List.map_cons, List.map_map]
  rfl

theorem infoFile_erasures (d : Disk) (position : ℕ → ℤ) (n : ℕ) :
    ((erasures position n).foldl Disk.apply d).infoFile = d.infoFile := by
  apply infoFile_foldl
  intro e he h heq
  obtain ⟨i, -, rfl⟩ := List.mem_map.1 he
  cases heq

theorem eraseSequentially_eq (n : ℕ) (position : ℤ) (w : World) :
    eraseSequentially n position w =
      w.finish w.handler 0 (erasures (fun i => position + sizeofElement * (i : ℤ)) n) := by
  induction n generalizing position w with
  | zero => exact withHandler_eq w w.handler
  | succ n ih =>
    rw [eraseSequentially, ih, emit_eq, erasures_succ, finish_finish]
    congr 1
    -- the loop counts on from the position after the one just erased
    have hshift : (fun i : ℕ => position + sizeofElement + sizeofElement * (i : ℤ)) =
        fun i : ℕ => position + sizeofElement * ((i + 1 : ℕ) : ℤ) := by
      funext i
      rw [Nat.cast_add, Nat.cast_one]
      ring
    rw [hshift, Nat.cast_zero, mul_zero, add_zero]
    rfl

theorem eraseAlongRing_eq (n : ℕ) (browser : ℤ) (w : World) :
    eraseAlongRing n browser w =
      ((updateBrowserAscending w.handler)^[n] browser,
        w.finish w.handler 0
          (erasures (fun i => (updateBrowserAscending w.handler)^[i] browser) n)) := by
  induction n generalizing browser w with
  | zero => exact congrArg (Prod.mk browser) (withHandler_eq w w.handler)
  | succ n ih =>
    rw [eraseAlongRing, ih, emit_eq, erasures_succ, finish_finish]
    rfl

theorem searchForStartTime_closed (w : World) (startTime : UInt32)
    (hclosed : (w.granted w.opened && w.disk.packetFile.isSome) = false) :
    searchForStartTimePositionInFile w startTime = (.error (-1), w.finish w.handler 1 []) := by
  simp [searchForStartTimePositionInFile, World.fopenPacketFile, nextFopen_eq, hclosed]

theorem searchForEndTime_closed (w : World) (endTm : UInt32)
    (hclosed : (w.granted w.opened && w.disk.packetFile.isSome) = false) :
    searchForEndTimePositionInFile w endTm = (.error (-1), w.finish w.handler 1 []) := by
  simp [searchForEndTimePositionInFile, World.fopenPacketFile, nextFopen_eq, hclosed]

theorem deleteUpToTime_error {w w' : World} {time : UInt32} {code : ℤ}
    (hT : ¬ time ≥ w.handler.newestTime)
    (hsearch : searchForEndTimePositionInFile w time = (.error code, w')) :
    deleteUpToTime w time = (2, w') := by
  rw [deleteUpToTime, if_neg hT, hsearch]

theorem deleteUpToTime_ok {w w' : World} {time : UInt32} {endPos : ℤ}
    (hT : ¬ time ≥ w.handler.newestTime)
    (hsearch : searchForEndTimePositionInFile w time = (.ok endPos, w')) :
    deleteUpToTime w time = deleteUpToPosition w' endPos := by
  rw [deleteUpToTime, if_neg hT, hsearch]

theorem deleteAll_closed (w : World)
    (hclosed : (w.granted w.opened && w.disk.packetFile.isSome) = false) :
    deleteAll w = (1, w.finish w.handler 1 []) := by
  simp [deleteAll, World.fopenPacketFile, nextFopen_eq, hclosed]

theorem deleteAll_opened (w : World) (hinfo : w.disk.infoFile.isSome = true)
    (hopen : (w.granted w.opened && w.disk.packetFile.isSome) = true) :
    deleteAll w =
      (0, w.finish w.handler.cleared 2
        (erasures (fun i => w.handler.oldestTmPosition + sizeofElement * (i : ℤ))
            w.handler.tmNumber ++
          infoUpdate (w.granted (w.opened + 1)) w.handler.cleared)) := by
  have hkeep := infoFile_erasures w.disk
    (fun i => w.handler.oldestTmPosition + sizeofElement * (i : ℤ)) w.handler.tmNumber
  rw [← hkeep] at hinfo
  have hupdate := updateInfoFile_eq
    (w.finish w.handler.cleared 1
      (erasures (fun i => w.handler.oldestTmPosition + sizeofElement * (i : ℤ))
        w.handler.tmNumber)) hinfo
  simp only [FileHandler.cleared] at hupdate
  simp [deleteAll, World.fopenPacketFile, nextFopen_eq, hopen, eraseSequentially_eq,
    withHandler_eq, hupdate, FileHandler.cleared]

theorem deleteUpToPosition_closed (w : World) (endPos : ℤ)
    (hclosed : (w.granted w.opened && w.disk.packetFile.isSome) = false) :
    deleteUpToPosition w endPos = (1, w.finish w.handler 1 []) := by
  simp [deleteUpToPosition, World.fopenPacketFile, nextFopen_eq, hclosed]

/-- The partial delete erases `stop` packets and then reads the time of the next one. -/
theorem deleteUpToPosition_opened (w : World) (endPos : ℤ) (hinfo : w.disk.infoFile.isSome = true)
    (hopen : (w.granted w.opened && w.disk.packetFile.isSome) = true) :
    let stop := getNumberOfElementsBetweenTwoPosition w.handler w.handler.oldestTmPosition endPos
    let erased := (erasures w.handler.position stop).foldl Disk.apply w.disk
    let h := w.handler.trimmed stop
      (wordCodec.readAt erased.packetBytes (w.handler.position stop) w.handler.oldestTime)
    deleteUpToPosition w endPos =
      (0, w.finish h 2
        (erasures w.handler.position stop ++ infoUpdate (w.granted (w.opened + 1)) h)) := by
  intro stop erased h
  have hkeep := infoFile_erasures w.disk w.handler.position stop
  rw [← hkeep] at hinfo
  have hupdate := updateInfoFile_eq (w.finish h 1 (erasures w.handler.position stop)) hinfo
  simp only [deleteUpToPosition, World.fopenPacketFile, nextFopen_eq, hopen, if_true,
    eraseAlongRing_eq, finish_finish, finish_withHandler, finish_handler, finish_disk,
    List.nil_append]
  refine congrArg (Prod.mk 0) ?_
  -- whatever `update_info_file` returns, only its world is used
  have hworld := congrArg Prod.snd hupdate
  rw [finish_finish] at hworld
  exact hworld

end CComplete.PacketStoreSdcard
