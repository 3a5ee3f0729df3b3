import CComplete.Library.Logged
import CComplete.Library.Memory
import CComplete.PacketStoreSdcard.Outcome

/-!
# What a stored packet keeps of the caller's data

The element records the size that the caller gives, but the copy always takes the ten bytes of the
buffer. A shorter packet is read past its end, and a longer one is recorded with a size that the
buffer does not have. So a call is faithful to the packet if and only if the packet has ten bytes,
or more and is not stored (`store_faithful_iff`). The time survives in all cases.
-/

set_option autoImplicit false

namespace CComplete.PacketStoreSdcard

open CComplete.Library CComplete.Library.Logged

/-! ## The reads of the caller's data -/

namespace Accessed

/-- Loop of `_memcpy8`, for `remaining` bytes from index `i` on, with the indices of `src` that it
reads. -/
def memcpy8Loop (src : ℕ → UInt8) : ℕ → ℕ → (ℕ → UInt8) → Logged ℕ (ℕ → UInt8)
  | 0, _, dest => pure dest
  | remaining + 1, i, dest => do
      access i
      memcpy8Loop src remaining (i + 1) (Function.update dest i (src i))

/-- `PACKET_STORE_SDCARD_store_callback`, with the indices of `data_ptr` that it reads. -/
def storeCallback (N : ℕ) (w : World) (dataPtr : ℕ → UInt8) (dataSize : UInt32)
    (storageTime : ℕ → UInt8) : Logged ℕ (ℤ × World) :=
  if w.handler.tmNumber ≥ N then pure (-1, w)
  else do
    let tmBuffer ← memcpy8Loop dataPtr maxTmLength 0 fun _ => 0
    let element : Element := ⟨coarseTimeOf storageTime, dataSize, Vector.ofFn fun i => tmBuffer i⟩
    if w.handler.tmNumber = 0 then
      pure (openAndWrite
        (w.withHandler
          { w.handler with
            oldestTmPosition := w.handler.writeTo
            oldestTime := element.coarseTime })
        element)
    else if element.coarseTime < w.handler.newestTime then pure (-2, w)
    else pure (openAndWrite w element)

theorem value_memcpy8Loop (src : ℕ → UInt8) (remaining : ℕ) :
    ∀ i dest k, (memcpy8Loop src remaining i dest).value k =
      if i ≤ k ∧ k < i + remaining then src k else dest k := by
  induction remaining with
  | zero =>
    intro i dest k
    rw [memcpy8Loop, value_pure, if_neg (by omega)]
  | succ remaining ih =>
    intro i dest k
    rw [memcpy8Loop, value_bind, ih, Function.update_apply]
    by_cases hk : k = i
    · subst hk
      rw [if_neg (by omega), if_pos rfl, if_pos (by omega)]
    · rw [if_neg hk]
      exact if_congr (by omega) rfl rfl

theorem log_memcpy8Loop (src : ℕ → UInt8) (remaining : ℕ) :
    ∀ i dest, (memcpy8Loop src remaining i dest).log = List.range' i remaining := by
  induction remaining with
  | zero => exact fun _ _ => rfl
  | succ remaining ih =>
    intro i dest
    rw [memcpy8Loop, log_bind, ih, List.range'_succ]
    rfl

/-- The call with its reads is the call of the model. -/
theorem value_storeCallback (N : ℕ) (w : World) (dataPtr : ℕ → UInt8) (dataSize : UInt32)
    (storageTime : ℕ → UInt8) :
    (storeCallback N w dataPtr dataSize storageTime).value =
      PacketStoreSdcard.storeCallback N w dataPtr dataSize storageTime := by
  have hcopy : (memcpy8Loop dataPtr maxTmLength 0 fun _ => 0).value =
      memcpy8 (fun _ => 0) dataPtr maxTmLength := by
    funext k
    rw [value_memcpy8Loop, memcpy8, Nat.zero_add]
    exact if_congr (and_iff_right (Nat.zero_le k)) rfl rfl
  simp only [storeCallback, PacketStoreSdcard.storeCallback, elementToWrite, value_ite, value_bind,
    value_pure, hcopy]
  rfl

/-- A call on a store with room reads the ten first bytes, whatever the size of the packet. -/
theorem log_storeCallback {N : ℕ} {w : World} (hroom : w.handler.tmNumber < N)
    (dataPtr : ℕ → UInt8) (dataSize : UInt32) (storageTime : ℕ → UInt8) :
    (storeCallback N w dataPtr dataSize storageTime).log = List.range maxTmLength := by
  rw [storeCallback, if_neg (not_le.2 hroom), log_bind, log_memcpy8Loop, ← List.range_eq_range']
  dsimp only
  -- nothing is read once the element is built
  split
  · exact List.append_nil _
  · split <;> exact List.append_nil _

end Accessed

/-! ## The time -/

/-- The time is rebuilt from its four bytes, over the whole range of 32 bits. -/
theorem coarseTimeOf_eq {storageTime : ℕ → UInt8} {time : UInt32}
    (htime : bufferBytes storageTime 4 = le32 time) : coarseTimeOf storageTime = time := by
  have hbytes : bufferBytes storageTime 4 =
      [storageTime 0, storageTime 1, storageTime 2, storageTime 3] := rfl
  rw [hbytes, le32] at htime
  simp only [List.cons.injEq, and_true] at htime
  obtain ⟨h0, h1, h2, h3⟩ := htime
  have hlt := time.toNat_lt
  apply UInt32.toNat_inj.1
  -- in C the top byte is shifted into the sign bit of an `int`: the same modulo 2 ^ 32
  rw [coarseTimeOf, h0, h1, h2, h3]
  simp only [UInt32.toNat_add, UInt32.toNat_shiftLeft, UInt8.toNat_toUInt32, UInt8.toNat_ofNat',
    UInt32.reduceToNat, Nat.reduceMod, Nat.shiftLeft_eq]
  omega

/-! ## Faithful calls -/

/-- `get_element_in_file` at `position` gives an element with this time and this size, and the
buffer of the element has that many bytes of the caller's data. -/
def ReadsBack (s : Store) (position : ℤ) (dataPtr : ℕ → UInt8) (dataSize time : UInt32) : Prop :=
  ∀ elem,
    let r := (getElementInFile (s.begin allGranted) position elem).1
    r.1 = 0 ∧ r.2.coarseTime = time ∧ r.2.tmSize = dataSize ∧
      ∀ i, i < r.2.tmSize.toNat → r.2.tmBuffer.toList[i]? = some (dataPtr i)

/-- `store_callback` reads only the bytes that the caller passed, and if it returns 0, the packet
is in the slot it was written to. -/
def Faithful (N : ℕ) (s : Store) (granted : ℕ → Bool) (dataPtr : ℕ → UInt8) (dataSize : UInt32)
    (storageTime : ℕ → UInt8) (time : UInt32) : Prop :=
  let call := storeCallback N (s.begin granted) dataPtr dataSize storageTime
  Within (· < dataSize.toNat)
      (Accessed.storeCallback N (s.begin granted) dataPtr dataSize storageTime) ∧
    (call.1 = 0 → ReadsBack call.2.toStore s.handler.writeTo dataPtr dataSize time)

/-- The info file exists and the environment grants the calls of `fopen` that a store needs. -/
def CanStore (s : Store) (granted : ℕ → Bool) : Prop :=
  s.disk.infoFile.isSome = true ∧
    if (granted 0 && s.disk.packetFile.isSome) = true then granted 1 = true
    else granted 1 = true ∧ granted 2 = true

/-! ## A call that cannot update the info file -/

theorem updateInfoFile_missing {w : World} (hinfo : w.disk.infoFile = none) :
    (updateInfoFile w).1 = -1 := by
  simp [updateInfoFile, World.fopenInfoFile, nextFopen_eq, hinfo]

theorem writeAndUpdate_missing {w : World} (hinfo : w.disk.infoFile = none) (e : Element) :
    (writeAndUpdate w e).1 ≠ 0 := by
  have hupdate : ∀ h, (updateInfoFile
      ((w.emit (.writeElement w.handler.writeTo e)).withHandler h)).1 = -1 :=
    fun h => updateInfoFile_missing hinfo
  simp [writeAndUpdate, hupdate]

theorem openAndWrite_missing {w : World} (hinfo : w.disk.infoFile = none) (e : Element) :
    (openAndWrite w e).1 ≠ 0 := by
  have hwrite := writeAndUpdate_missing (w := w.finish w.handler 1 []) hinfo e
  have hnew := writeAndUpdate_missing (w := w.finish w.handler 2 [.truncatePacketFile]) hinfo e
  cases hopen : (w.granted w.opened && w.disk.packetFile.isSome) <;>
    cases hcreate : w.granted (w.opened + 1) <;>
    simp [openAndWrite, World.fopenPacketFile, World.fopenNewPacketFile, nextFopen_eq, hopen,
      hcreate, emit_eq, hwrite, hnew]

/-! ## A call on a store with room -/

section Call

variable {N : ℕ} {s : Store} {dataPtr : ℕ → UInt8} {dataSize : UInt32} {storageTime : ℕ → UInt8}

/-- On a store with room, the bytes read are those of the packet if and only if it fills the
buffer. -/
theorem within_storeCallback_iff {w : World} (hroom : w.handler.tmNumber < N) :
    Within (· < dataSize.toNat) (Accessed.storeCallback N w dataPtr dataSize storageTime) ↔
      maxTmLength ≤ dataSize.toNat := by
  rw [Within, Accessed.log_storeCallback hroom]
  simp only [List.mem_range]
  exact ⟨fun h => h 9 (by decide), fun h i hi => hi.trans_le h⟩

/-- The disk after the packet file was written at `position`, and maybe the info file. -/
theorem holds_written (d : Disk) (position : ℤ) (e : Element) (opened : Bool) (h : FileHandler) :
    let d' := (DiskEffect.writeElement position e :: infoUpdate opened h).foldl Disk.apply d
    d'.packetFile.isSome = true ∧ elementCodec.Holds d'.packetBytes position e := by
  intro d'
  refine ⟨?_, ?_⟩
  · exact isSome_packetFile_foldl (infoUpdate opened h) _ rfl
  · have hbytes : d'.packetBytes = elementCodec.writeAt d.packetBytes position e :=
      packetBytes_infoUpdate (d.apply (.writeElement position e)) opened h
    rw [hbytes]
    exact Codec.holds_writeAt _ _ _

/-- A packet that is not refused is stored if and only if it can be, and the element is then in the
packet file. -/
theorem storeCallback_spec (granted : ℕ → Bool)
    (hacc : s.handler.Accepts N (elementToWrite dataPtr dataSize storageTime)) :
    let call := storeCallback N (s.begin granted) dataPtr dataSize storageTime
    (call.1 = 0 ↔ CanStore s granted) ∧
      (call.1 = 0 → call.2.disk.packetFile.isSome = true ∧
        elementCodec.Holds call.2.disk.packetBytes s.handler.writeTo
          (elementToWrite dataPtr dataSize storageTime)) := by
  intro call
  cases hinfo : s.disk.infoFile with
  | none =>
    have hcode : call.1 ≠ 0 := by
      simp only [call]
      rw [storeCallback_accepted N dataPtr dataSize storageTime (s.begin granted) hacc]
      exact openAndWrite_missing hinfo _
    refine ⟨iff_of_false hcode fun h => ?_, fun hzero => absurd hzero hcode⟩
    rw [CanStore, hinfo] at h
    exact absurd h.1 Bool.false_ne_true
  | some image =>
    have hsome : s.disk.infoFile.isSome = true := by rw [hinfo]; rfl
    rw [CanStore, and_iff_right hsome]
    -- the packet file is opened, or created, or neither
    rcases storeCallback_cases N dataPtr dataSize storageTime s granted hsome with
      ⟨hno, -⟩ | ⟨-, hopen, hcall⟩ | ⟨-, hclosed, hcreate, hcall⟩ | ⟨-, hclosed, hcreate, hcall⟩
    · exact absurd hacc hno
    · rw [show call = _ from hcall, if_pos hopen]
      refine ⟨?_, fun _ => holds_written _ _ _ _ _⟩
      show (if granted 1 = true then (0 : ℤ) else -2) = 0 ↔ granted 1 = true
      cases granted 1 <;> decide
    · rw [show call = _ from hcall, hclosed, if_neg Bool.false_ne_true, hcreate,
        and_iff_right rfl]
      refine ⟨?_, fun _ => holds_written _ _ _ _ _⟩
      show (if granted 2 = true then (0 : ℤ) else -2) = 0 ↔ granted 2 = true
      cases granted 2 <;> decide
    · have hcode : (1 : ℤ) ≠ 0 := by decide
      rw [show call = _ from hcall, hclosed, if_neg Bool.false_ne_true, hcreate]
      exact ⟨iff_of_false hcode fun h => absurd h.1 Bool.false_ne_true,
        fun hone => absurd hone hcode⟩

theorem getElementInFile_of_holds {position : ℤ} {e : Element}
    (hfile : s.disk.packetFile.isSome = true)
    (h : elementCodec.Holds s.disk.packetBytes position e) (elem : Element) :
    (getElementInFile (s.begin allGranted) position elem).1 = (0, e) := by
  have hread := h.readAt_eq elem
  simp [getElementInFile, World.fopenPacketFile, nextFopen_eq, Store.begin, allGranted, hfile,
    hread]

/-- The element that was written has the data of a packet that fits the buffer, and no more. -/
theorem readsBack_iff {time : UInt32} {position : ℤ} {s : Store}
    (htime : bufferBytes storageTime 4 = le32 time) (hfile : s.disk.packetFile.isSome = true)
    (h : elementCodec.Holds s.disk.packetBytes position
      (elementToWrite dataPtr dataSize storageTime)) :
    ReadsBack s position dataPtr dataSize time ↔ dataSize.toNat ≤ maxTmLength := by
  have hbuffer : ∀ i, (elementToWrite dataPtr dataSize storageTime).tmBuffer.toList[i]? =
      if i < maxTmLength then some (dataPtr i) else none := by
    intro i
    simp [elementToWrite, memcpy8]
  have hcoarse : (elementToWrite dataPtr dataSize storageTime).coarseTime = time :=
    coarseTimeOf_eq htime
  have hsize : (elementToWrite dataPtr dataSize storageTime).tmSize = dataSize := rfl
  constructor
  · intro hback
    obtain ⟨-, -, -, hdata⟩ := hback nullElement
    rw [getElementInFile_of_holds hfile h, hsize] at hdata
    -- a longer packet would have a byte after the buffer
    refine Nat.le_of_not_lt fun hlt => ?_
    have hend := hdata maxTmLength hlt
    rw [hbuffer, if_neg (lt_irrefl _)] at hend
    cases hend
  · intro hle elem
    rw [getElementInFile_of_holds hfile h]
    refine ⟨rfl, hcoarse, hsize, fun i hi => ?_⟩
    rw [hbuffer, if_pos (hi.trans_le hle)]

end Call

/-! ## Fidelity -/

/-- For every store with room and every packet whose time is not older than the newest one: the call
is faithful to the packet if and only if the packet has ten bytes, or more and cannot be stored. -/
theorem store_faithful_iff (N : ℕ) (s : Store) (granted : ℕ → Bool) (dataPtr : ℕ → UInt8)
    (dataSize : UInt32) (storageTime : ℕ → UInt8) (time : UInt32)
    (hroom : s.handler.tmNumber < N) (htime : bufferBytes storageTime 4 = le32 time)
    (hnewest : s.handler.tmNumber = 0 ∨ s.handler.newestTime ≤ time) :
    Faithful N s granted dataPtr dataSize storageTime time ↔
      dataSize.toNat = maxTmLength ∨ (maxTmLength < dataSize.toNat ∧ ¬ CanStore s granted) := by
  have hacc : s.handler.Accepts N (elementToWrite dataPtr dataSize storageTime) := by
    refine ⟨hroom, ?_⟩
    rw [show (elementToWrite dataPtr dataSize storageTime).coarseTime = time from
      coarseTimeOf_eq htime]
    exact hnewest
  obtain ⟨hzero, hholds⟩ := storeCallback_spec granted hacc
  -- the read back decides only if the packet was stored
  have hparts : Faithful N s granted dataPtr dataSize storageTime time ↔
      maxTmLength ≤ dataSize.toNat ∧ (CanStore s granted → dataSize.toNat ≤ maxTmLength) := by
    refine and_congr (within_storeCallback_iff hroom) ?_
    constructor
    · intro hback hcan
      obtain ⟨hfile, hin⟩ := hholds (hzero.2 hcan)
      exact (readsBack_iff htime hfile hin).1 (hback (hzero.2 hcan))
    · intro hle hcode
      obtain ⟨hfile, hin⟩ := hholds hcode
      exact (readsBack_iff htime hfile hin).2 (hle (hzero.1 hcode))
  rw [hparts]
  by_cases hcan : CanStore s granted
  · simp only [hcan, true_imp_iff, not_true_eq_false, and_false, or_false]
    omega
  · simp only [hcan, false_imp_iff, not_false_eq_true, and_true]
    omega

/-- A packet of ten bytes, with a time whose top bit is set. -/
theorem store_faithful_iff_ten_bytes :
    Faithful maxTmNumber (initialStore maxTmNumber ⟨none, none⟩) allGranted
      (fun i => UInt8.ofNat i) 10 (fun i => (le32 4278190083).getD i 0) 4278190083 :=
  (store_faithful_iff maxTmNumber (initialStore maxTmNumber ⟨none, none⟩) allGranted
    (fun i => UInt8.ofNat i) 10 (fun i => (le32 4278190083).getD i 0) 4278190083 (by decide)
    (by decide) (by decide)).2 (Or.inl (by decide))

/-- A packet of three bytes is read past its end, and one of eleven bytes is stored without its last
byte. -/
theorem store_not_faithful :
    ¬ Faithful maxTmNumber (initialStore maxTmNumber ⟨none, none⟩) allGranted
        (fun i => UInt8.ofNat i) 3 (fun i => (le32 5).getD i 0) 5 ∧
      ¬ Faithful maxTmNumber (initialStore maxTmNumber ⟨none, none⟩) allGranted
        (fun i => UInt8.ofNat i) 11 (fun i => (le32 5).getD i 0) 5 := by
  refine ⟨fun h => ?_, fun h => ?_⟩
  · exact absurd ((within_storeCallback_iff (by decide)).1 h.1) (by decide)
  · obtain ⟨-, -, -, hdata⟩ := h.2 (by decide +kernel) nullElement
    exact absurd (hdata 10 (by decide +kernel)) (by decide +kernel)

end CComplete.PacketStoreSdcard
