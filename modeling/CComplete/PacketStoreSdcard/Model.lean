import CComplete.Library.Bytes
import CComplete.Library.Machine
import Mathlib.Data.List.ReduceOption
import Mathlib.Data.PNat.Defs
import Mathlib.Logic.Function.Iterate

/-!
# The SD-card packet store

Model of `packet_store_sdcard.c`. The store keeps packets in a ring of element slots in the file
`packet_store.bin`, and the handler of that ring both in memory and in `info.bin`. The packet file
is a byte string; an element is the image of the packed C structure. File positions (`long`) are
integers, and `tm_number` (`unsigned int`) wraps at `2 ^ 32`. The capacity constant
`PACKET_STORE_SDCARD__C_MAX_TM_NUMBER` is a parameter `N`.

A call runs in a `World`: the environment decides for each `fopen` whether it is granted, and the
changes of the disk are recorded one by one. Seeks, reads and writes on an opened file succeed. The
unused argument `packet_store_id` and all printing are left out. So is the `memset` at the end of
`PACKET_STORE_SDCARD_init`: it writes zeros over the zeros of `null_element`, which is `const`, so C
leaves undefined what it does, and the model takes it to return.
-/

set_option autoImplicit false

namespace CComplete.PacketStoreSdcard

open CComplete.Library

/-! ## Elements and handler -/

/-- `PACKET_STORE_SDCARD__C_MAX_TM_LENGTH`. -/
abbrev maxTmLength : ℕ := 10

/-- `PACKET_STORE_SDCARD__C_MAX_TM_NUMBER`. -/
def maxTmNumber : ℕ+ := 5

/-- `PACKET_STORE_SDCARD__T_ELEMENT`. -/
structure Element where
  coarseTime : UInt32
  tmSize : UInt32
  tmBuffer : Vector UInt8 maxTmLength
deriving DecidableEq

/-- `null_element`. -/
def nullElement : Element := ⟨0, 0, Vector.replicate maxTmLength 0⟩

/-- The packed layout of an element: two little-endian words and the buffer. -/
def elementCodec : Codec Element where
  size := 18
  encode e := le32 e.coarseTime ++ (le32 e.tmSize ++ e.tmBuffer.toList)
  decode b := ⟨ofLe32 b, ofLe32 (b.drop 4), Vector.ofFn fun i => (b.drop 8).getD i 0⟩
  size_pos := by decide
  length_encode e := by
    rw [List.length_append, List.length_append, length_le32, length_le32, Vector.length_toList]
    rfl
  decode_encode e := by
    obtain ⟨time, size, buffer⟩ := e
    congr 1
    · exact ofLe32_le32_append time _
    · exact ofLe32_le32_append size _
    · ext i hi
      simp [le32]

/-- `sizeof(PACKET_STORE_SDCARD__T_ELEMENT)`. -/
def sizeofElement : ℤ := 18

/-- `PACKET_STORE_SDCARD__T_FILE_HANDLER`. -/
structure FileHandler where
  head : ℤ
  tail : ℤ
  writeTo : ℤ
  tmNumber : ℕ
  oldestTmPosition : ℤ
  oldestTime : UInt32
  newestTime : UInt32
deriving DecidableEq

/-- The handler of a process that has not called the store yet. -/
def FileHandler.zero : FileHandler := ⟨0, 0, 0, 0, 0, 0, 0⟩

/-! ## Disk and environment -/

/-- The two files of the store; `none` when a file does not exist. The info file is always written
and read as one handler image. -/
structure Disk where
  packetFile : Option Bytes
  infoFile : Option FileHandler
deriving DecidableEq

/-- Contents of the packet file. -/
def Disk.packetBytes (d : Disk) : Bytes := d.packetFile.getD []

/-- One change of the disk: `fopen` of the packet file with `"w"`, one `fwrite` of an element, one
`fwrite` of the handler. -/
inductive DiskEffect where
  | truncatePacketFile
  | writeElement (position : ℤ) (element : Element)
  | writeHandler (handler : FileHandler)
deriving DecidableEq

/-- The disk after one change. -/
def Disk.apply (d : Disk) : DiskEffect → Disk
  | .truncatePacketFile => { d with packetFile := some [] }
  | .writeElement position element =>
      { d with packetFile := some (elementCodec.writeAt d.packetBytes position element) }
  | .writeHandler handler => { d with infoFile := some handler }

/-- What lasts between calls: the handler in memory and the disk. -/
structure Store where
  handler : FileHandler
  disk : Disk

/-- A store during a call. `granted i` is the environment's answer to the `fopen` number `i` of the
call, `opened` counts the ones made so far and `effects` records the changes of the disk. -/
structure World extends Store where
  granted : ℕ → Bool
  opened : ℕ
  effects : List DiskEffect

/-- The world in which a call starts. -/
def Store.begin (s : Store) (granted : ℕ → Bool) : World :=
  { s with granted := granted, opened := 0, effects := [] }

/-- The environment's answer to the next `fopen`. -/
def World.nextFopen (w : World) : Bool × World :=
  (w.granted w.opened, { w with opened := w.opened + 1 })

/-- The world after one change of the disk. -/
def World.emit (w : World) (e : DiskEffect) : World :=
  { w with disk := w.disk.apply e, effects := w.effects ++ [e] }

/-- `fopen` of the packet file with `"r"` or `"r+"`. -/
def World.fopenPacketFile (w : World) : Bool × World :=
  let r := w.nextFopen
  (r.1 && w.disk.packetFile.isSome, r.2)

/-- `fopen` of the packet file with `"w"`. -/
def World.fopenNewPacketFile (w : World) : Bool × World :=
  let r := w.nextFopen
  if r.1 then (true, r.2.emit .truncatePacketFile) else (false, r.2)

/-- `fopen` of the info file with `"r+"`. -/
def World.fopenInfoFile (w : World) : Bool × World :=
  let r := w.nextFopen
  (r.1 && w.disk.infoFile.isSome, r.2)

/-- The world with another handler. -/
def World.withHandler (w : World) (h : FileHandler) : World := { w with handler := h }

/-! ## Cursors -/

/-- `update_browser_ascending`. -/
def updateBrowserAscending (h : FileHandler) (browser : ℤ) : ℤ :=
  if browser + sizeofElement > h.tail then h.head else browser + sizeofElement

/-- `update_browser_descending`. -/
def updateBrowserDescending (h : FileHandler) (browser : ℤ) : ℤ :=
  if browser - sizeofElement < h.head then h.tail else browser - sizeofElement

/-- `get_number_of_elements_between_two_position`, as the `unsigned int` its callers assign it to.
The division is by a `size_t`, so the difference is converted to `unsigned long`. -/
def getNumberOfElementsBetweenTwoPosition (h : FileHandler) (start stop : ℤ) : ℕ :=
  if stop ≥ start then
    toUnsignedInt (toUnsignedLong (stop - start) / toUnsignedLong sizeofElement + 1 : ℕ)
  else
    -- the step from the tail to the head is not counted
    toUnsignedInt
      (toUnsignedLong ((h.tail - start) + (stop - h.head)) / toUnsignedLong sizeofElement + 1 : ℕ)

/-! ## Initialization and store -/

/-- `update_info_file`. -/
def updateInfoFile (w : World) : ℤ × World :=
  let r := w.fopenInfoFile
  if r.1 then (0, r.2.emit (.writeHandler w.handler)) else (-1, r.2)

/-- `PACKET_STORE_SDCARD_init` with capacity `N`. -/
def init (N : ℕ) (w : World) : ℤ × World :=
  let h := { w.handler with head := 0, tail := 0 + ((N : ℤ) - 1) * sizeofElement }
  match w.disk.infoFile with
  | none =>
      -- first use; `newest_time` is not set
      let h := { h with writeTo := h.head, tmNumber := 0, oldestTmPosition := 0, oldestTime := 0 }
      let r := (w.withHandler h).nextFopen
      if r.1 then (0, r.2.emit (.writeHandler h)) else (-1, r.2)
  | some image =>
      -- the image also overwrites the head and the tail just set
      let r := (w.withHandler h).nextFopen
      if r.1 then (0, r.2.withHandler image) else (-1, r.2)

/-- `_memcpy8`: the destination after `dest[i] = src[i]` for `i < n`. -/
def memcpy8 (dest src : ℕ → UInt8) (n : ℕ) : ℕ → UInt8 := fun i => if i < n then src i else dest i

/-- The `coarse_time` of the four time bytes. -/
def coarseTimeOf (storageTime : ℕ → UInt8) : UInt32 :=
  (storageTime 0).toUInt32 + ((storageTime 1).toUInt32 <<< 8) +
    ((storageTime 2).toUInt32 <<< 16) + ((storageTime 3).toUInt32 <<< 24)

/-- The `element_to_write` that `PACKET_STORE_SDCARD_store_callback` builds from its arguments. -/
def elementToWrite (dataPtr : ℕ → UInt8) (dataSize : UInt32) (storageTime : ℕ → UInt8) :
    Element where
  coarseTime := coarseTimeOf storageTime
  -- the copy below always takes `maxTmLength` bytes, whatever `dataSize` says
  tmSize := dataSize
  tmBuffer := Vector.ofFn fun i => memcpy8 (fun _ => 0) dataPtr maxTmLength i

/-- End of `PACKET_STORE_SDCARD_store_callback`, with the packet file open: writes the element and
updates the handler and the info file. -/
def writeAndUpdate (w : World) (element : Element) : ℤ × World :=
  let w := w.emit (.writeElement w.handler.writeTo element)
  let w := w.withHandler
    { w.handler with
      writeTo := updateBrowserAscending w.handler w.handler.writeTo
      tmNumber := toUnsignedInt (w.handler.tmNumber + 1 : ℕ)
      newestTime := element.coarseTime }
  -- the packet is stored and counted even if the info file cannot be opened
  let r := updateInfoFile w
  if r.1 ≠ 0 then (-2, r.2) else (0, r.2)

/-- Middle of `PACKET_STORE_SDCARD_store_callback`: opens the packet file, or creates it. -/
def openAndWrite (w : World) (element : Element) : ℤ × World :=
  let r := w.fopenPacketFile
  if r.1 then writeAndUpdate r.2 element
  else
    -- any refusal of `"r+"` is taken for a missing file, and `"w"` truncates an existing one
    let r := r.2.fopenNewPacketFile
    if r.1 then writeAndUpdate r.2 element else (1, r.2)

/-- `PACKET_STORE_SDCARD_store_callback` with capacity `N`. -/
def storeCallback (N : ℕ) (w : World) (dataPtr : ℕ → UInt8) (dataSize : UInt32)
    (storageTime : ℕ → UInt8) : ℤ × World :=
  if w.handler.tmNumber ≥ N then (-1, w)
  else
    let element := elementToWrite dataPtr dataSize storageTime
    if w.handler.tmNumber = 0 then
      -- the first packet is the oldest; the handler is set before any file is opened
      openAndWrite
        (w.withHandler
          { w.handler with
            oldestTmPosition := w.handler.writeTo
            oldestTime := element.coarseTime })
        element
    else if element.coarseTime < w.handler.newestTime then (-2, w)
    else openAndWrite w element

/-! ## Searches -/

/-- Loop of `search_for_start_time_position_in_file`; `i` counts the elements passed. -/
def searchStartLoop (h : FileHandler) (f : Bytes) (startTime : UInt32) :
    ℕ → ℕ → ℤ → UInt32 → Option ℤ
  | 0, _, _, _ => none
  | remaining + 1, i, browser, tmpTime =>
      let tmpTime := wordCodec.readAt f browser tmpTime
      -- the position returned is not `browser`: it does not wrap at the tail
      if tmpTime ≥ startTime then some (h.oldestTmPosition + (i : ℤ) * sizeofElement)
      else searchStartLoop h f startTime remaining (i + 1) (updateBrowserAscending h browser) tmpTime

/-- `search_for_start_time_position_in_file`: the position, or the error code. -/
def searchForStartTimePositionInFile (w : World) (startTime : UInt32) : Except ℤ ℤ × World :=
  let r := w.fopenPacketFile
  if r.1 then
    match searchStartLoop w.handler w.disk.packetBytes startTime w.handler.tmNumber 0
        w.handler.oldestTmPosition 0 with
    | some position => (.ok position, r.2)
    | none => (.error 1, r.2)
  else (.error (-1), r.2)

/-- Loop of `search_for_end_time_position_in_file`. -/
def searchEndLoop (h : FileHandler) (f : Bytes) (endTm : UInt32) : ℕ → ℤ → UInt32 → Option ℤ
  | 0, _, _ => none
  | remaining + 1, browser, tmpTime =>
      let browser := updateBrowserDescending h browser
      let tmpTime := wordCodec.readAt f browser tmpTime
      if tmpTime ≤ endTm then some browser else searchEndLoop h f endTm remaining browser tmpTime

/-- `search_for_end_time_position_in_file`: the position, or the error code. -/
def searchForEndTimePositionInFile (w : World) (endTm : UInt32) : Except ℤ ℤ × World :=
  let r := w.fopenPacketFile
  if r.1 then
    -- from the newest packet backwards
    match searchEndLoop w.handler w.disk.packetBytes endTm w.handler.tmNumber w.handler.writeTo 0
        with
    | some position => (.ok position, r.2)
    | none => (.error 1, r.2)
  else (.error (-1), r.2)

/-! ## Range read -/

/-- What `PACKET_STORE_SDCARD_read_elements_between_two_dates` gives its caller: the return code,
`*read_number` and the caller's buffer. -/
structure ReadReply where
  code : ℤ
  readNumber : ℕ
  elements : ℕ → Element

/-- Copy loop of the range read: `remaining` elements from `browser` on, to the buffer from index
`i` on. -/
def copyLoop (h : FileHandler) (f : Bytes) : ℕ → ℕ → ℤ → (ℕ → Element) → ℕ → Element
  | 0, _, _, elements => elements
  | remaining + 1, i, browser, elements =>
      copyLoop h f remaining (i + 1) (updateBrowserAscending h browser)
        (Function.update elements i (elementCodec.readAt f browser (elements i)))

/-- The three branches of the range read that copy a counted range: checks the count against the
buffer, opens the file and copies `readNumber` elements from `startPos` on. -/
def copyRange (w : World) (elements : ℕ → Element) (maxElementToRead readNumber : ℕ)
    (startPos : ℤ) : ReadReply × World :=
  if readNumber > maxElementToRead then (⟨-1, readNumber, elements⟩, w)
  else
    let r := w.fopenPacketFile
    if r.1 then
      (⟨0, readNumber, copyLoop w.handler w.disk.packetBytes readNumber 0 startPos elements⟩, r.2)
    else (⟨1, readNumber, elements⟩, r.2)

/-- `PACKET_STORE_SDCARD_read_elements_between_two_dates`. -/
def readElementsBetweenTwoDates (w : World) (elements : ℕ → Element) (maxElementToRead : ℕ)
    (readNumber : ℕ) (startTime endTime : UInt32) : ReadReply × World :=
  let h := w.handler
  if startTime ≤ h.oldestTime then
    let startPos := h.oldestTmPosition
    if endTime ≥ h.newestTime then
      -- dump all
      if h.tmNumber > maxElementToRead then (⟨-1, readNumber, elements⟩, w)
      else
        let r := w.fopenPacketFile
        if r.1 then
          (⟨0, h.tmNumber,
            copyLoop h w.disk.packetBytes h.tmNumber 0 h.oldestTmPosition elements⟩, r.2)
        else (⟨1, readNumber, elements⟩, r.2)
    else
      -- from the oldest up to the end time
      match searchForEndTimePositionInFile w endTime with
      | (.error _, w) => (⟨2, readNumber, elements⟩, w)
      | (.ok endPos, w) =>
          copyRange w elements maxElementToRead
            (getNumberOfElementsBetweenTwoPosition h startPos endPos) startPos
  else
    match searchForStartTimePositionInFile w startTime with
    | (.error _, w) => (⟨2, readNumber, elements⟩, w)
    | (.ok startPos, w) =>
        if endTime ≥ h.newestTime then
          -- up to the last added
          let endPos := updateBrowserDescending h h.writeTo
          copyRange w elements maxElementToRead
            (getNumberOfElementsBetweenTwoPosition h startPos endPos) startPos
        else
          match searchForEndTimePositionInFile w endTime with
          | (.error _, w) => (⟨2, readNumber, elements⟩, w)
          | (.ok endPos, w) =>
              copyRange w elements maxElementToRead
                (getNumberOfElementsBetweenTwoPosition h startPos endPos) startPos

/-! ## Delete -/

/-- Erase loop of the delete-all branch: one seek, then `remaining` null elements in a row. -/
def eraseSequentially : ℕ → ℤ → World → World
  | 0, _, w => w
  | remaining + 1, position, w =>
      eraseSequentially remaining (position + sizeofElement)
        (w.emit (.writeElement position nullElement))

/-- Erase loop of the partial delete: seeks to each element; gives the final cursor. -/
def eraseAlongRing : ℕ → ℤ → World → ℤ × World
  | 0, browser, w => (browser, w)
  | remaining + 1, browser, w =>
      eraseAlongRing remaining (updateBrowserAscending w.handler browser)
        (w.emit (.writeElement browser nullElement))

/-- Delete-all branch of `PACKET_STORE_SDCARD_delete_up_to_time`. -/
def deleteAll (w : World) : ℤ × World :=
  let r := w.fopenPacketFile
  if r.1 then
    -- the writes do not wrap, so they may run past the tail
    let w := eraseSequentially w.handler.tmNumber w.handler.oldestTmPosition r.2
    let w := w.withHandler
      { w.handler with
        writeTo := 0
        tmNumber := 0
        oldestTmPosition := 0
        oldestTime := 0
        newestTime := 0 }
    -- the result of `update_info_file` is ignored
    (0, (updateInfoFile w).2)
  else (1, r.2)

/-- Partial branch of `PACKET_STORE_SDCARD_delete_up_to_time`, with the end position found. -/
def deleteUpToPosition (w : World) (endPos : ℤ) : ℤ × World :=
  let r := w.fopenPacketFile
  if r.1 then
    let stop := getNumberOfElementsBetweenTwoPosition w.handler w.handler.oldestTmPosition endPos
    -- the handler is updated only once every packet up to `endPos` is erased
    let e := eraseAlongRing stop w.handler.oldestTmPosition r.2
    let w := e.2
    let w := w.withHandler
      { w.handler with
        tmNumber := toUnsignedInt (w.handler.tmNumber - stop)
        oldestTmPosition := e.1
        -- read back from the file; `newest_time` stays
        oldestTime := wordCodec.readAt w.disk.packetBytes e.1 w.handler.oldestTime }
    (0, (updateInfoFile w).2)
  else (1, r.2)

/-- `PACKET_STORE_SDCARD_delete_up_to_time`. -/
def deleteUpToTime (w : World) (time : UInt32) : ℤ × World :=
  if time ≥ w.handler.newestTime then deleteAll w
  else
    match searchForEndTimePositionInFile w time with
    | (.error _, w) => (2, w)
    | (.ok endPos, w) => deleteUpToPosition w endPos

/-! ## One element -/

/-- `get_element_in_file`: the code and the new `*elem`. -/
def getElementInFile (w : World) (position : ℤ) (elem : Element) : (ℤ × Element) × World :=
  let r := w.fopenPacketFile
  if r.1 then ((0, elementCodec.readAt w.disk.packetBytes position elem), r.2)
  else ((-1, elem), r.2)

/-! ## Live packets -/

/-- File position of the packet number `i`, counted from the oldest with wrap-around. -/
def FileHandler.position (h : FileHandler) (i : ℕ) : ℤ :=
  (updateBrowserAscending h)^[i] h.oldestTmPosition

/-- The `tm_number` file slots from `oldest_tm_position` on; `none` where the file ends. -/
def liveSlots (s : Store) : List (Option Element) :=
  (List.range s.handler.tmNumber).map fun i =>
    elementCodec.read? s.disk.packetBytes (s.handler.position i)

/-- The live packets, in the order they were stored. -/
def livePackets (s : Store) : List Element := (liveSlots s).reduceOption

/-! ## Runs -/

/-- One step of the system: a call on the store, or a restart, which is a fresh process running
`init` on the files left behind. -/
inductive Op where
  | storeCallback (dataPtr : ℕ → UInt8) (dataSize : UInt32) (storageTime : ℕ → UInt8)
  | readElementsBetweenTwoDates (elements : ℕ → Element) (maxElementToRead readNumber : ℕ)
      (startTime endTime : UInt32)
  | deleteUpToTime (time : UInt32)
  | restart

/-- What the caller of a step sees. -/
inductive Reply where
  | code (code : ℤ)
  | read (reply : ReadReply)

/-- A step with the environment's answers to its `fopen` calls. -/
def runOp (N : ℕ) (s : Store) (granted : ℕ → Bool) : Op → Reply × World
  | .storeCallback dataPtr dataSize storageTime =>
      let r := storeCallback N (s.begin granted) dataPtr dataSize storageTime
      (.code r.1, r.2)
  | .readElementsBetweenTwoDates elements maxElementToRead readNumber startTime endTime =>
      let r := readElementsBetweenTwoDates (s.begin granted) elements maxElementToRead readNumber
        startTime endTime
      (.read r.1, r.2)
  | .deleteUpToTime time =>
      let r := deleteUpToTime (s.begin granted) time
      (.code r.1, r.2)
  | .restart =>
      -- the handler in memory is lost, the disk is not
      let r := init N (Store.begin ⟨FileHandler.zero, s.disk⟩ granted)
      (.code r.1, r.2)

/-- The environment that grants every `fopen`. -/
def allGranted : ℕ → Bool := fun _ => true

/-- The store in an environment that grants every `fopen`. -/
def system (N : ℕ) : Machine Store Op Reply where
  step s op := ((runOp N s allGranted op).2.toStore, (runOp N s allGranted op).1)

/-- The store after `init` in a fresh process on the disk `d`. -/
def initialStore (N : ℕ) (d : Disk) : Store :=
  (init N (Store.begin ⟨FileHandler.zero, d⟩ allGranted)).2.toStore

/-- The call that stores a packet of the given time, with a buffer full of that byte. -/
def storeAt (time : UInt8) : Op :=
  .storeCallback (fun _ => time) 10 fun i => if i = 0 then time else 0

end CComplete.PacketStoreSdcard
