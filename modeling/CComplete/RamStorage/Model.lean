import CComplete.Library.Machine
import CComplete.Library.Memory

/-!
# The RAM storage

Model of `ram_storage.c`. The storage is a ring of elements in the static array
`RAM_STORAGE_G_MEMORY_HEAP`; pointers are offsets in bytes from the start of that array, and the
array is a byte memory that holds the images of the packed C structure. Only `write_to` and the
number of elements say which slots are live. The counters are natural numbers with the wrap-around
of `unsigned int` written out. The memory records the bytes that `memcpy` and `memset` write; a
read does not change it. All printing is left out.
-/

set_option autoImplicit false

namespace CComplete.RamStorage

open CComplete.Library

/-! ## Elements -/

/-- `RAM_STORAGE__C_MAX_ELEMENTS_TO_STORE`. -/
def maxElementsToStore : ℕ := 5

/-- `RAM_STORAGE__C_MAX_BUFFER_LENGTH`. -/
abbrev maxBufferLength : ℕ := 5

/-- `RAM_STORAGE__T_ELEMENT`. -/
structure Element where
  time : UInt32
  bufferLength : UInt32
  buffer : Vector UInt8 maxBufferLength
deriving DecidableEq

/-- The element with all bytes zero. -/
def zeroElement : Element := ⟨0, 0, Vector.replicate maxBufferLength 0⟩

/-- The packed layout of an element: two little-endian words and the buffer. -/
def elementCodec : Codec Element where
  size := 13
  encode e := le32 e.time ++ (le32 e.bufferLength ++ e.buffer.toList)
  decode b := ⟨ofLe32 b, ofLe32 (b.drop 4), Vector.ofFn fun i => (b.drop 8).getD i 0⟩
  size_pos := by decide
  length_encode e := by
    rw [List.length_append, List.length_append, length_le32, length_le32, Vector.length_toList]
    rfl
  decode_encode e := by
    obtain ⟨time, length, buffer⟩ := e
    congr 1
    · exact ofLe32_le32_append time _
    · exact ofLe32_le32_append length _
    · ext i hi
      simp [le32]

/-- `sizeof(RAM_STORAGE__T_ELEMENT)`. -/
def sizeofElement : ℤ := 13

/-! ## Storage -/

/-- `RAM_STORAGE__T_MEMORY_STORAGE`. -/
structure MemoryStorage where
  head : ℤ
  tail : ℤ
  writeTo : ℤ
  readFrom : ℤ
  numberOfElements : ℕ
  maxNumberOfElements : ℕ
deriving DecidableEq

/-- `RAM_STORAGE_G_ram_handler` and `RAM_STORAGE_G_MEMORY_HEAP`. -/
structure Storage where
  handler : MemoryStorage
  heap : Memory

/-- The storage when the program starts: static data is zero. -/
def zeroStorage : Storage := ⟨⟨0, 0, 0, 0, 0, 0⟩, ⟨fun _ => 0, []⟩⟩

/-- Address of `RAM_STORAGE_G_MEMORY_HEAP[i]`. -/
def heapElement (i : ℕ) : ℤ := sizeofElement * (i : ℤ)

/-- `((RAM_STORAGE__T_ELEMENT*)a)->time`. -/
def timeAt (m : Memory) (a : ℤ) : UInt32 := ofLe32 (m.block a 4)

/-- The element copied from address `a`. -/
def elementAt (m : Memory) (a : ℤ) : Element := elementCodec.decode (m.block a elementCodec.size)

/-- `memcpy` of an element to address `a`. -/
def storeElement (m : Memory) (a : ℤ) (e : Element) : Memory :=
  m.copyIn a (fun i => (elementCodec.encode e).getD i 0) elementCodec.size

/-- `memset` of an element at address `a` to zero. -/
def clearElement (m : Memory) (a : ℤ) : Memory := m.copyIn a (fun _ => 0) elementCodec.size

/-- The element after `browser`, from the last to the first. The source writes this out wherever it
moves a browser forward. -/
def ascending (h : MemoryStorage) (browser : ℤ) : ℤ :=
  if browser + sizeofElement > h.tail then h.head else browser + sizeofElement

/-- `update_descending_browser`: the element before `browser`, from the first to the last. The
source also writes this out in its searches. -/
def updateDescendingBrowser (h : MemoryStorage) (browser : ℤ) : ℤ :=
  if browser - sizeofElement < h.head then h.tail else browser - sizeofElement

/-! ## Initialization and write -/

/-- `clean_heap`. -/
def cleanHeap (m : Memory) : Memory :=
  (List.range maxElementsToStore).foldl (fun m i => clearElement m (heapElement i)) m

/-- `create_memory_storage`. The index `length-1` of the tail is an `unsigned int`. -/
def createMemoryStorage (s : Storage) (length : UInt32) : ℤ × Storage :=
  if length.toNat ≤ maxElementsToStore then
    (0, { s with
      handler :=
        { head := heapElement 0
          tail := heapElement (length - 1).toNat
          writeTo := heapElement 0
          readFrom := heapElement 0
          numberOfElements := 0
          maxNumberOfElements := length.toNat } })
  else (1, s)

/-- `RAM_STORAGE_init_ram_memory_storage`. -/
def initRamMemoryStorage (s : Storage) (length : UInt32) : ℤ × Storage :=
  createMemoryStorage { s with heap := cleanHeap s.heap } length

/-- `RAM_STORAGE_write_element`. -/
def writeElement (s : Storage) (element : Element) : ℤ × Storage :=
  if s.handler.numberOfElements < s.handler.maxNumberOfElements then
    (0,
      { handler :=
          { s.handler with
            writeTo := ascending s.handler s.handler.writeTo
            numberOfElements := toUnsignedInt ((s.handler.numberOfElements : ℤ) + 1) }
        heap := storeElement s.heap s.handler.writeTo element })
  else (1, s)

/-! ## Searches -/

/-- Loop of `search_element_start_time`; `remaining` is the number of elements minus `counter`. -/
def searchStartLoop (s : Storage) (time : UInt32) : ℕ → ℕ → ℤ → Option ℤ
  | 0, _, _ => none
  | remaining + 1, counter, browser =>
      let previous := updateDescendingBrowser s.handler browser
      if timeAt s.heap browser ≥ time then
        -- the last live element has no older one to look at
        if counter + 1 = s.handler.numberOfElements then some browser
        -- is it the oldest with this time?
        else if timeAt s.heap previous ≥ time then
          searchStartLoop s time remaining (counter + 1) previous
        else some browser
      else searchStartLoop s time remaining (counter + 1) previous

/-- `search_element_start_time`. -/
def searchElementStartTime (s : Storage) (time : UInt32) : Option ℤ :=
  searchStartLoop s time s.handler.numberOfElements 0
    (updateDescendingBrowser s.handler s.handler.writeTo)

/-- `get_abs_distance_between_address`. -/
def getAbsDistanceBetweenAddress (h : MemoryStorage) (start stop : ℤ) : ℕ :=
  if stop ≥ start then toUnsignedInt (stop - start + sizeofElement)
  else
    -- a border of the ring is counted as an element on its own, on both sides
    let atStart := if start = h.head ∨ start = h.tail then sizeofElement else 0
    let atStop := if stop = h.head ∨ stop = h.tail then sizeofElement else 0
    toUnsignedInt (atStart + atStop + ((h.tail - start) + (stop - h.head)))

/-- Loop of `search_element_end_time`; `remaining` is `maxReadable` minus `counter`. -/
def searchEndLoop (s : Storage) (time : UInt32) (startElem : ℤ) (maxReadable : ℕ) :
    ℕ → ℕ → ℤ → Option ℤ
  | 0, _, _ => none
  | remaining + 1, counter, browser =>
      let next := ascending s.handler browser
      if timeAt s.heap browser ≤ time ∧ timeAt s.heap browser ≥ timeAt s.heap startElem then
        if counter + 1 = maxReadable then some browser
        -- does the next one also?
        else if timeAt s.heap next ≤ time then
          searchEndLoop s time startElem maxReadable remaining (counter + 1) next
        else some browser
      -- an element out of the range is passed over, not a reason to stop
      else searchEndLoop s time startElem maxReadable remaining (counter + 1) next

/-- `search_element_end_time`, from a start element that is not null. -/
def searchElementEndTime (s : Storage) (time : UInt32) (startElem : ℤ) : Option ℤ :=
  let lastWritten := updateDescendingBrowser s.handler s.handler.writeTo
  let maxReadable :=
    getAbsDistanceBetweenAddress s.handler startElem lastWritten / sizeofElement.toNat
  searchEndLoop s time startElem maxReadable maxReadable 0 startElem

/-- `get_number_of_elements_between_positions`. The division is by a `size_t`. -/
def getNumberOfElementsBetweenPositions (h : MemoryStorage) (start stop : ℤ) : ℕ :=
  if start > stop then
    -- the `else if` of the source: at most one border is counted
    let nb :=
      if start = h.head ∨ start = h.tail then 1 else if stop = h.head ∨ stop = h.tail then 1 else 0
    toUnsignedInt
      (nb + (toUnsignedLong ((h.tail - start) + (stop - h.head)) / toUnsignedLong sizeofElement +
        1) : ℕ)
  else toUnsignedInt (toUnsignedLong (stop - start) / toUnsignedLong sizeofElement + 1 : ℕ)

/-! ## Range read -/

/-- What `RAM_STORAGE_read_elements_between_two_dates` gives its caller: the return code,
`*read_number` and the caller's buffer. -/
structure ReadReply where
  code : ℤ
  readNumber : ℕ
  elements : ℕ → Element

/-- Copy loop of the range read: `remaining` elements from `browser` on, to the buffer from index
`i` on. -/
def copyLoop (s : Storage) : ℕ → ℕ → ℤ → (ℕ → Element) → ℕ → Element
  | 0, _, _, elements => elements
  | remaining + 1, i, browser, elements =>
      copyLoop s remaining (i + 1) (ascending s.handler browser)
        (Function.update elements i (elementAt s.heap browser))

/-- `RAM_STORAGE_read_elements_between_two_dates`. -/
def readElementsBetweenTwoDates (s : Storage) (elements : ℕ → Element)
    (maxElementToRead readNumber : ℕ) (startTime endTime : UInt32) : ReadReply :=
  match searchElementStartTime s startTime with
  | none => ⟨-1, readNumber, elements⟩
  | some firstElement =>
      match searchElementEndTime s endTime firstElement with
      | none => ⟨-2, readNumber, elements⟩
      | some lastElement =>
          let readNumber :=
            getNumberOfElementsBetweenPositions s.handler firstElement lastElement
          -- `*read_number` is assigned before the buffer is checked
          if readNumber = 0 then ⟨1, readNumber, elements⟩
          else if readNumber > maxElementToRead then ⟨-3, readNumber, elements⟩
          else ⟨0, readNumber, copyLoop s readNumber 0 firstElement elements⟩

/-! ## Delete -/

/-- Search loop of `RAM_STORAGE_delete_up_to_time`: the first and the last element to delete. -/
def searchDeleteLoop (s : Storage) (time : UInt32) : ℕ → ℕ → ℤ → Option ℤ → Option (ℤ × ℤ)
  | 0, _, _, _ => none
  | remaining + 1, counter, browser, endDelete =>
      let previous := updateDescendingBrowser s.handler browser
      if timeAt s.heap browser ≤ time then
        -- the newest element to delete is the first one met
        let endDelete := endDelete.getD browser
        if counter + 1 = s.handler.numberOfElements then some (browser, endDelete)
        -- is it the oldest with a time up to `time`?
        else if timeAt s.heap previous ≤ time then
          searchDeleteLoop s time remaining (counter + 1) previous (some endDelete)
        else some (browser, endDelete)
      else searchDeleteLoop s time remaining (counter + 1) previous endDelete

/-- Delete loop of `RAM_STORAGE_delete_up_to_time`. -/
def deleteLoop : ℕ → ℤ → Storage → Storage
  | 0, _, s => s
  | remaining + 1, browser, s =>
      deleteLoop remaining (ascending s.handler browser)
        { handler :=
            { s.handler with
              numberOfElements := toUnsignedInt ((s.handler.numberOfElements : ℤ) - 1) }
          heap := clearElement s.heap browser }

/-- `RAM_STORAGE_delete_up_to_time`. -/
def deleteUpToTime (s : Storage) (time : UInt32) : ℤ × Storage :=
  match searchDeleteLoop s time s.handler.numberOfElements 0
      (updateDescendingBrowser s.handler s.handler.writeTo) none with
  | none => (-1, s)
  | some (browser, endDelete) =>
      (0, deleteLoop (getNumberOfElementsBetweenPositions s.handler browser endDelete) browser s)

/-! ## Oldest and newest time -/

/-- Loop of `get_oldest_time`; `remaining` is the number of elements minus `counter`. -/
def oldestTimeLoop (s : Storage) : ℕ → ℤ → UInt32 → UInt32
  | 0, _, oldestTime => oldestTime
  | remaining + 1, browser, oldestTime =>
      let browser := updateDescendingBrowser s.handler browser
      oldestTimeLoop s remaining browser
        (if timeAt s.heap browser ≤ oldestTime then timeAt s.heap browser else oldestTime)

/-- `get_oldest_time`. The last written element is read first, whether there is one or not. -/
def getOldestTime (s : Storage) : UInt32 :=
  let browser := updateDescendingBrowser s.handler s.handler.writeTo
  oldestTimeLoop s (s.handler.numberOfElements - 1) browser (timeAt s.heap browser)

/-- `get_newest_time`. -/
def getNewestTime (s : Storage) : UInt32 :=
  timeAt s.heap (updateDescendingBrowser s.handler s.handler.writeTo)

/-- `RAM_STORAGE_update_with_oldest_time`: the new `*oldest_time`. -/
def updateWithOldestTime (s : Storage) : UInt32 := getOldestTime s

/-- `RAM_STORAGE_update_with_newest_time`: the new `*newest_time`. -/
def updateWithNewestTime (s : Storage) : UInt32 := getNewestTime s

/-! ## Live elements -/

/-- Address of the live element number `i`, the oldest being number 0: the live elements are the
`number_of_elements` slots that end just before `write_to`. -/
def liveAddress (h : MemoryStorage) (i : ℕ) : ℤ :=
  (updateDescendingBrowser h)^[h.numberOfElements - i] h.writeTo

/-- The live elements, oldest first. -/
def liveElements (s : Storage) : List Element :=
  (List.range s.handler.numberOfElements).map fun i =>
    elementAt s.heap (liveAddress s.handler i)

/-! ## Runs -/

/-- The calls on an initialized storage. -/
inductive Op where
  | writeElement (element : Element)
  | readElementsBetweenTwoDates (elements : ℕ → Element) (maxElementToRead readNumber : ℕ)
      (startTime endTime : UInt32)
  | deleteUpToTime (time : UInt32)

/-- What the caller of a step sees. -/
inductive Reply where
  | code (code : ℤ)
  | read (reply : ReadReply)

/-- The storage, one call at a time. -/
def system : Machine Storage Op Reply where
  step
    | s, .writeElement element =>
        ((writeElement s element).2, .code (writeElement s element).1)
    | s, .readElementsBetweenTwoDates elements maxElementToRead readNumber startTime endTime =>
        (s, .read (readElementsBetweenTwoDates s elements maxElementToRead readNumber startTime
          endTime))
    | s, .deleteUpToTime time => ((deleteUpToTime s time).2, .code (deleteUpToTime s time).1)

/-- A call of a program, initializations included. -/
inductive Call where
  | initRamMemoryStorage (length : UInt32)
  | operate (op : Op)

/-- The return code of a call. -/
def Reply.returnCode : Reply → ℤ
  | .code c => c
  | .read reply => reply.code

/-- The storage with its initializations, one call at a time. -/
def program : Machine Storage Call Reply where
  step
    | s, .initRamMemoryStorage length =>
        ((initRamMemoryStorage s length).2, .code (initRamMemoryStorage s length).1)
    | s, .operate op => system.step s op

/-- The time of the element that a call writes. -/
def Op.writtenTime : Op → Option UInt32
  | .writeElement element => some element.time
  | _ => none

/-- The call that writes an element of the given time. -/
def writeAt (time : UInt32) : Op := .writeElement ⟨time, 4, Vector.replicate maxBufferLength 1⟩

end CComplete.RamStorage
