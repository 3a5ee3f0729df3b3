import CComplete.Library.Fifo
import CComplete.Library.Memory

/-!
# The static queue

Model of `queue.c`. A `QUEUE` holds two cursors into the static array `queue_memory_area`; pointers
are offsets from the start of that array. `write_to` is the next free slot and `read_from` is the
slot before the oldest message. The sizes and the message counter are 32-bit `unsigned int`s, and
the byte products of `create_queue` are 32-bit products. The `ASSERT`s only print.
-/

set_option autoImplicit false

namespace CComplete.StaticQueue

open CComplete.Library

/-- `MAX_QUEUE_LENGTH`, the size in bytes of `queue_memory_area`. -/
def maxQueueLength : UInt32 := 100

/-- Address of the static array `queue_memory_area`. Every queue is created on it. -/
def queueMemoryArea : ℤ := 0

/-- `QUEUE`. -/
structure Queue where
  head : ℤ
  tail : ℤ
  writeTo : ℤ
  readFrom : ℤ
  length : UInt32
  itemSize : UInt32
  waitingMessages : UInt32
deriving DecidableEq

/-- A `QUEUE` object of static storage, before any call. -/
def Queue.zero : Queue := ⟨0, 0, 0, 0, 0, 0, 0⟩

/-- `create_queue`: the error code and the queue object. -/
def createQueue (queueToCreate : Queue) (length itemSize : UInt32) : ℤ × Queue :=
  -- an object that already has a length is left as it is
  if queueToCreate.length ≠ 0 then (1, queueToCreate)
  else if 0 < length then
    -- a 32-bit product, which may wrap
    let sizeInBytes := length * itemSize
    if sizeInBytes < maxQueueLength then
      if sizeInBytes ≠ 0 then
        (0, { head := queueMemoryArea
              tail := queueMemoryArea + (length * itemSize).toNat
              writeTo := queueMemoryArea
              readFrom := queueMemoryArea + ((length - 1) * itemSize).toNat
              length := length
              itemSize := itemSize
              waitingMessages := 0 })
      else (-3, queueToCreate)
    else (-2, queueToCreate)
  else (-1, queueToCreate)

/-- The cursor moved on by one item, from the end of the ring to its head. -/
def Queue.advance (q : Queue) (cursor : ℤ) : ℤ :=
  if cursor + q.itemSize.toNat ≥ q.tail then q.head else cursor + q.itemSize.toNat

/-- `queue_send`: the error code, the queue and the memory. -/
def queueSend (q : Queue) (mem : Memory) (pItem : ℕ → UInt8) : ℤ × Queue × Memory :=
  if q.waitingMessages < q.length then
    (0, { q with writeTo := q.advance q.writeTo, waitingMessages := q.waitingMessages + 1 },
      mem.copyIn q.writeTo pItem q.itemSize.toNat)
  else (-1, q, mem)

/-- `queue_receive`: the error code, the queue, the memory and the caller's buffer. -/
def queueReceive (q : Queue) (mem : Memory) (pBuffer : ℕ → UInt8) :
    ℤ × Queue × Memory × (ℕ → UInt8) :=
  if q.waitingMessages > 0 then
    -- the cursor moves before the copy, whereas `queue_send` copies first
    let readFrom := q.advance q.readFrom
    (0, { q with readFrom := readFrom, waitingMessages := q.waitingMessages - 1 },
      mem.copyOut readFrom pBuffer q.itemSize.toNat)
  else (-1, q, mem, pBuffer)

/-- Loop of `print_queue`: the start addresses of the messages it prints. -/
def printLoop (q : Queue) : ℕ → ℤ → List ℤ
  | 0, _ => []
  | n + 1, address =>
      let address := if address ≥ q.tail then q.head else address
      address :: printLoop q n (address + q.itemSize.toNat)

/-- `print_queue`: the start addresses of the waiting messages, oldest first. -/
def printQueue (q : Queue) : List ℤ :=
  printLoop q q.waitingMessages.toNat (q.readFrom + q.itemSize.toNat)

/-! ## Calls -/

/-- A call on a queue, with the caller's buffer. -/
inductive Call where
  | queueSend (pItem : ℕ → UInt8)
  | queueReceive (pBuffer : ℕ → UInt8)

/-- What the caller sees: the error code, and the buffer of a receive. -/
inductive Reply where
  | sent (code : ℤ)
  | received (code : ℤ) (buffer : ℕ → UInt8)

/-- The calls on one queue and the memory area. -/
def calls : Machine (Queue × Memory) Call Reply where
  step
    | (q, mem), .queueSend pItem =>
        let r := queueSend q mem pItem
        (r.2, .sent r.1)
    | (q, mem), .queueReceive pBuffer =>
        let r := queueReceive q mem pBuffer
        ((r.2.1, r.2.2.1), .received r.1 r.2.2.2)

/-- The call as a FIFO input: the item is the first `n` bytes at `pItem`. -/
def Call.toFifo (n : ℕ) : Call → FifoIn Bytes
  | .queueSend pItem => .send (bufferBytes pItem n)
  | .queueReceive _ => .receive

/-- The reply as a FIFO output: the item is the first `n` bytes of the buffer. -/
def Reply.toFifo (n : ℕ) : Reply → FifoOut Bytes
  | .sent code => .sent (code = 0)
  | .received code buffer => .received (if code = 0 then some (bufferBytes buffer n) else none)

end CComplete.StaticQueue
