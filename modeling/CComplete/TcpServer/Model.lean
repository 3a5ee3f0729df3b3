import CComplete.StaticQueue.Model

/-!
# The TCP server thread

Model of the reading loop of `tcp_server.c`, from the accepted connection on. A `read` on the
socket gives -1 or the bytes that arrived, none of them when the client is lost; the output queue
is the communication queue, from which the other thread receives. What is printed is left out,
except for the number of bytes that the loop asks `print_array_bytes` for. After a failed `read`
these are 4294967295, more than the buffer has, and they are printed before `queue_send` is called:
C leaves undefined what then happens, and the turn has no result.
-/

set_option autoImplicit false

namespace CComplete.TcpServer

open CComplete.Library CComplete.StaticQueue

/-- `C_TCP_SERVER__MAX_STREAM_BUFFER_SIZE`. -/
def maxStreamBufferSize : ℕ := 1024

/-- The local `buffer` of `TPC_SERVER__Thread`, the queue `output_queue` of the handler with its
memory, and whether the thread has cancelled itself. -/
structure Server where
  buffer : Bytes
  outputQueue : Queue
  memory : Memory
  cancelled : Bool

/-- `TPC_SERVER__Thread` before its first `read`. -/
def Server.accepted (outputQueue : Queue) (memory : Memory) : Server where
  buffer := List.replicate maxStreamBufferSize 0
  outputQueue := outputQueue
  memory := memory
  cancelled := false

/-- A `read`: -1, or the bytes that arrived. -/
abbrev ReadResult := Option Bytes

/-- The value of a `read`. -/
def ReadResult.valread : ReadResult → ℤ
  | none => -1
  | some bytes => bytes.length

/-- The buffer after a `read`: the bytes that arrived are put at its beginning, the rest stays. -/
def ReadResult.fill : ReadResult → Bytes → Bytes
  | none, buffer => buffer
  | some bytes, buffer => overlay bytes buffer

/-- A turn of the system: the next `read` of the server thread, or a receive of the other thread. -/
inductive Turn where
  | read (result : ReadResult)
  | receive (pBuffer : ℕ → UInt8)

/-- What a turn shows: the number of bytes to print, the item and the code of `queue_send`; the
message that the client is lost; nothing when the thread has ended; the code and the buffer of
`queue_receive`. -/
inductive Output where
  | sent (printed : UInt32) (pItem : ℕ → UInt8) (code : ℤ)
  | clientLost
  | ended
  | received (code : ℤ) (buffer : ℕ → UInt8)

/-- One turn of the `while` loop of `TPC_SERVER__Thread`; none when the bytes to print are more than
the buffer has. -/
def threadTurn (s : Server) (result : ReadResult) : Option (Server × Output) :=
  if s.cancelled then some (s, .ended)
  else
    let valread := result.valread
    let buffer := result.fill s.buffer
    if valread = 0 then some ({ s with buffer := buffer, cancelled := true }, .clientLost)
    else
      -- taken for every value but 0, so for -1 too
      let printed := UInt32.ofInt valread
      if maxStreamBufferSize < printed.toNat then none
      else
        -- `queue_send` is not told how many bytes arrived
        let pItem : ℕ → UInt8 := fun i => buffer.getD i 0
        let r := queueSend s.outputQueue s.memory pItem
        some ({ s with buffer := buffer, outputQueue := r.2.1, memory := r.2.2 },
          .sent printed pItem r.1)

/-- A turn of the server that has a result loses the client, or gives an item to `queue_send`. -/
theorem threadTurn_cases {s s' : Server} {result : ReadResult} {output : Output}
    (hrunning : s.cancelled = false) (h : threadTurn s result = some (s', output)) :
    (result.valread = 0 ∧ output = .clientLost ∧
      s' = { s with buffer := result.fill s.buffer, cancelled := true }) ∨
    ∃ printed pItem, output = .sent printed pItem (queueSend s.outputQueue s.memory pItem).1 ∧
      s' = { s with buffer := result.fill s.buffer
                    outputQueue := (queueSend s.outputQueue s.memory pItem).2.1
                    memory := (queueSend s.outputQueue s.memory pItem).2.2 } := by
  rw [threadTurn, if_neg (Bool.eq_false_iff.1 hrunning)] at h
  by_cases hlost : result.valread = 0
  · rw [if_pos hlost] at h
    obtain ⟨rfl, rfl⟩ := Prod.mk.inj (Option.some.inj h)
    exact Or.inl ⟨hlost, rfl, rfl⟩
  · rw [if_neg hlost] at h
    dsimp only at h
    split at h
    · cases h
    · obtain ⟨rfl, rfl⟩ := Prod.mk.inj (Option.some.inj h)
      exact Or.inr ⟨_, _, rfl, rfl⟩

/-- A turn of the server thread or of the receiving thread. -/
def turn (s : Server) : Turn → Option (Server × Output)
  | .read result => threadTurn s result
  | .receive pBuffer =>
      let r := queueReceive s.outputQueue s.memory pBuffer
      some ({ s with outputQueue := r.2.1, memory := r.2.2.1 }, .received r.1 r.2.2.2)

/-- The server thread and the receiving thread, one turn at a time. -/
def system : Machine (Option Server) Turn (Option Output) := Machine.ofOption turn

/-- The item of `n` bytes that a turn of the thread put into the queue. -/
def enqueuedItem (n : ℕ) : Turn × Option Output → Option Bytes
  | (_, some (.sent _ pItem code)) => if code = 0 then some (bufferBytes pItem n) else none
  | _ => none

/-- A message to the state manager: `[cmdCode | cmdArg1 | cmdArg2]`. -/
structure Command where
  cmdCode : UInt8
  cmdArg1 : UInt8
  cmdArg2 : UInt8
deriving DecidableEq

/-- The three bytes of a command. -/
def Command.bytes (c : Command) : Bytes := [c.cmdCode, c.cmdArg1, c.cmdArg2]

/-- The bytes of the commands that a client sends. -/
def stream (commands : List Command) : Bytes := commands.flatMap Command.bytes

end CComplete.TcpServer
