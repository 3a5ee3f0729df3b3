import CComplete.StaticQueue.Fifo

/-!
# The static queue between two threads

`queue.c` has no lock. In this module one thread calls `queue_send` and another one `queue_receive`
on the same queue, and a turn of a thread is one access of it: a test of the counter, one byte of a
`memcpy`, an assignment to a cursor, and the load and the store of `++` and `--` on the counter. The
turns take effect one after the other, in any interleaving. When the turns of each call follow one
another, the calls are those of the model of `queue.c` (`runs_calls`).
-/

set_option autoImplicit false

namespace CComplete.StaticQueue

open CComplete.Library

/-- Where the sending thread is in `queue_send`: outside, before the test of the counter, in the
`memcpy` with `done` bytes copied, before the addition to `write_to`, before its comparison with
`tail`, before the load of the counter, or before its store. -/
inductive SendPhase where
  | idle
  | check
  | copying (done : ℕ)
  | advance
  | wrap
  | load
  | store (loaded : UInt32)
deriving DecidableEq

/-- Where the receiving thread is in `queue_receive`, which moves its cursor before it copies. -/
inductive ReceivePhase where
  | idle
  | check
  | advance
  | wrap
  | copying (done : ℕ)
  | load
  | store (loaded : UInt32)
deriving DecidableEq

/-- The sending thread, with the `pItem` of its call. -/
structure Sender where
  phase : SendPhase
  pItem : ℕ → UInt8

/-- The receiving thread, with the `pBuffer` of its call. -/
structure Receiver where
  phase : ReceivePhase
  pBuffer : ℕ → UInt8

/-- The queue, the memory area and the two threads. -/
structure Threads where
  queue : Queue
  mem : Memory
  sender : Sender
  receiver : Receiver

/-- A turn of one of the threads, with the argument of its next call if it begins one. -/
inductive Turn where
  | sender (pItem : ℕ → UInt8)
  | receiver (pBuffer : ℕ → UInt8)

/-- What a turn shows: nothing, or the call that returns with it. -/
inductive Event where
  | running
  | sent (pItem : ℕ → UInt8) (code : ℤ)
  | received (code : ℤ) (buffer : ℕ → UInt8)

/-- The sending thread goes on to `phase`. -/
def Threads.sendAt (s : Threads) (phase : SendPhase) : Threads :=
  { s with sender := { s.sender with phase := phase } }

/-- The receiving thread goes on to `phase`. -/
def Threads.receiveAt (s : Threads) (phase : ReceivePhase) : Threads :=
  { s with receiver := { s.receiver with phase := phase } }

/-- One turn of the sending thread. -/
def Threads.sendTurn (s : Threads) (pItem : ℕ → UInt8) : Threads × Event :=
  let q := s.queue
  match s.sender.phase with
  | .idle => ({ s with sender := ⟨.check, pItem⟩ }, .running)
  | .check =>
      if q.waitingMessages < q.length then (s.sendAt (.copying 0), .running)
      else (s.sendAt .idle, .sent s.sender.pItem (-1))
  | .copying done =>
      if done < q.itemSize.toNat then
        ({ s.sendAt (.copying (done + 1)) with
            mem := s.mem.copyIn (q.writeTo + done) (fun i => s.sender.pItem (done + i)) 1 },
          .running)
      else (s.sendAt .advance, .running)
  | .advance =>
      ({ s.sendAt .wrap with queue := { q with writeTo := q.writeTo + q.itemSize.toNat } },
        .running)
  | .wrap =>
      ({ s.sendAt .load with
          queue := { q with writeTo := if q.writeTo ≥ q.tail then q.head else q.writeTo } },
        .running)
  | .load => (s.sendAt (.store q.waitingMessages), .running)
  | .store loaded =>
      -- what the counter is by now does not matter
      ({ s.sendAt .idle with queue := { q with waitingMessages := loaded + 1 } },
        .sent s.sender.pItem 0)

/-- One turn of the receiving thread. -/
def Threads.receiveTurn (s : Threads) (pBuffer : ℕ → UInt8) : Threads × Event :=
  let q := s.queue
  match s.receiver.phase with
  | .idle => ({ s with receiver := ⟨.check, pBuffer⟩ }, .running)
  | .check =>
      if q.waitingMessages > 0 then (s.receiveAt .advance, .running)
      else (s.receiveAt .idle, .received (-1) s.receiver.pBuffer)
  | .advance =>
      ({ s.receiveAt .wrap with queue := { q with readFrom := q.readFrom + q.itemSize.toNat } },
        .running)
  | .wrap =>
      ({ s.receiveAt (.copying 0) with
          queue := { q with readFrom := if q.readFrom ≥ q.tail then q.head else q.readFrom } },
        .running)
  | .copying done =>
      if done < q.itemSize.toNat then
        let a := q.readFrom + done
        ({ s with
            mem := { s.mem with accessed := s.mem.accessed ++ [a] }
            receiver := ⟨.copying (done + 1),
              Function.update s.receiver.pBuffer done (s.mem.byte a)⟩ }, .running)
      else (s.receiveAt .load, .running)
  | .load => (s.receiveAt (.store q.waitingMessages), .running)
  | .store loaded =>
      ({ s.receiveAt .idle with queue := { q with waitingMessages := loaded - 1 } },
        .received 0 s.receiver.pBuffer)

/-- The two threads, one turn at a time. -/
def threads : Machine Threads Turn Event where
  step
    | s, .sender pItem => s.sendTurn pItem
    | s, .receiver pBuffer => s.receiveTurn pBuffer

/-- Both threads outside of the calls, on a queue created with the sizes `z`. -/
def Threads.start (z : Sizes) (mem : Memory) : Threads where
  queue := (createQueue Queue.zero z.length z.itemSize).2
  mem := mem
  sender := ⟨.idle, fun _ => 0⟩
  receiver := ⟨.idle, fun _ => 0⟩

/-- The call on the queue that returns with a turn, as an entry of a FIFO trace. -/
def fifoEntry (n : ℕ) : Turn × Event → Option (FifoIn Bytes × FifoOut Bytes)
  | (_, .running) => none
  | (_, .sent pItem code) => some (.send (bufferBytes pItem n), .sent (code = 0))
  | (_, .received code buffer) =>
      some (.receive, .received (if code = 0 then some (bufferBytes buffer n) else none))

/-! ## Calls that are not interrupted -/

section Alone

variable {q : Queue} {mem : Memory} {sender : Sender} {receiver : Receiver}
variable {pItem pBuffer : ℕ → UInt8} {n : ℕ}

/-- The first `k` bytes of the `memcpy` of `queue_send`. -/
theorem runs_copying_in (next : ℕ → UInt8) {k : ℕ} (hk : k ≤ q.itemSize.toNat) :
    threads.Runs (fifoEntry n) ⟨q, mem, ⟨.copying 0, pItem⟩, receiver⟩
      (List.replicate k (.sender next)) []
      ⟨q, mem.copyIn q.writeTo pItem k, ⟨.copying k, pItem⟩, receiver⟩ := by
  induction k with
  | zero =>
    rw [Memory.copyIn_zero]
    exact Machine.Runs.refl
  | succ k ih =>
    rw [List.replicate_succ', ← mem.copyIn_add]
    have hturn : threads.step
        ⟨q, mem.copyIn q.writeTo pItem k, ⟨.copying k, pItem⟩, receiver⟩ (.sender next) =
          (⟨q, (mem.copyIn q.writeTo pItem k).copyIn (q.writeTo + k) (fun i => pItem (k + i)) 1,
            ⟨.copying (k + 1), pItem⟩, receiver⟩, .running) := by
      simp only [threads, Threads.sendTurn]
      rw [if_pos (Nat.lt_of_succ_le hk)]
      rfl
    exact (ih (Nat.le_of_succ_le hk)).append (Machine.Runs.one hturn)

/-- The first `k` bytes of the `memcpy` of `queue_receive`. -/
theorem runs_copying_out (next : ℕ → UInt8) {k : ℕ} (hk : k ≤ q.itemSize.toNat) :
    threads.Runs (fifoEntry n) ⟨q, mem, sender, ⟨.copying 0, pBuffer⟩⟩
      (List.replicate k (.receiver next)) []
      ⟨q, (mem.copyOut q.readFrom pBuffer k).1, sender,
        ⟨.copying k, (mem.copyOut q.readFrom pBuffer k).2⟩⟩ := by
  induction k with
  | zero =>
    rw [Memory.copyOut_zero]
    exact Machine.Runs.refl
  | succ k ih =>
    rw [List.replicate_succ', Memory.copyOut_succ]
    have hturn : threads.step ⟨q, (mem.copyOut q.readFrom pBuffer k).1, sender,
        ⟨.copying k, (mem.copyOut q.readFrom pBuffer k).2⟩⟩ (.receiver next) =
          (⟨q, { mem with
                  accessed := (mem.copyOut q.readFrom pBuffer k).1.accessed ++ [q.readFrom + k] },
            sender, ⟨.copying (k + 1), Function.update (mem.copyOut q.readFrom pBuffer k).2 k
              (mem.byte (q.readFrom + k))⟩⟩, .running) := by
      simp only [threads, Threads.receiveTurn]
      rw [if_pos (Nat.lt_of_succ_le hk)]
      rfl
    exact (ih (Nat.le_of_succ_le hk)).append (Machine.Runs.one hturn)

/-- `queue_send` without interruption comes to the store of the counter if there is room. -/
theorem runs_send_to_store (q : Queue) (mem : Memory) (receiver : Receiver)
    (pItem₀ pItem : ℕ → UInt8) (hroom : q.waitingMessages < q.length) :
    threads.Runs (fifoEntry n) ⟨q, mem, ⟨.idle, pItem₀⟩, receiver⟩
      (List.replicate (q.itemSize.toNat + 6) (.sender pItem)) []
      ⟨{ q with writeTo := q.advance q.writeTo }, mem.copyIn q.writeTo pItem q.itemSize.toNat,
        ⟨.store q.waitingMessages, pItem⟩, receiver⟩ := by
  have hbegin : threads.Runs (fifoEntry n) ⟨q, mem, ⟨.idle, pItem₀⟩, receiver⟩
      (List.replicate 2 (.sender pItem)) [] ⟨q, mem, ⟨.copying 0, pItem⟩, receiver⟩ := by
    constructor <;> simp [threads, Threads.sendTurn, hroom, Threads.sendAt, fifoEntry]
  have hend : threads.Runs (fifoEntry n)
      ⟨q, mem.copyIn q.writeTo pItem q.itemSize.toNat, ⟨.copying q.itemSize.toNat, pItem⟩,
        receiver⟩ (List.replicate 4 (.sender pItem)) []
      ⟨{ q with writeTo := q.advance q.writeTo }, mem.copyIn q.writeTo pItem q.itemSize.toNat,
        ⟨.store q.waitingMessages, pItem⟩, receiver⟩ := by
    constructor <;> simp [threads, Threads.sendTurn, Threads.sendAt, fifoEntry, Queue.advance]
  have hturns : List.replicate (q.itemSize.toNat + 6) (Turn.sender pItem) =
      List.replicate 2 (.sender pItem) ++ (List.replicate q.itemSize.toNat (.sender pItem) ++
        List.replicate 4 (.sender pItem)) := by
    rw [List.replicate_append_replicate, List.replicate_append_replicate]
    congr 1
    omega
  rw [hturns]
  exact hbegin.append ((runs_copying_in pItem le_rfl).append hend)

/-- `queue_receive` without interruption comes to the store of the counter if a message waits. -/
theorem runs_receive_to_store (q : Queue) (mem : Memory) (sender : Sender)
    (pBuffer₀ pBuffer : ℕ → UInt8) (hwaits : q.waitingMessages > 0) :
    let read := mem.copyOut (q.advance q.readFrom) pBuffer q.itemSize.toNat
    threads.Runs (fifoEntry n) ⟨q, mem, sender, ⟨.idle, pBuffer₀⟩⟩
      (List.replicate (q.itemSize.toNat + 6) (.receiver pBuffer)) []
      ⟨{ q with readFrom := q.advance q.readFrom }, read.1, sender,
        ⟨.store q.waitingMessages, read.2⟩⟩ := by
  intro read
  have hbegin : threads.Runs (fifoEntry n) ⟨q, mem, sender, ⟨.idle, pBuffer₀⟩⟩
      (List.replicate 4 (.receiver pBuffer)) []
      ⟨{ q with readFrom := q.advance q.readFrom }, mem, sender, ⟨.copying 0, pBuffer⟩⟩ := by
    constructor <;>
      simp [threads, Threads.receiveTurn, gt_iff_lt.1 hwaits, Threads.receiveAt, fifoEntry,
        Queue.advance]
  have hend : threads.Runs (fifoEntry n)
      ⟨{ q with readFrom := q.advance q.readFrom }, read.1, sender,
        ⟨.copying q.itemSize.toNat, read.2⟩⟩ (List.replicate 2 (.receiver pBuffer)) []
      ⟨{ q with readFrom := q.advance q.readFrom }, read.1, sender,
        ⟨.store q.waitingMessages, read.2⟩⟩ := by
    constructor <;> simp [threads, Threads.receiveTurn, Threads.receiveAt, fifoEntry]
  have hturns : List.replicate (q.itemSize.toNat + 6) (Turn.receiver pBuffer) =
      List.replicate 4 (.receiver pBuffer) ++ (List.replicate q.itemSize.toNat (.receiver pBuffer)
        ++ List.replicate 2 (.receiver pBuffer)) := by
    rw [List.replicate_append_replicate, List.replicate_append_replicate]
    congr 1
    omega
  rw [hturns]
  exact hbegin.append ((runs_copying_out pBuffer le_rfl).append hend)

/-- The turns of the sending thread alone make the call of `queue_send`. -/
theorem runs_send (q : Queue) (mem : Memory) (receiver : Receiver) (pItem₀ pItem : ℕ → UInt8) :
    ∃ k, threads.Runs (fifoEntry n) ⟨q, mem, ⟨.idle, pItem₀⟩, receiver⟩
      (List.replicate k (.sender pItem))
      [(.send (bufferBytes pItem n), .sent ((queueSend q mem pItem).1 = 0))]
      ⟨(queueSend q mem pItem).2.1, (queueSend q mem pItem).2.2, ⟨.idle, pItem⟩, receiver⟩ := by
  by_cases hroom : q.waitingMessages < q.length
  · refine ⟨q.itemSize.toNat + 6 + 1, ?_⟩
    rw [queueSend, if_pos hroom, List.replicate_succ']
    exact (runs_send_to_store q mem receiver pItem₀ pItem hroom).append (Machine.Runs.one rfl)
  · refine ⟨1 + 1, ?_⟩
    have henter : threads.step ⟨q, mem, ⟨.idle, pItem₀⟩, receiver⟩ (.sender pItem) =
        (⟨q, mem, ⟨.check, pItem⟩, receiver⟩, .running) := rfl
    have hrefused : threads.step ⟨q, mem, ⟨.check, pItem⟩, receiver⟩ (.sender pItem) =
        (⟨q, mem, ⟨.idle, pItem⟩, receiver⟩, .sent pItem (-1)) := if_neg hroom
    rw [queueSend, if_neg hroom]
    exact (Machine.Runs.one henter).append (Machine.Runs.one hrefused)

/-- The turns of the receiving thread alone make the call of `queue_receive`. -/
theorem runs_receive (q : Queue) (mem : Memory) (sender : Sender) (pBuffer₀ pBuffer : ℕ → UInt8) :
    let r := queueReceive q mem pBuffer
    ∃ k, threads.Runs (fifoEntry n) ⟨q, mem, sender, ⟨.idle, pBuffer₀⟩⟩
      (List.replicate k (.receiver pBuffer))
      [(.receive, .received (if r.1 = 0 then some (bufferBytes r.2.2.2 n) else none))]
      ⟨r.2.1, r.2.2.1, sender, ⟨.idle, r.2.2.2⟩⟩ := by
  intro r
  by_cases hwaits : q.waitingMessages > 0
  · refine ⟨q.itemSize.toNat + 6 + 1, ?_⟩
    have hr : r = _ := if_pos hwaits
    rw [hr, List.replicate_succ']
    exact (runs_receive_to_store q mem sender pBuffer₀ pBuffer hwaits).append (Machine.Runs.one rfl)
  · refine ⟨1 + 1, ?_⟩
    have henter : threads.step ⟨q, mem, sender, ⟨.idle, pBuffer₀⟩⟩ (.receiver pBuffer) =
        (⟨q, mem, sender, ⟨.check, pBuffer⟩⟩, .running) := rfl
    have hempty : threads.step ⟨q, mem, sender, ⟨.check, pBuffer⟩⟩ (.receiver pBuffer) =
        (⟨q, mem, sender, ⟨.idle, pBuffer⟩⟩, .received (-1) pBuffer) := if_neg hwaits
    have hr : r = _ := if_neg hwaits
    rw [hr]
    exact (Machine.Runs.one henter).append (Machine.Runs.one hempty)

/-- The two threads make every run of calls of the model of `queue.c`, one call after the other. -/
theorem runs_calls (n : ℕ) (cs : List Call) :
    ∀ (q : Queue) (mem : Memory) (pItem pBuffer : ℕ → UInt8), ∃ turns pItem' pBuffer',
      threads.Runs (fifoEntry n) ⟨q, mem, ⟨.idle, pItem⟩, ⟨.idle, pBuffer⟩⟩ turns
        ((calls.trace (q, mem) cs).map (Prod.map (Call.toFifo n) (Reply.toFifo n)))
        ⟨(calls.after (q, mem) cs).1, (calls.after (q, mem) cs).2, ⟨.idle, pItem'⟩,
          ⟨.idle, pBuffer'⟩⟩ := by
  induction cs with
  | nil => exact fun q mem pItem pBuffer => ⟨[], pItem, pBuffer, Machine.Runs.refl⟩
  | cons call cs ih =>
    intro q mem pItem pBuffer
    cases call with
    | queueSend item =>
      obtain ⟨k, hcall⟩ := runs_send (n := n) q mem ⟨.idle, pBuffer⟩ pItem item
      obtain ⟨turns, pItem', pBuffer', hrest⟩ :=
        ih (queueSend q mem item).2.1 (queueSend q mem item).2.2 item pBuffer
      exact ⟨_, pItem', pBuffer', hcall.append hrest⟩
    | queueReceive buffer =>
      obtain ⟨k, hcall⟩ := runs_receive (n := n) q mem ⟨.idle, pItem⟩ pBuffer buffer
      obtain ⟨turns, pItem', pBuffer', hrest⟩ :=
        ih (queueReceive q mem buffer).2.1 (queueReceive q mem buffer).2.2.1 pItem
          (queueReceive q mem buffer).2.2.2
      exact ⟨_, pItem', pBuffer', hcall.append hrest⟩

end Alone

end CComplete.StaticQueue
