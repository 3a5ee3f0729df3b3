import CComplete.StaticQueue.Model
import CComplete.Library.Ring
import Mathlib.Tactic.Ring

/-!
# The static queue is a bounded FIFO

For sizes whose exact product is below `MAX_QUEUE_LENGTH`, a created queue and its memory area
represent a list of at most `length` items (`Represents`). The read cursor is at the ring slot `r`,
one before the oldest item, so the items occupy the slots from `r + 1` on and the write cursor is
at `r + 1 +` their number. Every call keeps this and answers as the FIFO list does, hence whole
runs do (`fifoSimulation`, `queue_run_eq_fifo`).
-/

set_option autoImplicit false

namespace CComplete.StaticQueue

open CComplete.Library

/-- Sizes of a queue whose items fit into `queue_memory_area` exactly. -/
structure Sizes where
  length : UInt32
  itemSize : UInt32
  length_pos : 0 < length.toNat
  itemSize_pos : 0 < itemSize.toNat
  fits : length.toNat * itemSize.toNat < maxQueueLength.toNat

/-- Slots of the items of a queue. -/
def Sizes.ring (z : Sizes) : Ring where
  base := queueMemoryArea
  stride := z.itemSize.toNat
  slots := z.length.toNat
  stride_pos := Int.natCast_pos.2 z.itemSize_pos
  slots_pos := z.length_pos

/-- The queue `q` on the memory `mem` holds the items `xs`, the oldest in slot `r + 1`. -/
structure Represents (z : Sizes) (r : ℕ) (q : Queue) (mem : Memory) (xs : List Bytes) : Prop where
  head : q.head = queueMemoryArea
  tail : q.tail = z.ring.limit
  length : q.length = z.length
  itemSize : q.itemSize = z.itemSize
  waiting : q.waitingMessages.toNat = xs.length
  bounded : xs.length ≤ z.length.toNat
  readFrom : q.readFrom = z.ring.addr r
  writeTo : q.writeTo = z.ring.addr (r + 1 + xs.length)
  items : z.ring.Segment (fun a x => mem.block a z.itemSize.toNat = x) (r + 1) xs

variable {z : Sizes} {r : ℕ} {q : Queue} {mem : Memory} {xs : List Bytes}

/-! ## Creation -/

theorem toNat_length_mul_itemSize (z : Sizes) :
    (z.length * z.itemSize).toNat = z.length.toNat * z.itemSize.toNat := by
  have hfits := z.fits
  have hmax : maxQueueLength.toNat = 100 := rfl
  rw [UInt32.toNat_mul, Nat.mod_eq_of_lt]
  omega

theorem toNat_last_item (z : Sizes) :
    ((z.length - 1) * z.itemSize).toNat = (z.length.toNat - 1) * z.itemSize.toNat := by
  have hfits := z.fits
  have hmax : maxQueueLength.toNat = 100 := rfl
  have hone : (1 : UInt32) ≤ z.length := UInt32.le_iff_toNat_le.2 z.length_pos
  have hle : (z.length.toNat - 1) * z.itemSize.toNat ≤ z.length.toNat * z.itemSize.toNat :=
    Nat.mul_le_mul_right _ (Nat.sub_le _ _)
  rw [UInt32.toNat_mul, UInt32.toNat_sub_of_le _ _ hone, Nat.mod_eq_of_lt]
  · rfl
  · show (z.length.toNat - 1) * z.itemSize.toNat < 2 ^ 32
    omega

/-- The handler that `create_queue` fills in. -/
def createdQueue (length itemSize : UInt32) : Queue :=
  { head := queueMemoryArea
    tail := queueMemoryArea + (length * itemSize).toNat
    writeTo := queueMemoryArea
    readFrom := queueMemoryArea + ((length - 1) * itemSize).toNat
    length := length
    itemSize := itemSize
    waitingMessages := 0 }

/-- On a queue object not yet created, sizes that fit are accepted. -/
theorem createQueue_eq (z : Sizes) {q₀ : Queue} (hnew : q₀.length = 0) :
    createQueue q₀ z.length z.itemSize = (0, createdQueue z.length z.itemSize) := by
  have hprod := toNat_length_mul_itemSize z
  have hpos := Nat.mul_pos z.length_pos z.itemSize_pos
  have hlen : 0 < z.length := UInt32.lt_iff_toNat_lt.2 z.length_pos
  have hlt : z.length * z.itemSize < maxQueueLength :=
    UInt32.lt_iff_toNat_lt.2 (by rw [hprod]; exact z.fits)
  have hne : z.length * z.itemSize ≠ 0 := by
    intro h
    rw [h] at hprod
    exact absurd hprod (Nat.ne_of_lt hpos)
  simp only [createQueue, hnew, ne_eq, not_true_eq_false, if_false, hlen, if_true, hlt, hne,
    not_false_eq_true, createdQueue]

theorem represents_created (z : Sizes) (mem : Memory) :
    Represents z (z.length.toNat - 1) (createdQueue z.length z.itemSize) mem [] where
  head := rfl
  tail := by
    rw [Ring.limit, createdQueue, toNat_length_mul_itemSize, Sizes.ring]
    push_cast
    ring
  length := rfl
  itemSize := rfl
  waiting := rfl
  bounded := Nat.zero_le _
  readFrom := by
    have hpos := z.length_pos
    rw [Ring.addr_of_lt _ (show z.length.toNat - 1 < z.ring.slots from by
      show z.length.toNat - 1 < z.length.toNat
      omega), createdQueue, toNat_last_item, Sizes.ring]
    push_cast
    ring
  writeTo := by
    have hpos := z.length_pos
    -- one full turn after the slot `length - 1`, which is the head
    have hslot : z.length.toNat - 1 + 1 + ([] : List Bytes).length = 0 + z.ring.slots := by
      show z.length.toNat - 1 + 1 + 0 = 0 + z.length.toNat
      omega
    rw [hslot, Ring.addr_add_slots, Ring.addr_zero]
    rfl
  items := Ring.segment_nil

/-! ## One call -/

theorem Represents.advance_addr (h : Represents z r q mem xs) (i : ℕ) :
    q.advance (z.ring.addr i) = z.ring.addr (i + 1) := by
  rw [Queue.advance, h.tail, h.head, h.itemSize]
  exact z.ring.wrap_at_limit i

/-- A memory in which the waiting items have the same bytes represents the same items. -/
theorem Represents.of_memory (h : Represents z r q mem xs) {mem' : Memory}
    (hmem : ∀ i, i < xs.length → mem'.block (z.ring.addr (r + 1 + i)) z.itemSize.toNat =
      mem.block (z.ring.addr (r + 1 + i)) z.itemSize.toNat) : Represents z r q mem' xs :=
  { h with items := h.items.mono fun i hi _ hx => (hmem i hi).trans hx }

theorem Represents.send_eq_of_lt (h : Represents z r q mem xs) (hlt : xs.length < z.length.toNat)
    (pItem : ℕ → UInt8) :
    queueSend q mem pItem =
      (0, { q with writeTo := q.advance q.writeTo, waitingMessages := q.waitingMessages + 1 },
        mem.copyIn q.writeTo pItem q.itemSize.toNat) := by
  have hw : q.waitingMessages < q.length := by
    rw [UInt32.lt_iff_toNat_lt, h.waiting, h.length]
    exact hlt
  rw [queueSend, if_pos hw]

theorem Represents.send_eq_of_not_lt (h : Represents z r q mem xs)
    (hfull : ¬ xs.length < z.length.toNat) (pItem : ℕ → UInt8) :
    queueSend q mem pItem = (-1, q, mem) := by
  have hw : ¬ q.waitingMessages < q.length := by
    rw [UInt32.lt_iff_toNat_lt, h.waiting, h.length]
    exact hfull
  rw [queueSend, if_neg hw]

theorem Represents.receive_eq_of_cons {x : Bytes} (h : Represents z r q mem (x :: xs))
    (pBuffer : ℕ → UInt8) :
    queueReceive q mem pBuffer =
      (0, { q with readFrom := z.ring.addr (r + 1), waitingMessages := q.waitingMessages - 1 },
        mem.copyOut (z.ring.addr (r + 1)) pBuffer z.itemSize.toNat) := by
  have hw : q.waitingMessages > 0 := by
    rw [gt_iff_lt, UInt32.lt_iff_toNat_lt, h.waiting]
    exact Nat.zero_lt_succ _
  simp only [queueReceive, hw, if_true, h.readFrom, h.advance_addr, h.itemSize]

theorem Represents.receive_eq_of_nil (h : Represents z r q mem []) (pBuffer : ℕ → UInt8) :
    queueReceive q mem pBuffer = (-1, q, mem, pBuffer) := by
  have hw : ¬ q.waitingMessages > 0 := by
    rw [gt_iff_lt, UInt32.lt_iff_toNat_lt, h.waiting]
    exact Nat.lt_irrefl _
  rw [queueReceive, if_neg hw]

/-- The bytes of the slot written by a send are those of no waiting item. -/
theorem Represents.block_write_other (h : Represents z r q mem xs)
    (hlt : xs.length < z.length.toNat) (pItem : ℕ → UInt8) {i : ℕ} (hi : i < xs.length) :
    (mem.copyIn q.writeTo pItem q.itemSize.toNat).block (z.ring.addr (r + 1 + i))
        z.itemSize.toNat =
      mem.block (z.ring.addr (r + 1 + i)) z.itemSize.toNat := by
  apply Memory.block_copyIn_of_disjoint
  rw [h.writeTo, h.itemSize]
  exact z.ring.addr_add_disjoint (r + 1) (Nat.ne_of_gt hi) hlt (hi.trans hlt)

/-- An accepted send appends its item. -/
theorem Represents.send (h : Represents z r q mem xs) (hlt : xs.length < z.length.toNat)
    (pItem : ℕ → UInt8) :
    Represents z r (queueSend q mem pItem).2.1 (queueSend q mem pItem).2.2
      (xs ++ [bufferBytes pItem z.itemSize.toNat]) := by
  have hkept : z.ring.Segment
      (fun a x => (mem.copyIn q.writeTo pItem q.itemSize.toNat).block a z.itemSize.toNat = x)
      (r + 1) xs :=
    h.items.mono fun i hi _ hx => (h.block_write_other hlt pItem hi).trans hx
  rw [h.send_eq_of_lt hlt pItem]
  exact
    { head := h.head
      tail := h.tail
      length := h.length
      itemSize := h.itemSize
      waiting := by
        -- the counter is below `length`, so it does not wrap
        have hmax := z.length.toNat_lt
        have hw := h.waiting
        rw [UInt32.toNat_add, hw, List.length_append, List.length_singleton]
        exact Nat.mod_eq_of_lt (show xs.length + 1 < 2 ^ 32 by omega)
      bounded := by
        rw [List.length_append, List.length_singleton]
        exact hlt
      readFrom := h.readFrom
      writeTo := by
        rw [h.writeTo, h.advance_addr, List.length_append, List.length_singleton, Nat.add_assoc]
      items := by
        apply hkept.snoc
        rw [← h.writeTo, ← h.itemSize]
        exact Memory.block_copyIn _ _ _ _ }

/-- A receive removes the oldest item. -/
theorem Represents.receive {x : Bytes} (h : Represents z r q mem (x :: xs))
    (pBuffer : ℕ → UInt8) :
    Represents z (r + 1) (queueReceive q mem pBuffer).2.1 (queueReceive q mem pBuffer).2.2.1
      xs := by
  rw [h.receive_eq_of_cons pBuffer]
  exact
    { head := h.head
      tail := h.tail
      length := h.length
      itemSize := h.itemSize
      waiting := by
        have hw := h.waiting
        rw [List.length_cons] at hw
        have hone : (1 : UInt32) ≤ q.waitingMessages := by
          rw [UInt32.le_iff_toNat_le, hw]
          exact Nat.succ_le_succ (Nat.zero_le _)
        rw [UInt32.toNat_sub_of_le _ _ hone, hw]
        rfl
      bounded := Nat.le_of_succ_le h.bounded
      readFrom := rfl
      writeTo := by
        rw [h.writeTo, List.length_cons]
        congr 1
        omega
      items := h.items.tail }

/-- The oldest item is what a receive puts into the buffer. -/
theorem Represents.receive_buffer {x : Bytes} (h : Represents z r q mem (x :: xs))
    (pBuffer : ℕ → UInt8) :
    bufferBytes (queueReceive q mem pBuffer).2.2.2 z.itemSize.toNat = x := by
  rw [h.receive_eq_of_cons pBuffer]
  exact (Memory.bufferBytes_copyOut _ _ _ _).trans h.items.head

/-! ## Whole runs -/

/-- A call on a represented list steps as the FIFO list does. -/
theorem Represents.step (h : Represents z r q mem xs) (call : Call) :
    (∃ r', Represents z r' (calls.step (q, mem) call).1.1 (calls.step (q, mem) call).1.2
        ((fifo Bytes z.length.toNat).step xs (call.toFifo z.itemSize.toNat)).1) ∧
      (calls.step (q, mem) call).2.toFifo z.itemSize.toNat =
        ((fifo Bytes z.length.toNat).step xs (call.toFifo z.itemSize.toNat)).2 := by
  cases call with
  | queueSend pItem =>
    -- the list and the counter agree on whether there is room
    by_cases hlt : xs.length < z.length.toNat
    · have hrep := h.send hlt pItem
      rw [Call.toFifo, fifo_send_of_lt hlt]
      refine ⟨⟨r, hrep⟩, ?_⟩
      simp [calls, h.send_eq_of_lt hlt, Reply.toFifo]
    · rw [Call.toFifo, fifo_send_of_not_lt hlt]
      simp only [calls, h.send_eq_of_not_lt hlt]
      exact ⟨⟨r, h⟩, rfl⟩
  | queueReceive pBuffer =>
    cases xs with
    | nil =>
      simp only [calls, h.receive_eq_of_nil]
      exact ⟨⟨r, h⟩, rfl⟩
    | cons x xs =>
      refine ⟨⟨r + 1, h.receive pBuffer⟩, ?_⟩
      have hx := h.receive_buffer pBuffer
      simp only [calls, Reply.toFifo, hx, Call.toFifo, fifo]
      rw [h.receive_eq_of_cons pBuffer]
      rfl

/-- The calls on a queue that fits simulate the bounded FIFO list. -/
def fifoSimulation (z : Sizes) :
    Simulation calls (fifo Bytes z.length.toNat) (fun _ _ => True) where
  rel s xs := ∃ r, Represents z r s.1 s.2 xs
  input := Call.toFifo z.itemSize.toNat
  output := Reply.toFifo z.itemSize.toNat
  rel_step := by
    rintro ⟨q, mem⟩ xs call ⟨r, h⟩ -
    exact (h.step call).1
  output_step := by
    rintro ⟨q, mem⟩ xs call ⟨r, h⟩ -
    exact (h.step call).2

/-- First in, first out: on every run of a created queue, the items whose send was accepted are
the items received so far followed by those still waiting. -/
theorem queue_accepted_eq (z : Sizes) (mem : Memory) (cs : List Call) :
    ∃ r xs, Represents z r (calls.after (createdQueue z.length z.itemSize, mem) cs).1
        (calls.after (createdQueue z.length z.itemSize, mem) cs).2 xs ∧
      (calls.trace (createdQueue z.length z.itemSize, mem) cs).filterMap
          (acceptedItem ∘ Prod.map (Call.toFifo z.itemSize.toNat) (Reply.toFifo z.itemSize.toNat)) =
        (calls.trace (createdQueue z.length z.itemSize, mem) cs).filterMap
          (deliveredItem ∘ Prod.map (Call.toFifo z.itemSize.toNat) (Reply.toFifo z.itemSize.toNat))
            ++ xs := by
  have hstart : (fifoSimulation z).rel (createdQueue z.length z.itemSize, mem) [] :=
    ⟨_, represents_created z mem⟩
  obtain ⟨r, hrep⟩ := (fifoSimulation z).rel_after hstart cs (calls.guarded_true _ _)
  have htrace : (calls.trace (createdQueue z.length z.itemSize, mem) cs).map
      (Prod.map (Call.toFifo z.itemSize.toNat) (Reply.toFifo z.itemSize.toNat)) =
        (fifo Bytes z.length.toNat).trace [] (cs.map (Call.toFifo z.itemSize.toNat)) :=
    (fifoSimulation z).trace_map hstart cs (calls.guarded_true _ _)
  refine ⟨r, _, hrep, ?_⟩
  -- both histories are read off the trace of the FIFO list
  rw [← List.filterMap_map, ← List.filterMap_map, htrace]
  exact fifo_accepted_eq _

theorem Represents.accessed_send (h : Represents z r q mem xs) (pItem : ℕ → UInt8) {a : ℤ}
    (ha : a ∈ (queueSend q mem pItem).2.2.accessed) :
    a ∈ mem.accessed ∨ (queueMemoryArea ≤ a ∧ a < z.ring.limit) := by
  by_cases hlt : xs.length < z.length.toNat
  · rw [h.send_eq_of_lt hlt] at ha
    rcases List.mem_append.1 ha with ha | ha
    · exact Or.inl ha
    · rw [Memory.mem_blockAddresses, h.writeTo, h.itemSize] at ha
      exact Or.inr ⟨(z.ring.base_le_addr _).trans ha.1,
        ha.2.trans_le (z.ring.addr_add_stride_le_limit _)⟩
  · rw [h.send_eq_of_not_lt hlt] at ha
    exact Or.inl ha

theorem Represents.accessed_receive (h : Represents z r q mem xs) (pBuffer : ℕ → UInt8) {a : ℤ}
    (ha : a ∈ (queueReceive q mem pBuffer).2.2.1.accessed) :
    a ∈ mem.accessed ∨ (queueMemoryArea ≤ a ∧ a < z.ring.limit) := by
  cases xs with
  | nil =>
    rw [h.receive_eq_of_nil] at ha
    exact Or.inl ha
  | cons x xs =>
    rw [h.receive_eq_of_cons] at ha
    rcases List.mem_append.1 ha with ha | ha
    · exact Or.inl ha
    · rw [Memory.mem_blockAddresses] at ha
      exact Or.inr ⟨(z.ring.base_le_addr _).trans ha.1,
        ha.2.trans_le (z.ring.addr_add_stride_le_limit _)⟩

/-- Along any run, the bytes touched in the memory area lie in `[head, tail)`. -/
theorem accessed_after (h : Represents z r q mem xs) (cs : List Call) :
    ∀ a ∈ (calls.after (q, mem) cs).2.accessed,
      a ∈ mem.accessed ∨ (queueMemoryArea ≤ a ∧ a < z.ring.limit) := by
  refine (calls.after_induction (P := fun s => (∃ r' ys, Represents z r' s.1 s.2 ys) ∧
    ∀ a ∈ s.2.accessed, a ∈ mem.accessed ∨ (queueMemoryArea ≤ a ∧ a < z.ring.limit))
    (q, mem) ⟨⟨r, xs, h⟩, fun a ha => Or.inl ha⟩ ?_ cs).2
  rintro ⟨q', mem'⟩ call ⟨⟨r', ys, h'⟩, hacc⟩
  obtain ⟨r'', hstep⟩ := (h'.step call).1
  refine ⟨⟨r'', _, hstep⟩, ?_⟩
  intro a ha
  -- touched before, or by this call
  cases call with
  | queueSend pItem => exact (h'.accessed_send pItem ha).elim (hacc a) Or.inr
  | queueReceive pBuffer => exact (h'.accessed_receive pBuffer ha).elim (hacc a) Or.inr

theorem queueSend_failure (q : Queue) (mem : Memory) (pItem : ℕ → UInt8)
    (h : (queueSend q mem pItem).1 ≠ 0) : (queueSend q mem pItem).2 = (q, mem) := by
  unfold queueSend at h ⊢
  split at h
  · exact absurd rfl h
  · next hfull => rw [if_neg hfull]

theorem queueReceive_failure (q : Queue) (mem : Memory) (pBuffer : ℕ → UInt8)
    (h : (queueReceive q mem pBuffer).1 ≠ 0) :
    (queueReceive q mem pBuffer).2 = (q, mem, pBuffer) := by
  unfold queueReceive at h ⊢
  split at h
  · exact absurd rfl h
  · next hempty => rw [if_neg hempty]

/-- A queue created with sizes whose exact product is below `MAX_QUEUE_LENGTH` answers every run of
calls as the FIFO list bounded by `length` does: the same calls succeed, and a receive delivers
byte for byte the oldest item. The counter is the length of the list, every byte touched lies in
`[head, tail)`, and a failing call changes neither the queue, nor the memory, nor the buffer. -/
theorem queue_run_eq_fifo (length itemSize : UInt32) (hlength : 1 ≤ length.toNat)
    (hitemSize : 1 ≤ itemSize.toNat)
    (hfits : length.toNat * itemSize.toNat < maxQueueLength.toNat)
    (q₀ : Queue) (hnew : q₀.length = 0) (mem : Memory) (cs : List Call) :
    ∃ q, createQueue q₀ length itemSize = (0, q) ∧
      (calls.trace (q, mem) cs).map
          (Prod.map (Call.toFifo itemSize.toNat) (Reply.toFifo itemSize.toNat)) =
        (fifo Bytes length.toNat).trace [] (cs.map (Call.toFifo itemSize.toNat)) ∧
      (calls.after (q, mem) cs).1.waitingMessages.toNat =
        ((fifo Bytes length.toNat).after [] (cs.map (Call.toFifo itemSize.toNat))).length ∧
      (∀ a ∈ (calls.after (q, mem) cs).2.accessed, a ∈ mem.accessed ∨
        ((calls.after (q, mem) cs).1.head ≤ a ∧ a < (calls.after (q, mem) cs).1.tail)) ∧
      (∀ pItem, let s := calls.after (q, mem) cs
        (queueSend s.1 s.2 pItem).1 ≠ 0 → (queueSend s.1 s.2 pItem).2 = s) ∧
      (∀ pBuffer, let s := calls.after (q, mem) cs
        (queueReceive s.1 s.2 pBuffer).1 ≠ 0 →
          (queueReceive s.1 s.2 pBuffer).2 = (s.1, s.2, pBuffer)) := by
  let z : Sizes := ⟨length, itemSize, hlength, hitemSize, hfits⟩
  have hcreated := represents_created z mem
  have hstart : (fifoSimulation z).rel (createdQueue length itemSize, mem) [] := ⟨_, hcreated⟩
  obtain ⟨r, hrep⟩ := (fifoSimulation z).rel_after hstart cs (calls.guarded_true _ _)
  refine ⟨createdQueue length itemSize, createQueue_eq z hnew, ?_, hrep.waiting, ?_, ?_, ?_⟩
  · exact (fifoSimulation z).trace_map hstart cs (calls.guarded_true _ _)
  · rw [hrep.head, hrep.tail]
    exact accessed_after hcreated cs
  · exact fun pItem => queueSend_failure _ _ pItem
  · exact fun pBuffer => queueReceive_failure _ _ pBuffer

/-- The queue of five 4-byte items of the module's own test, after one send and one receive. -/
theorem queue_run_eq_fifo_four_bytes :
    ∃ q, createQueue Queue.zero 5 4 = (0, q) ∧
      (calls.after (q, ⟨fun _ => 0, []⟩)
        [.queueSend fun i => [42, 1, 42, 41].getD i 0, .queueReceive fun _ => 0]).1.waitingMessages
          = 0 := by
  obtain ⟨q, hq, -, hwait, -⟩ := queue_run_eq_fifo 5 4 (by decide) (by decide) (by decide)
    Queue.zero rfl ⟨fun _ => 0, []⟩
    [.queueSend fun i => [42, 1, 42, 41].getD i 0, .queueReceive fun _ => 0]
  exact ⟨q, hq, UInt32.toNat_inj.1 hwait⟩

end CComplete.StaticQueue
