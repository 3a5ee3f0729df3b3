import CComplete.StaticQueue.Sharing

/-!
# What `print_queue` shows

`print_queue` walks from the slot after the read cursor over as many slots as messages wait, with a
wrap of its own. At every point of a run this shows the messages that were sent and not received
yet, the oldest first, and reads no byte outside the ring (`print_queue_shows_waiting`).
-/

set_option autoImplicit false

namespace CComplete.StaticQueue

open CComplete.Library

/-- The bytes that `print_queue` shows, message by message. -/
def printedMessages (q : Queue) (mem : Memory) : List Bytes :=
  (printQueue q).map fun a => mem.block a q.itemSize.toNat

variable {z : Sizes} {r : ℕ} {q : Queue} {mem : Memory} {xs : List Bytes}

theorem Represents.printedMessages_eq (h : Represents z r q mem xs) :
    printedMessages q mem = xs := by
  rw [printedMessages, h.printQueue_eq, h.itemSize, List.map_map]
  apply List.ext_getElem
  · rw [List.length_map, List.length_range]
  · intro i hi hi'
    rw [List.getElem_map, List.getElem_range]
    exact h.items i hi'

/-- The walk of `print_queue` stays on the slots of the ring. -/
theorem Represents.printQueue_bounds (h : Represents z r q mem xs) {a : ℤ}
    (ha : a ∈ printQueue q) : q.head ≤ a ∧ a + q.itemSize.toNat ≤ q.tail := by
  rw [h.printQueue_eq] at ha
  obtain ⟨k, -, rfl⟩ := List.mem_map.1 ha
  rw [h.head, h.tail, h.itemSize]
  exact ⟨z.ring.base_le_addr _, z.ring.addr_add_stride_le_limit _⟩

/-- At every point of every run of a queue created with sizes that fit exactly: the messages whose
send was accepted are the received ones followed by what `print_queue` shows, and every message it
shows lies between `head` and `tail`. -/
theorem print_queue_shows_waiting (length itemSize : UInt32) (hlength : 1 ≤ length.toNat)
    (hitemSize : 1 ≤ itemSize.toNat)
    (hfits : length.toNat * itemSize.toNat < maxQueueLength.toNat) (q₀ : Queue)
    (hnew : q₀.length = 0) (mem : Memory) (cs : List Call) :
    let s₀ := ((createQueue q₀ length itemSize).2, mem)
    let s := calls.after s₀ cs
    let t := observed itemSize.toNat (calls.trace s₀ cs)
    t.filterMap acceptedItem = t.filterMap deliveredItem ++ printedMessages s.1 s.2 ∧
      ∀ a ∈ printQueue s.1, s.1.head ≤ a ∧ a + itemSize.toNat ≤ s.1.tail := by
  let z : Sizes := ⟨length, itemSize, hlength, hitemSize, hfits⟩
  have hcreate : createQueue q₀ length itemSize = _ := createQueue_eq z hnew
  rw [hcreate]
  obtain ⟨r, xs, hrep, hitems⟩ := queue_accepted_eq z mem cs
  refine ⟨?_, fun a ha => ?_⟩
  · rw [hrep.printedMessages_eq, observed, List.filterMap_map, List.filterMap_map]
    exact hitems
  · have hbounds := hrep.printQueue_bounds ha
    rw [hrep.itemSize] at hbounds
    exact hbounds

/-- Two messages of two bytes after one was received: the second is shown. -/
theorem print_queue_shows_waiting_second :
    let s := calls.after ((createQueue Queue.zero 2 2).2, ⟨fun _ => 0, []⟩)
      [.queueSend fun _ => 7, .queueSend fun _ => 8, .queueReceive fun _ => 0]
    [[7, 7], [8, 8]] = [[7, 7]] ++ printedMessages s.1 s.2 :=
  (print_queue_shows_waiting 2 2 (by decide) (by decide) (by decide) Queue.zero rfl
    ⟨fun _ => 0, []⟩
    [.queueSend fun _ => 7, .queueSend fun _ => 8, .queueReceive fun _ => 0]).1

end CComplete.StaticQueue
