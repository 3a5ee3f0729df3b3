import CComplete.StaticQueue.Fifo

/-!
# Two queues on one memory area

`create_queue` places every queue at the start of the one static array, so two created queues
write over each other. This file follows the calls on two queues in any interleaving. A call keeps
the other queue when it writes no byte of a message waiting there, or only bytes equal to those it
overwrites (`KeepsOther`). As long as every call does, each queue answers as a FIFO list of its own
(`queues_undisturbed_of_keepsOther`); two one-byte queues already disturb each other
(`queues_disturbed`).
-/

set_option autoImplicit false

namespace CComplete.StaticQueue

open CComplete.Library

/-- The calls on two queues that share the memory area, in any interleaving. -/
def pairCalls : Machine ((Queue × Queue) × Memory) (Call ⊕ Call) (Reply ⊕ Reply) where
  step
    | ((q₁, q₂), mem), .inl call =>
        let r := calls.step (q₁, mem) call
        (((r.1.1, q₂), r.1.2), .inl r.2)
    | ((q₁, q₂), mem), .inr call =>
        let r := calls.step (q₂, mem) call
        (((q₁, r.1.1), r.1.2), .inr r.2)

/-- The calls on one queue seen from the outside, with `n`-byte items. -/
def observed (n : ℕ) : List (Call × Reply) → List (FifoIn Bytes × FifoOut Bytes) :=
  List.map (Prod.map (Call.toFifo n) (Reply.toFifo n))

/-- In the run `cs`, each of the two queues answers the calls on it as a FIFO list of its own. -/
def Undisturbed (q₁ q₂ : Queue) (mem : Memory) (cs : List (Call ⊕ Call)) : Prop :=
  let t := pairCalls.trace ((q₁, q₂), mem) cs
  let n₁ := q₁.itemSize.toNat
  let n₂ := q₂.itemSize.toNat
  observed n₁ (t.filterMap leftEntry) =
      (fifo Bytes q₁.length.toNat).trace [] ((cs.filterMap Sum.getLeft?).map (Call.toFifo n₁)) ∧
    observed n₂ (t.filterMap rightEntry) =
      (fifo Bytes q₂.length.toNat).trace [] ((cs.filterMap Sum.getRight?).map (Call.toFifo n₂))

/-- A call on `q` leaves the bytes of the messages waiting in `other` as they are: an accepted send
writes a byte of such a message only with the value it has. The waiting messages are the ones that
`print_queue` lists. -/
def KeepsOther (q other : Queue) (mem : Memory) : Call → Prop
  | .queueSend pItem => q.waitingMessages < q.length →
      ∀ a ∈ printQueue other, ∀ i, i < q.itemSize.toNat → ∀ j, j < other.itemSize.toNat →
        q.writeTo + (i : ℤ) = a + (j : ℤ) → pItem i = mem.byte (a + j)
  | .queueReceive _ => True

/-- `KeepsOther` for the queue that the call is not on. -/
def PairKeepsOther : (Queue × Queue) × Memory → Call ⊕ Call → Prop
  | ((q₁, q₂), mem), .inl call => KeepsOther q₁ q₂ mem call
  | ((q₁, q₂), mem), .inr call => KeepsOther q₂ q₁ mem call

variable {z z' : Sizes} {r : ℕ} {q other : Queue} {mem : Memory} {xs : List Bytes}

theorem Represents.printLoop_eq (h : Represents z r q mem xs) (n i : ℕ) :
    printLoop q n (z.ring.addr i + z.itemSize.toNat) =
      (List.range n).map fun k => z.ring.addr (i + 1 + k) := by
  induction n generalizing i with
  | zero => rfl
  | succ n ih =>
    have hstart := h.advance_addr i
    rw [Queue.advance, h.itemSize] at hstart
    rw [printLoop, hstart, h.itemSize, ih, List.range_succ_eq_map, List.map_cons, List.map_map]
    congr 1
    apply List.map_congr_left
    intro k _
    exact congrArg z.ring.addr (by simp only [Nat.succ_eq_add_one]; omega)

/-- `print_queue` visits the slots of the waiting messages. -/
theorem Represents.printQueue_eq (h : Represents z r q mem xs) :
    printQueue q = (List.range xs.length).map fun k => z.ring.addr (r + 1 + k) := by
  rw [printQueue, h.waiting, h.readFrom, h.itemSize, h.printLoop_eq]

/-- A call that keeps the other queue leaves it with the same items. -/
theorem Represents.of_keepsOther {r' : ℕ} {ys : List Bytes} (h : Represents z r q mem xs)
    (h' : Represents z' r' other mem ys) {call : Call} (hkeep : KeepsOther q other mem call) :
    Represents z' r' other (calls.step (q, mem) call).1.2 ys := by
  cases call with
  | queueSend pItem =>
    by_cases hlt : xs.length < z.length.toNat
    · have hw : q.waitingMessages < q.length := by
        rw [UInt32.lt_iff_toNat_lt, h.waiting, h.length]
        exact hlt
      simp only [calls, h.send_eq_of_lt hlt]
      apply h'.of_memory
      intro k hk
      -- item number `k` of the other queue is one that `print_queue` lists
      apply Memory.block_copyIn_of_agree
      intro i hi j hj hij
      apply hkeep hw _ _ i hi j
      · rw [h'.itemSize]
        exact hj
      · exact hij
      · rw [h'.printQueue_eq]
        exact List.mem_map.2 ⟨k, List.mem_range.2 hk, rfl⟩
    · simp only [calls, h.send_eq_of_not_lt hlt]
      exact h'
  | queueReceive pBuffer =>
    cases xs with
    | nil =>
      simp only [calls, h.receive_eq_of_nil]
      exact h'
    | cons x xs =>
      simp only [calls, h.receive_eq_of_cons]
      exact h'.of_memory fun _ _ => rfl

/-- Two queues whose calls keep each other simulate two FIFO lists side by side. -/
def pairSimulation (z₁ z₂ : Sizes) :
    Simulation pairCalls
      ((fifo Bytes z₁.length.toNat).interleave (fifo Bytes z₂.length.toNat)) PairKeepsOther where
  rel s t := (∃ r, Represents z₁ r s.1.1 s.2 t.1) ∧ ∃ r, Represents z₂ r s.1.2 s.2 t.2
  input := Sum.map (Call.toFifo z₁.itemSize.toNat) (Call.toFifo z₂.itemSize.toNat)
  output := Sum.map (Reply.toFifo z₁.itemSize.toNat) (Reply.toFifo z₂.itemSize.toNat)
  rel_step := by
    rintro ⟨⟨q₁, q₂⟩, mem⟩ ⟨xs, ys⟩ (call | call) ⟨⟨r₁, h₁⟩, r₂, h₂⟩ hkeep
    -- the queue called on steps as its list, the other one keeps its items
    · exact ⟨(h₁.step call).1, r₂, h₁.of_keepsOther h₂ hkeep⟩
    · exact ⟨⟨r₁, h₂.of_keepsOther h₁ hkeep⟩, (h₂.step call).1⟩
  output_step := by
    rintro ⟨⟨q₁, q₂⟩, mem⟩ ⟨xs, ys⟩ (call | call) ⟨⟨r₁, h₁⟩, r₂, h₂⟩ -
    · exact congrArg Sum.inl (h₁.step call).2
    · exact congrArg Sum.inr (h₂.step call).2

theorem Represents.undisturbed {z₁ z₂ : Sizes} {r₁ r₂ : ℕ} {q₁ q₂ : Queue}
    (h₁ : Represents z₁ r₁ q₁ mem []) (h₂ : Represents z₂ r₂ q₂ mem [])
    {cs : List (Call ⊕ Call)} (hkept : pairCalls.Guarded PairKeepsOther ((q₁, q₂), mem) cs) :
    Undisturbed q₁ q₂ mem cs := by
  have hstart : (pairSimulation z₁ z₂).rel ((q₁, q₂), mem) ([], []) := ⟨⟨r₁, h₁⟩, r₂, h₂⟩
  have htrace := (pairSimulation z₁ z₂).trace_map hstart cs hkept
  constructor
  · have hleft := Machine.interleave_trace_left (fifo Bytes z₁.length.toNat)
      (fifo Bytes z₂.length.toNat) [] [] (cs.map (pairSimulation z₁ z₂).input)
    rw [← htrace, pairSimulation, filterMap_leftEntry_map, filterMap_getLeft_map] at hleft
    rw [h₁.itemSize, h₁.length]
    exact hleft
  · have hright := Machine.interleave_trace_right (fifo Bytes z₁.length.toNat)
      (fifo Bytes z₂.length.toNat) [] [] (cs.map (pairSimulation z₁ z₂).input)
    rw [← htrace, pairSimulation, filterMap_rightEntry_map, filterMap_getRight_map] at hright
    rw [h₂.itemSize, h₂.length]
    exact hright

/-- Two created queues with sizes that fit exactly answer as two FIFO lists of their own in every
run of calls in which each accepted send keeps the bytes of the messages waiting in the other. -/
theorem queues_undisturbed_of_keepsOther (length₁ itemSize₁ length₂ itemSize₂ : UInt32)
    (hlength₁ : 1 ≤ length₁.toNat) (hitemSize₁ : 1 ≤ itemSize₁.toNat)
    (hfits₁ : length₁.toNat * itemSize₁.toNat < maxQueueLength.toNat)
    (hlength₂ : 1 ≤ length₂.toNat) (hitemSize₂ : 1 ≤ itemSize₂.toNat)
    (hfits₂ : length₂.toNat * itemSize₂.toNat < maxQueueLength.toNat)
    (q₁ q₂ : Queue) (hnew₁ : q₁.length = 0) (hnew₂ : q₂.length = 0) (mem : Memory)
    (cs : List (Call ⊕ Call))
    (hkept : pairCalls.Guarded PairKeepsOther
      (((createQueue q₁ length₁ itemSize₁).2, (createQueue q₂ length₂ itemSize₂).2), mem) cs) :
    (createQueue q₁ length₁ itemSize₁).1 = 0 ∧ (createQueue q₂ length₂ itemSize₂).1 = 0 ∧
      Undisturbed (createQueue q₁ length₁ itemSize₁).2 (createQueue q₂ length₂ itemSize₂).2
        mem cs := by
  let z₁ : Sizes := ⟨length₁, itemSize₁, hlength₁, hitemSize₁, hfits₁⟩
  let z₂ : Sizes := ⟨length₂, itemSize₂, hlength₂, hitemSize₂, hfits₂⟩
  have hcreate₁ : createQueue q₁ length₁ itemSize₁ = _ := createQueue_eq z₁ hnew₁
  have hcreate₂ : createQueue q₂ length₂ itemSize₂ = _ := createQueue_eq z₂ hnew₂
  rw [hcreate₁, hcreate₂] at hkept ⊢
  exact ⟨rfl, rfl, (represents_created z₁ mem).undisturbed (represents_created z₂ mem) hkept⟩

/-- A send to the second queue while a message waits in the first one, in another slot. -/
theorem queues_undisturbed_of_keepsOther_one_waiting :
    Undisturbed (createQueue Queue.zero 3 1).2 (createQueue Queue.zero 3 1).2 ⟨fun _ => 0, []⟩
      [.inl (.queueSend fun _ => 7), .inl (.queueReceive fun _ => 0), .inl (.queueSend fun _ => 8),
        .inr (.queueSend fun _ => 9), .inl (.queueReceive fun _ => 0),
        .inr (.queueReceive fun _ => 0)] := by
  refine (queues_undisturbed_of_keepsOther 3 1 3 1 (by decide) (by decide) (by decide) (by decide)
    (by decide) (by decide) Queue.zero Queue.zero rfl rfl ⟨fun _ => 0, []⟩ _ ?_).2.2
  refine ⟨fun _ a ha => ?_, True.intro, fun _ a ha => ?_, fun _ a ha => ?_, True.intro, True.intro,
    True.intro⟩
  -- when the first queue is sent to, no message waits in the second one
  · exact absurd ha List.not_mem_nil
  · exact absurd ha List.not_mem_nil
  -- when the second queue is sent to, the first one has its message in slot 1
  · obtain rfl : a = 1 := List.mem_singleton.1 ha
    intro i hi j hj hij
    have hi' : i < 1 := hi
    have hj' : j < 1 := hj
    have hij' : (0 : ℤ) + i = 1 + j := hij
    omega

/-- Two created one-byte queues: after a send to each, the first delivers the byte sent to the
second. -/
theorem queues_disturbed :
    (createQueue Queue.zero 1 1).1 = 0 ∧
      ¬ Undisturbed (createQueue Queue.zero 1 1).2 (createQueue Queue.zero 1 1).2
        ⟨fun _ => 0, []⟩
        [.inl (.queueSend fun _ => 7), .inr (.queueSend fun _ => 8),
          .inl (.queueReceive fun _ => 0)] := by
  refine ⟨by decide, fun h => ?_⟩
  -- the first queue delivers 8, the FIFO list 7
  exact absurd h.1 (by decide)

end CComplete.StaticQueue
