import CComplete.Library.Machine

/-!
# Bounded FIFO lists

The abstract first-in first-out buffer: a list of at most `capacity` items, sent at the end and
received at the front. On every run from the empty list, the items accepted so far are the items
delivered so far followed by the items still waiting. An item waits for exactly as many receives as
items stand before it, itself included, and a stretch without receives fills the list and no more.
-/

set_option autoImplicit false

namespace CComplete.Library

universe u

variable {α : Type u}

/-- Inputs of a FIFO. -/
inductive FifoIn (α : Type u) where
  | send (a : α)
  | receive
deriving DecidableEq

/-- Outputs of a FIFO: whether a sent item was accepted, and the item received if there was one. -/
inductive FifoOut (α : Type u) where
  | sent (accepted : Bool)
  | received (item : Option α)
deriving DecidableEq

/-- The FIFO list bounded by `capacity`. -/
def fifo (α : Type u) (capacity : ℕ) : Machine (List α) (FifoIn α) (FifoOut α) where
  step
    | xs, .send a => if xs.length < capacity then (xs ++ [a], .sent true) else (xs, .sent false)
    | [], .receive => ([], .received none)
    | x :: xs, .receive => (xs, .received (some x))

/-- The item an entry of a trace put into the FIFO. -/
def acceptedItem : FifoIn α × FifoOut α → Option α
  | (.send a, .sent true) => some a
  | _ => none

/-- The item an entry of a trace took out of the FIFO. -/
def deliveredItem : FifoIn α × FifoOut α → Option α
  | (.receive, .received item) => item
  | _ => none

@[simp] theorem acceptedItem_send_true (a : α) : acceptedItem (.send a, .sent true) = some a := rfl

@[simp] theorem acceptedItem_send_false (a : α) : acceptedItem (.send a, .sent false) = none := rfl

@[simp] theorem acceptedItem_receive (o : FifoOut α) : acceptedItem (.receive, o) = none := rfl

@[simp] theorem deliveredItem_send (a : α) (o : FifoOut α) :
    deliveredItem (.send a, o) = none := rfl

@[simp] theorem deliveredItem_received (item : Option α) :
    deliveredItem (.receive, .received item) = item := rfl

theorem deliveredItem_of_accepted {e : FifoIn α × FifoOut α} {a : α}
    (h : acceptedItem e = some a) : deliveredItem e = none := by
  obtain ⟨i, o⟩ := e
  cases i with
  | send a => rfl
  | receive => cases h

variable {capacity : ℕ}

theorem fifo_send_of_lt {xs : List α} (h : xs.length < capacity) (a : α) :
    (fifo α capacity).step xs (.send a) = (xs ++ [a], .sent true) := if_pos h

theorem fifo_send_of_not_lt {xs : List α} (h : ¬ xs.length < capacity) (a : α) :
    (fifo α capacity).step xs (.send a) = (xs, .sent false) := if_neg h

theorem fifo_receive_cons (x : α) (xs : List α) :
    (fifo α capacity).step (x :: xs) .receive = (xs, .received (some x)) := rfl

/-- First in, first out: the accepted items are the delivered ones, then the waiting ones. -/
theorem fifo_accepted_eq (is : List (FifoIn α)) :
    ((fifo α capacity).trace [] is).filterMap acceptedItem =
      ((fifo α capacity).trace [] is).filterMap deliveredItem ++ (fifo α capacity).after [] is := by
  apply Machine.run_induction
    (P := fun xs t => t.filterMap acceptedItem = t.filterMap deliveredItem ++ xs)
  · rfl
  · intro xs t i ht
    rw [List.filterMap_append, List.filterMap_append, ht]
    cases i with
    | send a =>
      by_cases h : xs.length < capacity
      · simp [fifo_send_of_lt h, List.filterMap_cons]
      · simp [fifo_send_of_not_lt h, List.filterMap_cons]
    | receive =>
      cases xs with
      | nil => simp [fifo, List.filterMap_cons]
      | cons x xs => simp [fifo, List.filterMap_cons]

/-! ## Waiting time and bursts -/

/-- The input is a receive. -/
def FifoIn.isReceive : FifoIn α → Bool
  | .receive => true
  | .send _ => false

@[simp] theorem isReceive_receive : (FifoIn.receive : FifoIn α).isReceive = true := rfl

@[simp] theorem isReceive_send (a : α) : (FifoIn.send a).isReceive = false := rfl

/-- The item an input sends. -/
def FifoIn.sentItem : FifoIn α → Option α
  | .receive => none
  | .send a => some a

theorem filterMap_sentItem_trace (xs : List α) (is : List (FifoIn α)) :
    ((fifo α capacity).trace xs is).filterMap (fun e => e.1.sentItem) =
      is.filterMap FifoIn.sentItem := by
  have hmap : ((fifo α capacity).trace xs is).filterMap (fun e => e.1.sentItem) =
      (((fifo α capacity).trace xs is).map Prod.fst).filterMap FifoIn.sentItem := by
    rw [List.filterMap_map]
    rfl
  rw [hmap, Machine.map_fst_trace]

/-- Of the items waiting in a FIFO, the first `n` are among the delivered ones of a run exactly when
the run has `n` receives, whatever is sent in between. -/
theorem fifo_delivered_iff (xs : List α) (is : List (FifoIn α)) {n : ℕ} (hn : n ≤ xs.length) :
    n ≤ (((fifo α capacity).trace xs is).filterMap deliveredItem).length ↔
      n ≤ is.countP FifoIn.isReceive := by
  induction is generalizing xs n with
  | nil => exact Iff.rfl
  | cons i is ih =>
    cases i with
    | send a =>
      by_cases hlt : xs.length < capacity
      · have hlong : n ≤ (xs ++ [a]).length := by
          rw [List.length_append]
          exact Nat.le_add_right_of_le hn
        simpa [fifo_send_of_lt hlt, List.filterMap_cons] using ih (xs ++ [a]) hlong
      · simpa [fifo_send_of_not_lt hlt, List.filterMap_cons] using ih xs hn
    | receive =>
      cases n with
      | zero => simp
      | succ n =>
        cases xs with
        | nil => exact absurd hn (Nat.not_succ_le_zero n)
        | cons x xs =>
          have hrest := ih xs (Nat.le_of_succ_le_succ hn)
          simpa [fifo_receive_cons, List.countP_cons] using hrest

/-- Without receives, a FIFO accepts what is sent until it is full and refuses the rest. -/
theorem fifo_accepted_burst {xs : List α} (h : xs.length ≤ capacity) {is : List (FifoIn α)}
    (hnone : ∀ i ∈ is, i.isReceive = false) :
    ((fifo α capacity).trace xs is).filterMap acceptedItem =
      (is.filterMap FifoIn.sentItem).take (capacity - xs.length) := by
  induction is generalizing xs with
  | nil => simp
  | cons i is ih =>
    have hrest : ∀ j ∈ is, j.isReceive = false := fun j hj => hnone j (List.mem_cons_of_mem i hj)
    cases i with
    | receive => cases hnone _ List.mem_cons_self
    | send a =>
      by_cases hlt : xs.length < capacity
      · have hroom : capacity - xs.length = capacity - (xs ++ [a]).length + 1 := by
          rw [List.length_append, List.length_singleton]
          omega
        have hlong : (xs ++ [a]).length ≤ capacity := by
          rw [List.length_append]
          exact hlt
        simp [fifo_send_of_lt hlt, FifoIn.sentItem, hroom, ih hlong hrest]
      · have hfull : capacity - xs.length = 0 := Nat.sub_eq_zero_of_le (Nat.le_of_not_lt hlt)
        have hnext := ih h hrest
        rw [hfull, List.take_zero] at hnext
        simp [fifo_send_of_not_lt hlt, List.filterMap_cons, hfull, hnext]

/-! ## A reader -/

section Reader

universe v

variable {β : Type v}

/-- A FIFO whose reader folds what it receives into a value. -/
def fifoReader (f : β → α → β) (capacity : ℕ) :
    Machine (List α × β) (FifoIn α) (FifoOut α) where
  step
    | (xs, b), i =>
        let r := (fifo α capacity).step xs i
        ((r.1, (deliveredItem (i, r.2)).elim b (f b)), r.2)

variable {f : β → α → β}

theorem fifoReader_send_of_lt {xs : List α} (h : xs.length < capacity) (b : β) (a : α) :
    (fifoReader f capacity).step (xs, b) (.send a) = ((xs ++ [a], b), .sent true) := by
  simp only [fifoReader]
  rw [fifo_send_of_lt h]
  rfl

theorem fifoReader_send_of_not_lt {xs : List α} (h : ¬ xs.length < capacity) (b : β) (a : α) :
    (fifoReader f capacity).step (xs, b) (.send a) = ((xs, b), .sent false) := by
  simp only [fifoReader]
  rw [fifo_send_of_not_lt h]
  rfl

theorem fifoReader_trace (xs : List α) (b : β) (is : List (FifoIn α)) :
    (fifoReader f capacity).trace (xs, b) is = (fifo α capacity).trace xs is := by
  induction is generalizing xs b with
  | nil => rfl
  | cons i is ih => exact congrArg _ (ih _ _)

theorem fifoReader_after_fst (xs : List α) (b : β) (is : List (FifoIn α)) :
    ((fifoReader f capacity).after (xs, b) is).1 = (fifo α capacity).after xs is := by
  induction is generalizing xs b with
  | nil => rfl
  | cons i is ih => exact ih _ _

/-- The value of the reader is the fold over the delivered items. -/
theorem fifoReader_after_snd (xs : List α) (b : β) (is : List (FifoIn α)) :
    ((fifoReader f capacity).after (xs, b) is).2 =
      (((fifo α capacity).trace xs is).filterMap deliveredItem).foldl f b := by
  induction is generalizing xs b with
  | nil => rfl
  | cons i is ih =>
    rw [Machine.after_cons, Machine.trace_cons, List.filterMap_cons]
    cases hitem : deliveredItem (i, ((fifo α capacity).step xs i).2) with
    | none => simpa [fifoReader, hitem] using ih ((fifo α capacity).step xs i).1 b
    | some x => simpa [fifoReader, hitem] using ih ((fifo α capacity).step xs i).1 (f b x)

end Reader

end CComplete.Library
