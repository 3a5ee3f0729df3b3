import CComplete.RamStorage.Search

/-!
# The representation invariant of the RAM storage

Every call keeps the storage in the relation `Represents` to a list of elements: an accepted element
is appended, a delete drops a prefix and clears its slots, a read changes nothing. On every run of
writes with times that do not decrease, the storage therefore holds the last accepted elements, and
all other slots are zero (`storage_run_consistent`).
-/

set_option autoImplicit false

namespace CComplete.RamStorage

open CComplete.Library

/-! ## What the runs preserve -/

/-- The element that a step of a run accepted. -/
def acceptedElement : Op × Reply → Option Element
  | (.writeElement element, .code code) => if code = 0 then some element else none
  | _ => none

/-- The handler and the heap agree on the elements `live`, the capacity being `L`. -/
structure Consistent (L : ℕ) (s : Storage) (live : List Element) : Prop where
  head : s.handler.head = heapElement 0
  tail : s.handler.tail = heapElement (L - 1)
  maxNumberOfElements : s.handler.maxNumberOfElements = L
  numberOfElements_le : s.handler.numberOfElements ≤ L
  writeTo : ∃ i, i < L ∧ s.handler.writeTo = heapElement i
  live : liveElements s = live
  others : ∀ i, i < L →
    (∀ j, j < s.handler.numberOfElements → liveAddress s.handler j ≠ heapElement i) →
      elementCodec.Stored s.heap (heapElement i) zeroElement

/-- The counter of a storage with an element does not wrap when it is lowered. -/
theorem decremented {n : ℕ} (hn : n < maxElementsToStore) :
    toUnsignedInt (((n + 1 : ℕ) : ℤ) - 1) = n := by
  rw [Nat.cast_add, Nat.cast_one, add_sub_cancel_right]
  exact toUnsignedInt_of_lt (by rw [maxElementsToStore] at hn; omega)

theorem stored_storeElement (m : Memory) (a : ℤ) (e : Element) :
    elementCodec.Stored (storeElement m a e) a e :=
  Codec.stored_copyIn (elementCodec.bufferBytes_encode e)

theorem stored_clearElement (m : Memory) (a : ℤ) :
    elementCodec.Stored (clearElement m a) a zeroElement := by
  have hzero : bufferBytes (fun _ => 0) elementCodec.size = elementCodec.encode zeroElement := by
    decide
  exact Codec.stored_copyIn hzero

namespace Holds

variable {L : ℕ+} {o : ℕ} {s : Storage} {es : List Element}

/-! ## Observations -/

theorem liveAddress_eq (h : Holds L o s es) {i : ℕ} (hi : i ≤ es.length) :
    liveAddress s.handler i = (ring L).addr (o + i) :=
  h.shape.liveAddress_eq (h.numberOfElements.symm ▸ h.writeTo) (h.numberOfElements.symm ▸ hi)

theorem elementAt_live (h : Holds L o s es) {i : ℕ} (hi : i < es.length) :
    elementAt s.heap ((ring L).addr (o + i)) = es[i] :=
  (h.elements i hi).decode_block

theorem liveElements_eq (h : Holds L o s es) : liveElements s = es := by
  apply List.ext_getElem
  · simp [liveElements, h.numberOfElements]
  · intro i _ hi
    have hread := h.elementAt_live hi
    rw [← h.liveAddress_eq hi.le] at hread
    simpa [liveElements] using hread

/-! ## Write -/

theorem writeElement_refused (h : Holds L o s es) (hfull : es.length = L) (e : Element) :
    writeElement s e = (1, s) := by
  rw [writeElement, h.numberOfElements, h.maxNumberOfElements, if_neg (by omega)]

/-- A write keeps what the slots other than the one at `write_to` hold. -/
theorem stored_writeElement (h : Holds L o s es) (hroom : es.length < L) (e : Element)
    {x : Element} {j : ℕ} (hj : j ≠ es.length) (hlt : j < L)
    (hx : elementCodec.Stored s.heap ((ring L).addr (o + j)) x) :
    elementCodec.Stored (writeElement s e).2.heap ((ring L).addr (o + j)) x := by
  rw [writeElement, h.numberOfElements, h.maxNumberOfElements, if_pos hroom, h.writeTo]
  show elementCodec.Stored (storeElement s.heap ((ring L).addr (o + es.length)) e) _ x
  exact hx.copyIn_of_disjoint ((ring L).addr_add_disjoint o hj.symm hroom hlt)

/-- A write with room appends the element. -/
theorem writeElement_accepted (h : Holds L o s es) (hroom : es.length < L) (e : Element) :
    (writeElement s e).1 = 0 ∧ Holds L o (writeElement s e).2 (es ++ [e]) := by
  have hcap := h.shape.capacity
  have hnumber : toUnsignedInt ((es.length : ℤ) + 1) = es.length + 1 :=
    toUnsignedInt_of_lt (n := es.length + 1) (by rw [maxElementsToStore] at hcap; omega)
  have hkept := h.elements.mono fun i hi x hx =>
    h.stored_writeElement hroom e hi.ne (hi.trans hroom) hx
  rw [writeElement, h.numberOfElements, h.maxNumberOfElements, if_pos hroom] at hkept ⊢
  refine ⟨rfl, ?_⟩
  exact
    { shape := ⟨hcap, h.shape.head, h.shape.tail⟩
      writeTo := by
        rw [List.length_append, List.length_singleton, ← Nat.add_assoc, ← h.shape.ascending,
          ← h.writeTo]
      numberOfElements := by
        rw [hnumber, List.length_append, List.length_singleton]
      maxNumberOfElements := h.maxNumberOfElements
      bounded := by
        rw [List.length_append, List.length_singleton]
        omega
      elements := by
        refine hkept.snoc ?_
        rw [← h.writeTo]
        exact stored_storeElement _ _ e }

end Holds

namespace Represents

variable {L : ℕ+} {o : ℕ} {s : Storage} {es : List Element}

theorem consistent (h : Represents L o s es) : Consistent L s es where
  head := h.head
  tail := h.tail.trans (ring_last L)
  maxNumberOfElements := h.maxNumberOfElements
  numberOfElements_le := h.numberOfElements ▸ h.bounded
  writeTo := ⟨_, Nat.mod_lt _ L.pos, h.writeTo.trans (ring_addr L _)⟩
  live := h.holds.liveElements_eq
  others := by
    intro i hi hother
    -- the slot has some number `j` from the oldest on, and it is not one of the live ones
    obtain ⟨j, hj, haddr⟩ := (ring L).exists_addr_add_eq o i
    rw [ring_addr L i, Nat.mod_eq_of_lt hi] at haddr
    rw [← haddr]
    refine h.zeros j ?_ hj
    by_contra hlive
    have hlt : j < es.length := Nat.lt_of_not_le hlive
    exact hother j (h.numberOfElements ▸ hlt) ((h.holds.liveAddress_eq hlt.le).trans haddr)

/-! ## Write -/

/-- A write with room and a time that is not below the earlier ones appends the element. -/
theorem writeElement_accepted (h : Represents L o s es) (hroom : es.length < L) {e : Element}
    (hlast : ∀ x ∈ es, x.time ≤ e.time) :
    (writeElement s e).1 = 0 ∧ Represents L o (writeElement s e).2 (es ++ [e]) := by
  obtain ⟨hcode, hnext⟩ := h.holds.writeElement_accepted hroom e
  refine ⟨hcode, ?_⟩
  exact
    { capacity := hnext.shape.capacity
      head := hnext.shape.head
      tail := hnext.shape.tail
      writeTo := hnext.writeTo
      numberOfElements := hnext.numberOfElements
      maxNumberOfElements := hnext.maxNumberOfElements
      bounded := hnext.bounded
      elements := hnext.elements
      zeros := by
        intro j hj hjL
        rw [List.length_append, List.length_singleton] at hj
        exact h.holds.stored_writeElement hroom e (by omega) hjL (h.zeros j (by omega) hjL)
      ordered := h.ordered.snoc fun x hx => UInt32.le_iff_toNat_le.1 (hlast x hx) }

/-! ## Delete -/

/-- Clearing the oldest element drops it. -/
theorem clearOldest {e : Element} (h : Represents L o s (e :: es)) :
    Represents L (o + 1)
      { handler :=
          { s.handler with
            numberOfElements := toUnsignedInt ((s.handler.numberOfElements : ℤ) - 1) }
        heap := clearElement s.heap ((ring L).addr o) } es := by
  have hcap := h.capacity
  have hbound := h.bounded
  rw [List.length_cons] at hbound
  have hnumber : toUnsignedInt ((s.handler.numberOfElements : ℤ) - 1) = es.length := by
    rw [h.numberOfElements, List.length_cons]
    exact decremented (by omega)
  -- the slots after the oldest one keep what they hold
  have hother : ∀ {x : Element} {j : ℕ}, j + 1 < L →
      elementCodec.Stored s.heap ((ring L).addr (o + (j + 1))) x →
      elementCodec.Stored (clearElement s.heap ((ring L).addr o))
        ((ring L).addr (o + 1 + j)) x := by
    intro x j hlt hx
    rw [Nat.add_right_comm o 1 j, Nat.add_assoc o j 1]
    exact hx.copyIn_of_disjoint
      ((ring L).addr_add_disjoint o (Nat.zero_ne_add_one j) L.pos hlt)
  exact
    { capacity := hcap
      head := h.head
      tail := h.tail
      writeTo := by
        rw [Nat.add_right_comm, Nat.add_assoc]
        exact h.writeTo
      numberOfElements := hnumber
      maxNumberOfElements := h.maxNumberOfElements
      bounded := by omega
      elements := by
        intro i hi
        exact hother (by omega) (h.elements (i + 1) (Nat.succ_lt_succ hi))
      zeros := by
        intro j hj hjL
        rcases Nat.lt_or_eq_of_le (show j + 1 ≤ L from hjL) with hlt | heq
        · exact hother hlt (h.zeros (j + 1) (Nat.succ_le_succ hj) hlt)
        · -- the last slot from the new oldest one on is the cleared one
          have haddr : (ring L).addr (o + 1 + j) = (ring L).addr o := ring_addr_turn (by omega)
          rw [haddr]
          exact stored_clearElement _ _
      ordered := h.ordered.of_cons }

/-- The delete loop drops the elements it clears. -/
theorem deleteLoop (k : ℕ) :
    ∀ {o : ℕ} {s : Storage} {es : List Element}, Represents L o s es → k ≤ es.length →
      Represents L (o + k) (deleteLoop k ((ring L).addr o) s) (es.drop k) := by
  induction k with
  | zero =>
    intro o s es h _
    exact h
  | succ k ih =>
    intro o s es h hk
    cases es with
    | nil => exact absurd hk (Nat.not_succ_le_zero k)
    | cons e es =>
      rw [RamStorage.deleteLoop, h.shape.ascending, List.drop_succ_cons,
        show o + (k + 1) = o + 1 + k by omega]
      exact ih h.clearOldest (Nat.le_of_succ_le_succ hk)

/-- A delete drops some of the elements up to the time, at least one if there is any. -/
theorem deleteUpToTime_cases (h : Represents L o s es) (time : UInt32) :
    (upToCount Element.timeNat time.toNat es = 0 ∧ deleteUpToTime s time = (-1, s)) ∨
      ∃ k, 0 < k ∧ k ≤ upToCount Element.timeNat time.toNat es ∧
        k = getNumberOfElementsBetweenPositions s.handler ((ring L).addr o)
          ((ring L).addr (o + (upToCount Element.timeNat time.toNat es - 1))) ∧
        (deleteUpToTime s time).1 = 0 ∧
        Represents L (o + k) (deleteUpToTime s time).2 (es.drop k) := by
  have hsearch := h.searchDeleteLoop_eq time
  have hle : upToCount Element.timeNat time.toNat es ≤ es.length := upToCount_le_length
  have hbound := h.bounded
  rcases Nat.eq_zero_or_pos (upToCount Element.timeNat time.toNat es) with hzero | hpos
  · rw [if_neg (by omega)] at hsearch
    refine Or.inl ⟨hzero, ?_⟩
    rw [deleteUpToTime, hsearch]
  · -- the count may be one short, so fewer than all elements up to the time may go
    rw [if_pos hpos] at hsearch
    obtain ⟨hk, hk'⟩ := h.shape.count_bounds o (Nat.zero_le _)
      (show upToCount Element.timeNat time.toNat es - 1 < (L : ℕ) by omega)
    rw [Nat.add_zero] at hk hk'
    refine Or.inr ⟨_, hk, by omega, rfl, ?_⟩
    rw [deleteUpToTime, hsearch]
    exact ⟨rfl, h.deleteLoop _ (by omega)⟩

/-! ## Steps and runs -/

/-- A step appends the element it accepted and drops a prefix. -/
theorem step (h : Represents L o s es) (op : Op)
    (hlast : ∀ e, acceptedElement (op, (system.step s op).2) = some e →
      ∀ x ∈ es, x.time ≤ e.time) :
    ∃ o' k, Represents L o' (system.step s op).1
      ((es ++ (acceptedElement (op, (system.step s op).2)).toList).drop k) := by
  cases op with
  | writeElement e =>
    have hstep : system.step s (.writeElement e) =
        ((writeElement s e).2, .code (writeElement s e).1) := rfl
    rw [hstep, acceptedElement] at hlast ⊢
    refine ⟨o, 0, ?_⟩
    rw [List.drop_zero]
    -- room for the element, or the storage is full
    rcases Nat.lt_or_eq_of_le h.bounded with hroom | hfull
    · have hcode : (writeElement s e).1 = 0 := by
        rw [writeElement, h.numberOfElements, h.maxNumberOfElements, if_pos hroom]
      rw [if_pos hcode] at hlast ⊢
      exact (h.writeElement_accepted hroom (hlast e rfl)).2
    · rw [h.holds.writeElement_refused hfull, if_neg (show (1 : ℤ) ≠ 0 by decide),
        Option.toList_none, List.append_nil]
      exact h
  | readElementsBetweenTwoDates elements maxElementToRead readNumber startTime endTime =>
    refine ⟨o, 0, ?_⟩
    have hnone : ∀ reply, acceptedElement (.readElementsBetweenTwoDates elements maxElementToRead
        readNumber startTime endTime, reply) = none := fun _ => rfl
    rw [hnone, Option.toList_none, List.append_nil]
    exact h
  | deleteUpToTime time =>
    have hnone : ∀ reply, acceptedElement (.deleteUpToTime time, reply) = none := fun _ => rfl
    rw [hnone, Option.toList_none, List.append_nil]
    rcases h.deleteUpToTime_cases time with ⟨-, hcall⟩ | ⟨k, -, -, -, -, hdropped⟩
    · refine ⟨o, 0, ?_⟩
      have hkeep : (system.step s (.deleteUpToTime time)).1 = s := congrArg Prod.snd hcall
      rw [hkeep]
      exact h
    · exact ⟨o + k, k, hdropped⟩

end Represents

/-! ## Initialization -/

theorem stored_cleanHeap (m : Memory) {i : ℕ} (hi : i < maxElementsToStore) :
    elementCodec.Stored (cleanHeap m) (heapElement i) zeroElement := by
  have hclean : ∀ n, ∀ i, i < n →
      elementCodec.Stored ((List.range n).foldl (fun m i => clearElement m (heapElement i)) m)
        (heapElement i) zeroElement := by
    intro n
    induction n with
    | zero => exact fun i hi => absurd hi (Nat.not_lt_zero i)
    | succ n ih =>
      intro i hi
      rw [List.range_succ, List.foldl_concat]
      rcases Nat.lt_or_eq_of_le (Nat.le_of_lt_succ hi) with hlt | rfl
      · refine (ih i hlt).copyIn_of_disjoint (Or.inr ?_)
        show heapElement i + sizeofElement ≤ heapElement n
        rw [heapElement, heapElement, sizeofElement]
        omega
      · exact stored_clearElement _ _
  exact hclean maxElementsToStore i hi

/-- An accepted length is the capacity of an empty storage. -/
theorem represents_init (s : Storage) {length : UInt32} (hlength : 1 ≤ length)
    (hinit : (initRamMemoryStorage s length).1 = 0) :
    ∃ L : ℕ+, (L : ℕ) = length.toNat ∧
      Represents L 0 (initRamMemoryStorage s length).2 [] := by
  have hpos : 1 ≤ length.toNat := UInt32.le_iff_toNat_le.1 hlength
  by_cases hle : length.toNat ≤ maxElementsToStore
  · let L : ℕ+ := ⟨length.toNat, hpos⟩
    have htail : (length - 1).toNat = (L : ℕ) - 1 := UInt32.toNat_sub_of_le _ _ hlength
    refine ⟨L, rfl, ?_⟩
    rw [initRamMemoryStorage, createMemoryStorage, if_pos hle]
    exact
      { capacity := hle
        head := rfl
        tail := by
          rw [ring_last, ← htail]
        writeTo := ((ring L).addr_zero).symm
        numberOfElements := rfl
        maxNumberOfElements := rfl
        bounded := Nat.zero_le _
        elements := Ring.segment_nil
        zeros := by
          intro j _ hj
          rw [Nat.zero_add, ring_addr, Nat.mod_eq_of_lt hj]
          exact stored_cleanHeap s.heap (hj.trans_le hle)
        ordered := List.Pairwise.nil }
  · rw [initRamMemoryStorage, createMemoryStorage, if_neg hle] at hinit
    exact absurd hinit (show (1 : ℤ) ≠ 0 by decide)

/-- The times of the accepted elements are among the written ones, in order. -/
theorem acceptedTimes_sublist (s : Storage) (ops : List Op) :
    (((system.trace s ops).filterMap acceptedElement).map Element.time).Sublist
      (ops.filterMap Op.writtenTime) := by
  induction ops generalizing s with
  | nil => exact List.Sublist.refl _
  | cons op ops ih =>
    have hrest := ih (system.step s op).1
    rw [Machine.trace_cons]
    cases op with
    | writeElement e =>
      rw [List.filterMap_cons_some (show Op.writtenTime (.writeElement e) = some e.time from rfl)]
      by_cases hcode : (writeElement s e).1 = 0
      · have hacc : acceptedElement (.writeElement e, (system.step s (.writeElement e)).2) =
            some e := if_pos hcode
        rw [List.filterMap_cons_some hacc]
        exact hrest.cons_cons e.time
      · -- the time of a refused write is left out
        have hacc : acceptedElement (.writeElement e, (system.step s (.writeElement e)).2) =
            none := if_neg hcode
        rw [List.filterMap_cons_none hacc]
        exact hrest.cons e.time
    | readElementsBetweenTwoDates => exact hrest
    | deleteUpToTime => exact hrest

/-- After every run of writes with times that do not decrease, reads and deletes from an accepted
`init`, the storage holds the last accepted elements. -/
theorem represents_run (s₀ : Storage) {length : UInt32} (hlength : 1 ≤ length)
    (hinit : (initRamMemoryStorage s₀ length).1 = 0) {ops : List Op}
    (htimes : (ops.filterMap Op.writtenTime).Pairwise (· ≤ ·)) :
    let start := (initRamMemoryStorage s₀ length).2
    ∃ (L : ℕ+) (o : ℕ) (dropped es : List Element), (L : ℕ) = length.toNat ∧
      Represents L o (system.after start ops) es ∧
        (system.trace start ops).filterMap acceptedElement = dropped ++ es := by
  intro start
  obtain ⟨L, hL, h₀⟩ := represents_init s₀ hlength hinit
  -- the times are the ones written, in order, without those of the refused writes
  have haccepted := List.pairwise_map.1 (htimes.sublist (acceptedTimes_sublist start ops))
  obtain ⟨dropped, es, ⟨o, h⟩, hhistory⟩ := system.suffix_of_history
    (R := fun s es => ∃ o, Represents L o s es) (Q := fun a b : Element => a.time ≤ b.time)
    start ⟨0, h₀⟩ (fun s op es ⟨o, h⟩ hlast => by
      obtain ⟨o', k, hnext⟩ := h.step op hlast
      exact ⟨k, o', hnext⟩) ops haccepted
  exact ⟨L, o, dropped, es, hL, h, hhistory⟩

/-- After every run, from an accepted `init`, of writes with times that do not decrease, reads and
deletes: handler and heap agree on the last accepted elements, all other slots are zero, a write is
refused exactly when the storage is full, and a delete drops a prefix of the elements, none of which
is newer than one it keeps. -/
theorem storage_run_consistent (s₀ : Storage) (length : UInt32) (hlength : 1 ≤ length)
    (hinit : (initRamMemoryStorage s₀ length).1 = 0) (ops : List Op)
    (htimes : (ops.filterMap Op.writtenTime).Pairwise (· ≤ ·)) :
    let start := (initRamMemoryStorage s₀ length).2
    let s := system.after start ops
    let accepted := (system.trace start ops).filterMap acceptedElement
    let live := accepted.drop (accepted.length - s.handler.numberOfElements)
    Consistent length.toNat s live ∧ live.length = s.handler.numberOfElements ∧
      (∀ e, (writeElement s e).1 ≠ 0 ↔ s.handler.numberOfElements = length.toNat) ∧
      ∀ time, ∃ k, liveElements (deleteUpToTime s time).2 = live.drop k ∧
        ∀ removed ∈ live.take k, ∀ kept ∈ live.drop k, removed.time ≤ kept.time := by
  intro start s accepted live
  obtain ⟨L, o, dropped, es, hL, h, hhistory⟩ := represents_run s₀ hlength hinit htimes
  have hlive : live = es := Machine.drop_of_history hhistory h.numberOfElements
  rw [hlive, ← hL]
  refine ⟨h.consistent, h.numberOfElements.symm, fun e => ?_, fun time => ?_⟩
  · have hbound := h.bounded
    rw [writeElement, h.numberOfElements, h.maxNumberOfElements]
    split <;> simp <;> omega
  · -- whatever prefix is removed, the order of the elements puts it first
    have hordered : ∀ k, ∀ removed ∈ es.take k, ∀ kept ∈ es.drop k,
        removed.time ≤ kept.time := by
      intro k
      have hsplit := h.ordered
      rw [OrderedBy, ← List.take_append_drop k es, List.pairwise_append] at hsplit
      exact fun removed hr kept hk => UInt32.le_iff_toNat_le.2 (hsplit.2.2 removed hr kept hk)
    rcases h.deleteUpToTime_cases time with ⟨-, hcall⟩ | ⟨k, -, -, -, -, hdropped⟩
    · refine ⟨0, ?_, hordered 0⟩
      rw [hcall]
      exact h.holds.liveElements_eq
    · exact ⟨k, hdropped.holds.liveElements_eq, hordered k⟩

/-- Three slots: the fourth write is refused, and after a delete the next write wraps. -/
theorem storage_run_consistent_wrapped :
    let start := (initRamMemoryStorage zeroStorage 3).2
    let s := system.after start [writeAt 1, writeAt 2, writeAt 3, writeAt 4, .deleteUpToTime 1,
      writeAt 5]
    (liveElements s).map Element.time = [2, 3, 5] := by
  intro start s
  have hrun := storage_run_consistent zeroStorage 3 (by decide) (by decide)
    [writeAt 1, writeAt 2, writeAt 3, writeAt 4, .deleteUpToTime 1, writeAt 5] (by decide)
  exact (congrArg (List.map Element.time) hrun.1.live).trans (by decide +kernel)

end CComplete.RamStorage
