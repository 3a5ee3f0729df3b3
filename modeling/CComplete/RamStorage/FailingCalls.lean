import CComplete.RamStorage.DeleteAnyOrder

/-!
# What a failing call changes

From the start of the program on, whatever is called with whatever times, the handler is idle or
that of a ring with its counter within the capacity (`kept_program`). A write, a read or a delete
that fails leaves the storage as it is. An initialization clears the heap before it checks the
length, so one that fails loses what is stored (`failing_call_unchanged_iff`).
-/

set_option autoImplicit false

namespace CComplete.RamStorage

open CComplete.Library

/-- A storage without capacity: not initialized, or with length 0. -/
structure Idle (m : MemoryStorage) : Prop where
  numberOfElements : m.numberOfElements = 0
  maxNumberOfElements : m.maxNumberOfElements = 0

/-- The handler is that of a ring of `L` slots, with a position in the ring and a counter within the
capacity. -/
structure InRing (L : ℕ+) (m : MemoryStorage) : Prop where
  shape : Shape L m
  writeTo : ∃ i, m.writeTo = (ring L).addr i
  numberOfElements_le : m.numberOfElements ≤ L
  maxNumberOfElements : m.maxNumberOfElements = L

theorem Represents.inRing {L : ℕ+} {o : ℕ} {s : Storage} {es : List Element}
    (h : Represents L o s es) : InRing L s.handler where
  shape := h.shape
  writeTo := ⟨_, h.writeTo⟩
  numberOfElements_le := h.numberOfElements.trans_le h.bounded
  maxNumberOfElements := h.maxNumberOfElements

/-! ## The delete search with times in any order -/

section DeleteSearch

variable {L : ℕ+} {o : ℕ} {s : Storage} {time : UInt32}

/-- The delete search answers with two live elements, the first not after the last. -/
theorem Shape.searchDeleteLoop_bounds (h : Shape L s.handler) {first last : ℤ} (j : ℕ) :
    ∀ (counter : ℕ) (endDelete : Option ℤ), j ≤ s.handler.numberOfElements →
      (∀ a ∈ endDelete, ∃ e, j ≤ e ∧ e < s.handler.numberOfElements ∧
        a = (ring L).addr (o + e)) →
      searchDeleteLoop s time j counter
          (updateDescendingBrowser s.handler ((ring L).addr (o + j))) endDelete =
        some (first, last) →
      ∃ b e, b ≤ e ∧ e < s.handler.numberOfElements ∧ first = (ring L).addr (o + b) ∧
        last = (ring L).addr (o + e) := by
  induction j with
  | zero =>
    intro counter endDelete _ _ hsome
    cases hsome
  | succ j ih =>
    intro counter endDelete hj hend hsome
    -- the newest element to delete is this one or one met before
    have hnewest : ∃ e, j ≤ e ∧ e < s.handler.numberOfElements ∧
        endDelete.getD ((ring L).addr (o + j)) = (ring L).addr (o + e) := by
      cases endDelete with
      | none => exact ⟨j, le_rfl, hj, rfl⟩
      | some a =>
        obtain ⟨e, hje, he, ha⟩ := hend a rfl
        exact ⟨e, Nat.le_of_succ_le hje, he, ha⟩
    rw [searchDeleteLoop, ← Nat.add_assoc, h.descending] at hsome
    split_ifs at hsome
    · obtain ⟨e, hje, he, ha⟩ := hnewest
      cases hsome
      exact ⟨j, e, hje, he, rfl, ha⟩
    · apply ih (counter + 1) _ (Nat.le_of_succ_le hj) _ hsome
      intro a ha
      cases ha
      exact hnewest
    · obtain ⟨e, hje, he, ha⟩ := hnewest
      cases hsome
      exact ⟨j, e, hje, he, rfl, ha⟩
    · apply ih (counter + 1) _ (Nat.le_of_succ_le hj) _ hsome
      intro a ha
      obtain ⟨e, hje, he, heq⟩ := hend a ha
      exact ⟨e, Nat.le_of_succ_le hje, he, heq⟩

end DeleteSearch

/-! ## What every call keeps -/

theorem Idle.searchDeleteLoop_eq {s : Storage} (h : Idle s.handler) (time : UInt32) (browser : ℤ) :
    searchDeleteLoop s time s.handler.numberOfElements 0 browser none = none := by
  rw [h.numberOfElements, searchDeleteLoop]

/-- Without capacity nothing is written, and a delete finds nothing. -/
theorem Idle.step {s : Storage} (h : Idle s.handler) (op : Op) : (system.step s op).1 = s := by
  cases op with
  | writeElement element =>
    show (writeElement s element).2 = s
    rw [writeElement, if_neg]
    rw [h.numberOfElements, h.maxNumberOfElements]
    exact lt_irrefl 0
  | readElementsBetweenTwoDates => rfl
  | deleteUpToTime time =>
    show (deleteUpToTime s time).2 = s
    rw [deleteUpToTime, h.searchDeleteLoop_eq]

namespace InRing

variable {L : ℕ+} {s : Storage}

/-- The position, counted from the oldest live element on. -/
theorem exists_oldest (h : InRing L s.handler) :
    ∃ o, s.handler.writeTo = (ring L).addr (o + s.handler.numberOfElements) := by
  obtain ⟨i, hi⟩ := h.writeTo
  have hle := h.numberOfElements_le
  refine ⟨i + L - s.handler.numberOfElements, ?_⟩
  rw [hi]
  exact (ring_addr_turn (by omega)).symm

theorem writeElement (h : InRing L s.handler) (element : Element) :
    InRing L (writeElement s element).2.handler := by
  rw [RamStorage.writeElement]
  split
  · next hroom =>
    obtain ⟨i, hi⟩ := h.writeTo
    rw [h.maxNumberOfElements] at hroom
    have hcap := h.shape.capacity
    have hnumber : toUnsignedInt ((s.handler.numberOfElements : ℤ) + 1) =
        s.handler.numberOfElements + 1 :=
      toUnsignedInt_of_lt (n := s.handler.numberOfElements + 1)
        (by rw [maxElementsToStore] at hcap; omega)
    refine ⟨⟨hcap, h.shape.head, h.shape.tail⟩, ⟨i + 1, ?_⟩, ?_, h.maxNumberOfElements⟩
    · show ascending s.handler s.handler.writeTo = _
      rw [hi, h.shape.ascending]
    · show toUnsignedInt ((s.handler.numberOfElements : ℤ) + 1) ≤ L
      rw [hnumber]
      exact hroom
  · exact h

/-- A delete changes the counter only, and does not raise it. -/
theorem deleteUpToTime_handler (h : InRing L s.handler) (time : UInt32) :
    ∃ n ≤ s.handler.numberOfElements,
      (deleteUpToTime s time).2.handler = { s.handler with numberOfElements := n } := by
  obtain ⟨o, ho⟩ := h.exists_oldest
  have hle := h.numberOfElements_le
  cases hsearch : searchDeleteLoop s time s.handler.numberOfElements 0
      (updateDescendingBrowser s.handler s.handler.writeTo) none with
  | none =>
    refine ⟨s.handler.numberOfElements, le_rfl, ?_⟩
    rw [deleteUpToTime, hsearch]
  | some found =>
    obtain ⟨first, last⟩ := found
    have hsearch' := hsearch
    rw [ho] at hsearch'
    obtain ⟨b, e, hbe, he, rfl, rfl⟩ := h.shape.searchDeleteLoop_bounds _ 0 none le_rfl
      (fun _ ha => absurd ha (Option.not_mem_none _)) hsearch'
    -- the count is not larger than the number of live elements, so the counter does not wrap
    obtain ⟨-, hcount⟩ := h.shape.count_bounds o hbe (show e < (L : ℕ) by omega)
    generalize hk : getNumberOfElementsBetweenPositions s.handler ((ring L).addr (o + b))
      ((ring L).addr (o + e)) = k at hcount
    refine ⟨s.handler.numberOfElements - k, Nat.sub_le _ _, ?_⟩
    rw [deleteUpToTime, hsearch]
    simp only [hk]
    exact (Shape.deleteLoop_spec k (o + b) h.shape (n := s.handler.numberOfElements - k) (by omega)
      (by omega)).1

theorem step (h : InRing L s.handler) (op : Op) : InRing L (system.step s op).1.handler := by
  cases op with
  | writeElement element => exact h.writeElement element
  | readElementsBetweenTwoDates => exact h
  | deleteUpToTime time =>
    obtain ⟨n, hn, hhandler⟩ := h.deleteUpToTime_handler time
    show InRing L (deleteUpToTime s time).2.handler
    rw [hhandler]
    exact ⟨⟨h.shape.capacity, h.shape.head, h.shape.tail⟩, h.writeTo,
      hn.trans h.numberOfElements_le, h.maxNumberOfElements⟩

end InRing

/-- Idle, or a ring of some length. -/
def Kept (m : MemoryStorage) : Prop := Idle m ∨ ∃ L, InRing L m

theorem one_le_of_ne_zero {length : UInt32} (h : length ≠ 0) : 1 ≤ length :=
  UInt32.le_iff_toNat_le.2 (UInt32.lt_iff_toNat_lt.1 (UInt32.pos_iff_ne_zero.2 h))

/-- An initialization with a length that is too large clears the heap and leaves the handler. -/
theorem initRamMemoryStorage_refused (s : Storage) {length : UInt32}
    (h : maxElementsToStore < length.toNat) :
    initRamMemoryStorage s length = (1, { s with heap := cleanHeap s.heap }) := by
  rw [initRamMemoryStorage, createMemoryStorage, if_neg (not_le.2 h)]

theorem kept_initRamMemoryStorage {s : Storage} (h : Kept s.handler) (length : UInt32) :
    Kept (initRamMemoryStorage s length).2.handler := by
  rcases Nat.lt_or_ge maxElementsToStore length.toNat with hlong | hle
  · rw [initRamMemoryStorage_refused s hlong]
    exact h
  · have hcode : (initRamMemoryStorage s length).1 = 0 := by
      rw [initRamMemoryStorage, createMemoryStorage, if_pos hle]
    by_cases hempty : length = 0
    · subst hempty
      exact Or.inl ⟨rfl, rfl⟩
    · obtain ⟨L, -, hinit⟩ := represents_init s (one_le_of_ne_zero hempty) hcode
      exact Or.inr ⟨L, hinit.inRing⟩

theorem kept_program (calls : List Call) : Kept (program.after zeroStorage calls).handler := by
  apply program.after_induction (P := fun s => Kept s.handler)
  · exact Or.inl ⟨rfl, rfl⟩
  · intro s call h
    cases call with
    | initRamMemoryStorage length => exact kept_initRamMemoryStorage h length
    | operate op =>
      rcases h with hidle | ⟨L, hring⟩
      · refine Or.inl ?_
        show Idle (system.step s op).1.handler
        rw [hidle.step op]
        exact hidle
      · exact Or.inr ⟨L, hring.step op⟩

/-! ## Failing calls -/

/-- A write, a read or a delete that fails leaves the storage as it is. -/
theorem system_step_failing {s : Storage} {op : Op}
    (h : (system.step s op).2.returnCode ≠ 0) : (system.step s op).1 = s := by
  cases op with
  | writeElement element =>
    have hcode : (writeElement s element).1 ≠ 0 := h
    show (writeElement s element).2 = s
    rw [writeElement] at hcode ⊢
    split at hcode
    · exact absurd rfl hcode
    · next hfull => rw [if_neg hfull]
  | readElementsBetweenTwoDates => rfl
  | deleteUpToTime time =>
    have hcode : (deleteUpToTime s time).1 ≠ 0 := h
    show (deleteUpToTime s time).2 = s
    rw [deleteUpToTime] at hcode ⊢
    split at hcode
    · rfl
    · exact absurd rfl hcode

/-- A call that fails leaves the handler and the live elements as they are. -/
def FailsUnchanged (s : Storage) (call : Call) : Prop :=
  (program.step s call).2.returnCode ≠ 0 →
    (program.step s call).1.handler = s.handler ∧
      liveElements (program.step s call).1 = liveElements s

/-- Clearing the heap makes zeros of all live elements. -/
theorem liveElements_cleanHeap {s : Storage} (h : Kept s.handler) :
    liveElements { s with heap := cleanHeap s.heap } =
      List.replicate s.handler.numberOfElements zeroElement := by
  rcases h with hidle | ⟨L, hring⟩
  · rw [liveElements]
    show (List.range s.handler.numberOfElements).map _ = _
    rw [hidle.numberOfElements]
    rfl
  · obtain ⟨o, ho⟩ := hring.exists_oldest
    rw [List.eq_replicate_iff]
    refine ⟨by rw [liveElements, List.length_map, List.length_range], fun e he => ?_⟩
    obtain ⟨i, hi, rfl⟩ := List.mem_map.1 he
    have hlt := List.mem_range.1 hi
    have haddr : liveAddress s.handler i = heapElement ((o + i) % L) :=
      (hring.shape.liveAddress_eq ho hlt.le).trans (ring_addr L _)
    show elementAt (cleanHeap s.heap) (liveAddress s.handler i) = zeroElement
    rw [haddr]
    exact (stored_cleanHeap s.heap
      ((Nat.mod_lt _ L.pos).trans_le hring.shape.capacity)).decode_block

/-- In every state that a program reaches from its start: a call that fails leaves the handler and
the live elements as they are if and only if it is not an initialization with a length that is too
large, or all live elements are zero. -/
theorem failing_call_unchanged_iff (calls : List Call) (call : Call) :
    let s := program.after zeroStorage calls
    FailsUnchanged s call ↔
      ∀ length, call = .initRamMemoryStorage length → maxElementsToStore < length.toNat →
        ∀ e ∈ liveElements s, e = zeroElement := by
  intro s
  have hkept : Kept s.handler := kept_program calls
  clear_value s
  cases call with
  | operate op =>
    refine iff_of_true (fun hfails => ?_) fun _ hno => nomatch hno
    have hsame : (program.step s (.operate op)).1 = s := system_step_failing hfails
    rw [hsame]
    exact ⟨rfl, rfl⟩
  | initRamMemoryStorage length =>
    have hlive := liveElements_cleanHeap hkept
    have hlength : (liveElements s).length = s.handler.numberOfElements := by
      rw [liveElements, List.length_map, List.length_range]
    rcases Nat.lt_or_ge maxElementsToStore length.toNat with hlong | hle
    · have hstep : program.step s (.initRamMemoryStorage length) =
          ({ s with heap := cleanHeap s.heap }, .code 1) := by
        show ((initRamMemoryStorage s length).2, Reply.code (initRamMemoryStorage s length).1) = _
        rw [initRamMemoryStorage_refused s hlong]
      rw [FailsUnchanged, hstep, hlive]
      constructor
      · rintro hunchanged length' - - e he
        have heq := (hunchanged (show (1 : ℤ) ≠ 0 by decide)).2
        rw [← heq] at he
        exact List.eq_of_mem_replicate he
      · intro hzero _
        refine ⟨rfl, (List.eq_replicate_iff.2 ⟨hlength, ?_⟩).symm⟩
        exact hzero length rfl hlong
    · refine iff_of_true (fun hfails => ?_) fun length' heq hlong => ?_
      · have hcode : (initRamMemoryStorage s length).1 = 0 := by
          rw [initRamMemoryStorage, createMemoryStorage, if_pos hle]
        exact absurd hcode hfails
      · cases heq
        omega

/-- Three slots and one element: an initialization with length 6 fails and the element is lost. -/
theorem refused_init_clears :
    ¬ FailsUnchanged (program.after zeroStorage [.initRamMemoryStorage 3, .operate (writeAt 1)])
      (.initRamMemoryStorage 6) := by
  intro hunchanged
  have hlive := (hunchanged (by decide)).2
  exact absurd (congrArg (List.map Element.time) hlive) (by decide +kernel)

end CComplete.RamStorage
