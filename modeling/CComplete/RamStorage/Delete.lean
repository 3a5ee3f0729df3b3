import CComplete.RamStorage.Invariant

/-!
# What a delete leaves in order of time

When the times do not decrease, the elements up to a time are the oldest ones, and a delete clears
as many of them as the positions of the first and the last one count. The count is one short when
the junction of tail and head lies between the two and neither of them is at it. So a delete leaves
exactly the newer elements if and only if `DeleteCounted` holds (`elements_delete_exact_iff`).
-/

set_option autoImplicit false

namespace CComplete.RamStorage

open CComplete.Library

/-- The live elements with a time above `time`. -/
def elementsAfter (s : Storage) (time : UInt32) : List Element :=
  (liveElements s).filter fun e => decide (time < e.time)

/-- A delete with a live element up to `time` returns 0 and leaves exactly the later elements; a
delete without one returns another code and changes nothing; and a second delete finds nothing. -/
def DeletesExactly (s : Storage) (time : UInt32) : Prop :=
  let call := deleteUpToTime s time
  let again := deleteUpToTime call.2 time
  ((∃ e ∈ liveElements s, e.time ≤ time) →
      call.1 = 0 ∧ liveElements call.2 = elementsAfter s time ∧
        call.2.handler.numberOfElements = (elementsAfter s time).length) ∧
    ((∀ e ∈ liveElements s, time < e.time) → call.1 ≠ 0 ∧ call.2 = s) ∧
    again.1 ≠ 0 ∧ again.2 = call.2

/-- No live element has a time up to `time`; or the elements up to it do not cross from the tail to
the head; or they start at the tail or end at the head. -/
def DeleteCounted (s : Storage) (time : UInt32) : Prop :=
  let first := liveAddress s.handler 0
  let last := liveAddress s.handler
    (upToCount Element.timeNat time.toNat (liveElements s) - 1)
  (∀ e ∈ liveElements s, time < e.time) ∨ first ≤ last ∨ first = s.handler.tail ∨
    last = s.handler.head

namespace Represents

variable {L : ℕ+} {o : ℕ} {s : Storage} {es : List Element}

theorem elementsAfter_eq (h : Represents L o s es) (time : UInt32) :
    elementsAfter s time = es.drop (upToCount Element.timeNat time.toNat es) := by
  rw [elementsAfter, h.holds.liveElements_eq]
  apply h.ordered.filter_above
  intro e
  rw [decide_eq_true_eq, UInt32.lt_iff_toNat_lt]
  rfl

/-- With no element up to the time a delete changes nothing. -/
theorem deleteUpToTime_none (h : Represents L o s es) {time : UInt32}
    (hnone : upToCount Element.timeNat time.toNat es = 0) : deleteUpToTime s time = (-1, s) := by
  rcases h.deleteUpToTime_cases time with ⟨-, hcall⟩ | ⟨k, hpos, hle, -⟩
  · exact hcall
  · omega

/-- The count of the elements up to the time is right exactly when the junction is not strictly
between the first and the last of them. -/
theorem deleteCounted_iff (h : Represents L o s es) {time : UInt32}
    (hpos : 0 < upToCount Element.timeNat time.toNat es) :
    DeleteCounted s time ↔
      getNumberOfElementsBetweenPositions s.handler ((ring L).addr o)
          ((ring L).addr (o + (upToCount Element.timeNat time.toNat es - 1))) =
        upToCount Element.timeNat time.toNat es := by
  have hle : upToCount Element.timeNat time.toNat es ≤ es.length := upToCount_le_length
  have hbound := h.bounded
  have hsome : ¬ ∀ e ∈ es, time < e.time := by
    obtain ⟨e, he, htime⟩ := upToCount_pos_iff.1 hpos
    exact fun hno => UInt32.not_le.2 (hno e he) (UInt32.le_iff_toNat_le.2 htime)
  have hcount := h.shape.count_eq o (Nat.zero_le (upToCount Element.timeNat time.toNat es - 1))
    (by omega)
  rw [Nat.add_zero] at hcount
  rw [DeleteCounted, h.holds.liveElements_eq, h.holds.liveAddress_eq (Nat.zero_le _),
    h.holds.liveAddress_eq (by omega), or_iff_right hsome, hcount, Nat.add_zero,
    h.shape.borders.addr_eq_tail_iff, h.shape.borders.addr_eq_head_iff, addr_le_addr_iff]
  -- the wrap is not between the two positions, or the border is counted or not
  split_ifs with hflat hborder
  · exact iff_of_true (Or.inl hflat) (by omega)
  · exact iff_of_true (Or.inr hborder) (by omega)
  · exact iff_of_false (not_or.2 ⟨hflat, hborder⟩) (by omega)

/-- In an ordered storage a delete is exact if and only if its elements are counted right. -/
theorem deletesExactly_iff (h : Represents L o s es) (time : UInt32) :
    DeletesExactly s time ↔ DeleteCounted s time := by
  have hcount : 0 < upToCount Element.timeNat time.toNat es ↔ ∃ e ∈ es, e.time ≤ time := by
    simp only [upToCount_pos_iff, UInt32.le_iff_toNat_le, Element.timeNat]
  have hfail : (-1 : ℤ) ≠ 0 := by decide
  rw [DeletesExactly, h.elementsAfter_eq, h.holds.liveElements_eq]
  rcases h.deleteUpToTime_cases time with ⟨hnone, hcall⟩ | ⟨k, hpos, hk, hkEq, hcode, hnext⟩
  · -- nothing to delete, the second time either
    have hall : ∀ e ∈ es, time < e.time := fun e he =>
      UInt32.not_le.1 fun htime => by
        have := hcount.2 ⟨e, he, htime⟩
        omega
    refine iff_of_true ⟨fun hsome => ?_, fun _ => ?_, ?_⟩ (Or.inl ?_)
    · have := hcount.2 hsome
      omega
    · rw [hcall]
      exact ⟨hfail, rfl⟩
    · rw [hcall, hcall]
      exact ⟨hfail, rfl⟩
    · rw [h.holds.liveElements_eq]
      exact hall
  · have hsome : ∃ e ∈ es, e.time ≤ time := hcount.1 (hpos.trans_le hk)
    rw [h.deleteCounted_iff (hpos.trans_le hk), ← hkEq]
    constructor
    · -- the number of elements left is that of the newer ones
      intro hexact
      obtain ⟨-, -, hnumber⟩ := hexact.1 hsome
      have hle : upToCount Element.timeNat time.toNat es ≤ es.length := upToCount_le_length
      rw [hnext.numberOfElements, List.length_drop, List.length_drop] at hnumber
      omega
    · intro hright
      rw [hright] at hnext
      refine ⟨fun _ => ⟨hcode, hnext.holds.liveElements_eq, hnext.numberOfElements⟩,
        fun hno => ?_, ?_⟩
      · obtain ⟨e, he, htime⟩ := hsome
        exact absurd htime (UInt32.not_le.2 (hno e he))
      · -- all elements up to the time are gone
        have hgone : upToCount Element.timeNat time.toNat
            (es.drop (upToCount Element.timeNat time.toNat es)) = 0 := by
          have hdrop := countP_drop (h.ordered.prefixClosed_le time.toNat)
            (upToCount Element.timeNat time.toNat es)
          exact hdrop.trans (Nat.sub_self _)
        rw [hnext.deleteUpToTime_none hgone]
        exact ⟨hfail, rfl⟩

end Represents

/-- In every state reached from an accepted `init` by writes with times that do not decrease, reads
and deletes, a delete is exact if and only if no live element has a time up to the given one, or
the elements up to it do not cross from the tail to the head, or they start at the tail or end at
the head. -/
theorem elements_delete_exact_iff (s₀ : Storage) (length : UInt32) (hlength : 1 ≤ length)
    (hinit : (initRamMemoryStorage s₀ length).1 = 0) (ops : List Op)
    (htimes : (ops.filterMap Op.writtenTime).Pairwise (· ≤ ·)) (time : UInt32) :
    let s := system.after (initRamMemoryStorage s₀ length).2 ops
    DeletesExactly s time ↔ DeleteCounted s time := by
  intro s
  obtain ⟨L, o, dropped, es, -, h, -⟩ := represents_run s₀ hlength hinit htimes
  exact h.deletesExactly_iff time

/-- Elements of times 5 to 8, the one of time 5 in the last slot: the elements up to 7 start at the
tail, so all of them are deleted. -/
theorem elements_delete_exact_iff_from_tail :
    DeletesExactly
      (system.after (initRamMemoryStorage zeroStorage 5).2
        [writeAt 1, writeAt 2, writeAt 3, writeAt 4, writeAt 5, .deleteUpToTime 4, writeAt 6,
          writeAt 7, writeAt 8]) 7 :=
  (elements_delete_exact_iff zeroStorage 5 (by decide) (by decide)
    [writeAt 1, writeAt 2, writeAt 3, writeAt 4, writeAt 5, .deleteUpToTime 4, writeAt 6,
      writeAt 7, writeAt 8] (by decide) 7).2 (Or.inr (Or.inr (Or.inl (by decide +kernel))))

/-- Elements of times 4 to 8, the ones of times 4 and 5 in the last two slots: a delete up to 7
leaves the element of time 7 live. -/
theorem delete_leaves_element :
    ¬ DeletesExactly
      (system.after (initRamMemoryStorage zeroStorage 5).2
        [writeAt 1, writeAt 2, writeAt 3, writeAt 4, writeAt 5, .deleteUpToTime 3, writeAt 6,
          writeAt 7, writeAt 8]) 7 := by
  intro hexact
  obtain ⟨-, -, hnumber⟩ := hexact.1 (by decide +kernel)
  exact absurd hnumber (by decide +kernel)

end CComplete.RamStorage
