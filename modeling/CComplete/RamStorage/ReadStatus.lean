import CComplete.RamStorage.RangeRead

/-!
# The status of a range read

Even where the junction of tail and head makes a range read too short, its status is right: it
returns 0 exactly when some live element is in the range, and then begins with the oldest of them
(`read_status`). Without an element in the range, either no element is late enough and the start
search fails, or all elements from the start element on are too late and the end search fails.
-/

set_option autoImplicit false

namespace CComplete.RamStorage

open CComplete.Library

namespace Represents

variable {L : ℕ+} {o : ℕ} {s : Storage} {es : List Element}

/-- From an element above the time on, the end search finds nothing. -/
theorem searchEndLoop_none (h : Represents L o s es) (time : UInt32) {a m : ℕ}
    (hm : a + m ≤ es.length) (hlate : upToCount Element.timeNat time.toNat es ≤ a)
    (remaining : ℕ) :
    ∀ counter, remaining + counter = m →
      searchEndLoop s time ((ring L).addr (o + a)) m remaining counter
        ((ring L).addr (o + (a + counter))) = none := by
  induction remaining with
  | zero => exact fun _ _ => rfl
  | succ remaining ih =>
    intro counter hsum
    have htime := h.time_le_iff time (show a + counter < es.length by omega)
    have hout : ¬ (timeAt s.heap ((ring L).addr (o + (a + counter))) ≤ time ∧
        timeAt s.heap ((ring L).addr (o + (a + counter))) ≥
          timeAt s.heap ((ring L).addr (o + a))) := by
      rintro ⟨hle, -⟩
      have hlt := htime.1 hle
      omega
    rw [searchEndLoop, if_neg hout, h.shape.ascending, Nat.add_assoc o, Nat.add_assoc a]
    exact ih (counter + 1) (by omega)

/-- Without an element in the range the read fails. -/
theorem read_none (h : Represents L o s es) (elements : ℕ → Element)
    (maxElementToRead readNumber : ℕ) {startTime endTime : UInt32}
    (hnone : upToCount Element.timeNat endTime.toNat es ≤
      belowCount Element.timeNat startTime.toNat es) :
    (readElementsBetweenTwoDates s elements maxElementToRead readNumber startTime endTime).code ≠
      0 := by
  have hstart := h.searchElementStartTime_eq startTime
  by_cases hfound : belowCount Element.timeNat startTime.toNat es < es.length
  · -- the elements from the start element on are above `endTime`
    rw [if_pos hfound] at hstart
    obtain ⟨m, hm⟩ : ∃ m, getAbsDistanceBetweenAddress s.handler
      ((ring L).addr (o + belowCount Element.timeNat startTime.toNat es))
      ((ring L).addr (o + (es.length - 1))) / sizeofElement.toNat = m := ⟨_, rfl⟩
    have hbounds := h.maxReadable_bounds hfound hm
    have hloop := h.searchEndLoop_none endTime hbounds.2 hnone m 0 (Nat.add_zero m)
    rw [Nat.add_zero] at hloop
    have hend : searchElementEndTime s endTime
        ((ring L).addr (o + belowCount Element.timeNat startTime.toNat es)) = none := by
      simp only [searchElementEndTime, h.holds.newestAddress_eq (Nat.zero_lt_of_lt hfound), hm]
      exact hloop
    simp only [readElementsBetweenTwoDates, hstart, hend]
    decide
  · rw [if_neg hfound] at hstart
    simp only [readElementsBetweenTwoDates, hstart]
    decide

/-- With some element in the range and room for all, the read begins with the oldest element in the
range. -/
theorem read_some (h : Represents L o s es) (elements : ℕ → Element) {maxElementToRead : ℕ}
    (readNumber : ℕ) (hmax : es.length ≤ maxElementToRead) {startTime endTime : UInt32}
    (hsome : belowCount Element.timeNat startTime.toNat es <
      upToCount Element.timeNat endTime.toNat es) :
    ∃ count, 0 < count ∧ belowCount Element.timeNat startTime.toNat es + count ≤ es.length ∧
      readElementsBetweenTwoDates s elements maxElementToRead readNumber startTime endTime =
        ⟨0, count, copied elements 0
          ((es.drop (belowCount Element.timeNat startTime.toNat es)).take count)⟩ := by
  have hupTo : upToCount Element.timeNat endTime.toNat es ≤ es.length := upToCount_le_length
  have hbound := h.bounded
  obtain ⟨b, hb⟩ : ∃ b, upToCount Element.timeNat endTime.toNat es = b + 1 :=
    Nat.exists_eq_add_one.2 (by omega)
  generalize ha : belowCount Element.timeNat startTime.toNat es = a at hsome ⊢
  obtain ⟨m, hm⟩ : ∃ m, getAbsDistanceBetweenAddress s.handler ((ring L).addr (o + a))
    ((ring L).addr (o + (es.length - 1))) / sizeofElement.toNat = m := ⟨_, rfl⟩
  have hbounds := h.maxReadable_bounds (by omega) hm
  obtain ⟨count, hcount⟩ : ∃ count, getNumberOfElementsBetweenPositions s.handler
    ((ring L).addr (o + a)) ((ring L).addr (o + min b (a + m - 1))) = count := ⟨_, rfl⟩
  have hcountBounds := h.shape.count_bounds o (show a ≤ min b (a + m - 1) by omega)
    (show min b (a + m - 1) < (L : ℕ) by omega)
  rw [hcount] at hcountBounds
  refine ⟨count, hcountBounds.1, by omega, ?_⟩
  exact h.read_eq elements readNumber hmax ha hb (by omega) hm hbounds.1 hbounds.2 hcount

end Represents

/-- In every state reached from an accepted `init` by writes with times that do not decrease, reads
and deletes, and with a buffer for all live elements: the range read returns 0 if and only if some
live element is in the range; then its first element is the oldest one in the range, and the number
it reports is at least 1 and at most the number of elements. -/
theorem read_status (s₀ : Storage) (length : UInt32) (hlength : 1 ≤ length)
    (hinit : (initRamMemoryStorage s₀ length).1 = 0) (ops : List Op)
    (htimes : (ops.filterMap Op.writtenTime).Pairwise (· ≤ ·)) (elements : ℕ → Element)
    (maxElementToRead readNumber : ℕ) (startTime endTime : UInt32) :
    let s := system.after (initRamMemoryStorage s₀ length).2 ops
    s.handler.numberOfElements ≤ maxElementToRead →
      let reply :=
        readElementsBetweenTwoDates s elements maxElementToRead readNumber startTime endTime
      (reply.code = 0 ↔ ∃ e ∈ liveElements s, startTime ≤ e.time ∧ e.time ≤ endTime) ∧
        (reply.code = 0 →
          (elementsBetween s startTime endTime).head? = some (reply.elements 0) ∧
            1 ≤ reply.readNumber ∧ reply.readNumber ≤ s.handler.numberOfElements) := by
  intro s hmax reply
  obtain ⟨L, o, dropped, es, -, h, -⟩ := represents_run s₀ hlength hinit htimes
  have hmax' := hmax
  rw [h.numberOfElements] at hmax'
  have hwindow : (∃ e ∈ liveElements s, startTime ≤ e.time ∧ e.time ≤ endTime) ↔
      belowCount Element.timeNat startTime.toNat es <
        upToCount Element.timeNat endTime.toNat es := by
    rw [← h.elementsBetween_ne_nil_iff startTime endTime, elementsBetween, Ne,
      List.filter_eq_nil_iff]
    simp only [not_forall, not_not, Bool.and_eq_true, decide_eq_true_eq, exists_prop]
    exact Iff.rfl
  rw [hwindow]
  by_cases hsome : belowCount Element.timeNat startTime.toNat es <
      upToCount Element.timeNat endTime.toNat es
  · obtain ⟨count, hpos, hle, hread⟩ :=
      h.read_some elements readNumber hmax' hsome
    have hreply : reply = _ := hread
    rw [hreply]
    refine ⟨iff_of_true rfl hsome, fun _ => ⟨?_, hpos, ?_⟩⟩
    · have hfirst : belowCount Element.timeNat startTime.toNat es < es.length := by omega
      obtain ⟨n, hn⟩ : ∃ n, upToCount Element.timeNat endTime.toNat es -
        belowCount Element.timeNat startTime.toNat es = n + 1 := Nat.exists_eq_add_one.2 (by omega)
      obtain ⟨k, hk⟩ : ∃ k, count = k + 1 := Nat.exists_eq_add_one.2 hpos
      rw [h.elementsBetween_eq, hn, hk, List.drop_eq_getElem_cons hfirst, List.take_succ_cons,
        List.take_succ_cons, List.head?_cons]
      rfl
    · rw [h.numberOfElements]
      exact le_trans (Nat.le_add_left _ _) hle
  · have hfails := h.read_none elements maxElementToRead readNumber (not_lt.1 hsome)
    exact ⟨iff_of_false hfails hsome, fun hzero => absurd hzero hfails⟩

/-- Elements of times 4 to 8, the one of time 5 in the last slot. The range from 4 to 8 is read too
short, but the read returns 0 and begins with the oldest element. -/
theorem read_status_wrapped :
    let s := system.after (initRamMemoryStorage zeroStorage 5).2
      [writeAt 1, writeAt 2, writeAt 3, writeAt 4, writeAt 5, .deleteUpToTime 3, writeAt 6,
        writeAt 7, writeAt 8]
    let reply := readElementsBetweenTwoDates s (fun _ => zeroElement) 5 0 4 8
    (elementsBetween s 4 8).head? = some (reply.elements 0) ∧ 1 ≤ reply.readNumber ∧
      reply.readNumber ≤ s.handler.numberOfElements :=
  let status := read_status zeroStorage 5 (by decide) (by decide)
    [writeAt 1, writeAt 2, writeAt 3, writeAt 4, writeAt 5, .deleteUpToTime 3, writeAt 6,
      writeAt 7, writeAt 8] (by decide) (fun _ => zeroElement) 5 0 4 8 (by decide +kernel)
  status.2 (status.1.2 (by decide +kernel))

end CComplete.RamStorage
