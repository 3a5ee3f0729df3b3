import CComplete.RamStorage.Invariant

/-!
# The range read and the junction of tail and head

A range read looks for the last element of the range among as many elements as the distance from
the first one to the newest one counts, and then copies as many elements as the positions of the
two ends count. Both counts can be short when the junction of tail and head lies on their way, so
the read delivers the elements in the range exactly when `JunctionHarmless` holds
(`elements_read_exact_iff`).
-/

set_option autoImplicit false

namespace CComplete.RamStorage

open CComplete.Library

/-- The live elements with a time from `startTime` to `endTime`. -/
def elementsBetween (s : Storage) (startTime endTime : UInt32) : List Element :=
  (liveElements s).filter fun e => decide (startTime ≤ e.time) && decide (e.time ≤ endTime)

/-- The range read returns 0 and delivers exactly the elements in the range, in order. -/
def ReadsExactly (s : Storage) (elements : ℕ → Element) (maxElementToRead readNumber : ℕ)
    (startTime endTime : UInt32) : Prop :=
  let window := elementsBetween s startTime endTime
  readElementsBetweenTwoDates s elements maxElementToRead readNumber startTime endTime =
    ⟨0, window.length, copied elements 0 window⟩

/-- The range does not wrap; or it starts at the tail, and the newest element is past the last one
of the range or at the head; or it ends at the head, and the newest element is two slots further or
more. -/
def JunctionHarmless (s : Storage) (startTime endTime : UInt32) : Prop :=
  let first := liveAddress s.handler
    (belowCount Element.timeNat startTime.toNat (liveElements s))
  let last := liveAddress s.handler
    (upToCount Element.timeNat endTime.toNat (liveElements s) - 1)
  let newest := updateDescendingBrowser s.handler s.handler.writeTo
  first ≤ last ∨
    (first = s.handler.tail ∧ (last < newest ∨ newest = s.handler.head)) ∨
    (last = s.handler.head ∧ s.handler.head + 2 * sizeofElement ≤ newest)

theorem mem_range_iff (startTime endTime : UInt32) (e : Element) :
    (decide (startTime ≤ e.time) && decide (e.time ≤ endTime)) = true ↔
      startTime.toNat ≤ e.timeNat ∧ e.timeNat ≤ endTime.toNat := by
  rw [Bool.and_eq_true, decide_eq_true_eq, decide_eq_true_eq, UInt32.le_iff_toNat_le,
    UInt32.le_iff_toNat_le]
  rfl

namespace Represents

variable {L : ℕ+} {o : ℕ} {s : Storage} {es : List Element}

/-! ## The window -/

theorem elementsBetween_eq (h : Represents L o s es) (startTime endTime : UInt32) :
    elementsBetween s startTime endTime =
      (es.drop (belowCount Element.timeNat startTime.toNat es)).take
        (upToCount Element.timeNat endTime.toNat es -
          belowCount Element.timeNat startTime.toNat es) := by
  rw [elementsBetween, h.holds.liveElements_eq]
  exact h.ordered.filter_window (mem_range_iff startTime endTime)

theorem elementsBetween_ne_nil_iff (h : Represents L o s es) (startTime endTime : UInt32) :
    elementsBetween s startTime endTime ≠ [] ↔
      belowCount Element.timeNat startTime.toNat es <
        upToCount Element.timeNat endTime.toNat es := by
  rw [elementsBetween, h.holds.liveElements_eq]
  exact h.ordered.filter_window_ne_nil_iff (mem_range_iff startTime endTime)

/-! ## The distance -/

/-- The number of elements that the end search may read: to the element number `b`, or up to two
less when the junction lies on the way. -/
theorem maxReadable_eq (h : Represents L o s es) {a b : ℕ} (hab : a ≤ b) (hb : b < L) :
    getAbsDistanceBetweenAddress s.handler ((ring L).addr (o + a)) ((ring L).addr (o + b)) /
        sizeofElement.toNat =
      if (o + a) % L ≤ (o + b) % L then b - a + 1
      else b - a - 1 + (if (o + a) % L = L - 1 then 1 else 0) +
        (if (o + b) % L = 0 then 1 else 0) := by
  have hcap := h.capacity
  rw [maxElementsToStore] at hcap
  rw [h.shape.borders.distance_eq o hab hb, size_div_eq_iff]
  split_ifs <;> omega

/-- The end search may read the start element at least, and no element past the newest one. -/
theorem maxReadable_bounds (h : Represents L o s es) {a m : ℕ} (ha : a < es.length)
    (hm : getAbsDistanceBetweenAddress s.handler ((ring L).addr (o + a))
      ((ring L).addr (o + (es.length - 1))) / sizeofElement.toNat = m) :
    0 < m ∧ a + m ≤ es.length := by
  have hbound := h.bounded
  have hmEq := hm.symm.trans (h.maxReadable_eq (show a ≤ es.length - 1 by omega)
    (show es.length - 1 < (L : ℕ) by omega))
  -- without a border on its way past the junction, the newest element is two slots away or more
  have hnewest := (ring L).mod_add_cases (o + a) (show es.length - 1 - a < (L : ℕ) by omega)
  rw [show o + a + (es.length - 1 - a) = o + (es.length - 1) by omega] at hnewest
  have hslots : (ring L).slots = L := rfl
  rw [hslots] at hnewest
  have hfirst : (o + a) % L < L := Nat.mod_lt _ L.pos
  split_ifs at hmEq <;> omega

/-! ## The end search -/

/-- The end search stops at the last element of the range, or at the last one it may read. -/
theorem searchEndLoop_eq (h : Represents L o s es) (time : UInt32) {a m : ℕ}
    (hm : a + m ≤ es.length) (remaining : ℕ) :
    ∀ counter, 0 < remaining → remaining + counter = m →
      a + counter < upToCount Element.timeNat time.toNat es →
      searchEndLoop s time ((ring L).addr (o + a)) m remaining counter
          ((ring L).addr (o + (a + counter))) =
        some ((ring L).addr
          (o + min (upToCount Element.timeNat time.toNat es - 1) (a + m - 1))) := by
  induction remaining with
  | zero => exact fun _ hno => absurd hno (lt_irrefl 0)
  | succ remaining ih =>
    intro counter _ hsum hin
    have hlt : a + counter < es.length := by omega
    -- the second half of the test, against the start element, always holds
    have hstart : timeAt s.heap ((ring L).addr (o + (a + counter))) ≥
        timeAt s.heap ((ring L).addr (o + a)) := by
      have ha : a < es.length := by omega
      rw [h.holds.timeAt_live hlt, h.holds.timeAt_live ha]
      exact UInt32.le_iff_toNat_le.2 (h.ordered.getElem_le (Nat.le_add_right a counter) ha hlt)
    rw [searchEndLoop, if_pos ⟨(h.time_le_iff time hlt).2 hin, hstart⟩, h.shape.ascending]
    rcases Nat.eq_zero_or_pos remaining with rfl | hmore
    · -- the last element that the search may read
      rw [if_pos (by omega), Nat.min_eq_right (by omega),
        show a + m - 1 = a + counter by omega]
    · have hnext := h.time_le_iff time (show a + (counter + 1) < es.length by omega)
      have hne : counter + 1 ≠ m := by omega
      rw [if_neg hne, Nat.add_assoc o, Nat.add_assoc a]
      by_cases hstop : a + (counter + 1) < upToCount Element.timeNat time.toNat es
      · rw [if_pos (hnext.2 hstop)]
        exact ih (counter + 1) hmore (by omega) hstop
      · rw [if_neg (fun hle => hstop (hnext.1 hle)), Nat.min_eq_left (by omega),
          show upToCount Element.timeNat time.toNat es - 1 = a + counter by omega]

/-! ## The read -/

theorem copyLoop_eq (h : Represents L o s es) (remaining : ℕ) :
    ∀ (a i : ℕ) (elements : ℕ → Element), a + remaining ≤ es.length →
      copyLoop s remaining i ((ring L).addr (o + a)) elements =
        copied elements i ((es.drop a).take remaining) := by
  induction remaining with
  | zero =>
    intro a i elements _
    rw [List.take_zero, copied_nil, copyLoop]
  | succ remaining ih =>
    intro a i elements hlen
    have hlt : a < es.length := by omega
    rw [copyLoop, h.holds.elementAt_live hlt, h.shape.ascending, Nat.add_assoc,
      ih (a + 1) (i + 1) _ (by omega), List.drop_eq_getElem_cons hlt, List.take_succ_cons,
      copied_cons]

/-- With some element in the range and room for all, the read delivers as many elements as it
counts, from the first one of the range on. -/
theorem read_eq (h : Represents L o s es) (elements : ℕ → Element) {maxElementToRead : ℕ}
    (readNumber : ℕ) (hmax : es.length ≤ maxElementToRead) {startTime endTime : UInt32} {a b : ℕ}
    (ha : belowCount Element.timeNat startTime.toNat es = a)
    (hb : upToCount Element.timeNat endTime.toNat es = b + 1) (hab : a ≤ b) {m : ℕ}
    (hm : getAbsDistanceBetweenAddress s.handler ((ring L).addr (o + a))
      ((ring L).addr (o + (es.length - 1))) / sizeofElement.toNat = m)
    (hpos : 0 < m) (hle : a + m ≤ es.length) {count : ℕ}
    (hcount : getNumberOfElementsBetweenPositions s.handler ((ring L).addr (o + a))
      ((ring L).addr (o + min b (a + m - 1))) = count) :
    readElementsBetweenTwoDates s elements maxElementToRead readNumber startTime endTime =
      ⟨0, count, copied elements 0 ((es.drop a).take count)⟩ := by
  have hupTo : upToCount Element.timeNat endTime.toNat es ≤ es.length := upToCount_le_length
  have hbound := h.bounded
  have hfirst : searchElementStartTime s startTime = some ((ring L).addr (o + a)) := by
    rw [h.searchElementStartTime_eq, ha, if_pos (by omega)]
  have hnewest := h.holds.newestAddress_eq (show 0 < es.length by omega)
  -- the end search stops where the range ends, or where its bound ends
  have hlast : searchElementEndTime s endTime ((ring L).addr (o + a)) =
      some ((ring L).addr (o + min b (a + m - 1))) := by
    have hloop := h.searchEndLoop_eq endTime hle m 0 hpos (Nat.add_zero m) (by omega)
    rw [hb, Nat.add_sub_cancel, Nat.add_zero] at hloop
    simp only [searchElementEndTime, hnewest, hm]
    exact hloop
  obtain ⟨hcount0, hcount1⟩ := h.shape.count_bounds o (show a ≤ min b (a + m - 1) by omega)
    (show min b (a + m - 1) < (L : ℕ) by omega)
  rw [hcount] at hcount0 hcount1
  simp only [readElementsBetweenTwoDates, hfirst, hlast, hcount]
  rw [if_neg (by omega), if_neg (by omega), h.copyLoop_eq count a 0 elements (by omega)]

/-- The two short counts together: the end search sees the last element and the counted number of
elements is right exactly when the junction does no harm. The slots are those of the first, the
last and the newest element, and `f` is the distance from the first to the found one. -/
theorem count_eq_iff {N first last newest found e d m f count : ℕ} (hed : e ≤ d) (hd : d < N)
    (hfirst : first < N)
    (hlast : (first + e < N ∧ last = first + e) ∨ (N ≤ first + e ∧ last + N = first + e))
    (hnewest : (first + d < N ∧ newest = first + d) ∨ (N ≤ first + d ∧ newest + N = first + d))
    (hfound : (first + f < N ∧ found = first + f) ∨ (N ≤ first + f ∧ found + N = first + f))
    (hm : m = if first ≤ newest then d + 1
      else d - 1 + (if first = N - 1 then 1 else 0) + (if newest = 0 then 1 else 0))
    (hf : f = min e (m - 1))
    (hcount : count = if first ≤ found then f + 1
      else f + (if first = N - 1 ∨ found = 0 then 1 else 0)) :
    count = e + 1 ↔
      first ≤ last ∨ (first = N - 1 ∧ (last < newest ∨ newest = 0)) ∨ (last = 0 ∧ 2 ≤ newest) := by
  rcases hnewest with ⟨hflat, rfl⟩ | ⟨hwrap, hnewest⟩
  · -- the junction is past the newest element: both counts are right
    rw [if_pos (Nat.le_add_right first d)] at hm
    have hfe : f = e := by omega
    obtain rfl : last = first + e := by omega
    obtain rfl : found = first + f := by omega
    rw [if_pos (Nat.le_add_right first f), hfe] at hcount
    exact iff_of_true hcount (Or.inl (Nat.le_add_right first e))
  · rw [if_neg (show ¬ first ≤ newest by omega)] at hm
    rcases hlast with ⟨hflat, rfl⟩ | ⟨hpast, hlast⟩
    · -- the last element is before the junction, so it is found and counted right
      have hfe : f = e := by
        by_cases hborder : newest = 0
        · rw [if_pos hborder] at hm
          omega
        · omega
      obtain rfl : found = first + f := by omega
      rw [if_pos (Nat.le_add_right first f), hfe] at hcount
      exact iff_of_true hcount (Or.inl (Nat.le_add_right first e))
    · rw [or_iff_right (show ¬ first ≤ last by omega)]
      by_cases htail : first = N - 1
      · -- from the tail on, what is found is counted right
        rw [if_pos htail] at hm
        rw [if_pos (Or.inl htail), ite_self] at hcount
        rw [hcount, hf]
        split_ifs at hm <;> omega
      · -- from before the tail on, only what ends at the head is
        rw [if_neg htail] at hm
        simp only [htail, false_or, false_and] at hcount ⊢
        split_ifs at hm hcount <;> omega

/-- The condition at the junction, in slots of the ring. -/
theorem junctionHarmless_iff (h : Represents L o s es) {startTime endTime : UInt32} {a b : ℕ}
    (ha : belowCount Element.timeNat startTime.toNat es = a)
    (hb : upToCount Element.timeNat endTime.toNat es = b + 1) (hab : a ≤ b) :
    JunctionHarmless s startTime endTime ↔
      (o + a) % L ≤ (o + b) % L ∨
        ((o + a) % L = L - 1 ∧
          ((o + b) % L < (o + (es.length - 1)) % L ∨ (o + (es.length - 1)) % L = 0)) ∨
        ((o + b) % L = 0 ∧ 2 ≤ (o + (es.length - 1)) % L) := by
  have hupTo : upToCount Element.timeNat endTime.toNat es ≤ es.length := upToCount_le_length
  have hnewest := h.holds.newestAddress_eq (show 0 < es.length by omega)
  have htwo : s.handler.head + 2 * sizeofElement ≤ (ring L).addr (o + (es.length - 1)) ↔
      2 ≤ (o + (es.length - 1)) % L := by
    rw [h.head, ring_addr, heapElement, heapElement, sizeofElement]
    omega
  rw [JunctionHarmless, h.holds.liveElements_eq, ha, hb, h.holds.liveAddress_eq (by omega),
    h.holds.liveAddress_eq (by omega), hnewest, htwo]
  simp only [Nat.add_sub_cancel, h.shape.borders.addr_eq_tail_iff, h.shape.borders.addr_eq_head_iff,
    addr_le_addr_iff, ← not_le]

/-- With some element in the range and room for all, the read delivers the elements in the range
exactly when the junction does no harm. -/
theorem readsExactly_iff (h : Represents L o s es) (elements : ℕ → Element)
    {maxElementToRead : ℕ} (readNumber : ℕ) (hmax : s.handler.numberOfElements ≤ maxElementToRead)
    {startTime endTime : UInt32} (hsome : elementsBetween s startTime endTime ≠ []) :
    ReadsExactly s elements maxElementToRead readNumber startTime endTime ↔
      JunctionHarmless s startTime endTime := by
  have hwindow := (h.elementsBetween_ne_nil_iff startTime endTime).1 hsome
  have hupTo : upToCount Element.timeNat endTime.toNat es ≤ es.length := upToCount_le_length
  have hbound := h.bounded
  rw [h.numberOfElements] at hmax
  -- in the range are the elements number `a` to `b`
  obtain ⟨b, hb⟩ : ∃ b, upToCount Element.timeNat endTime.toNat es = b + 1 :=
    Nat.exists_eq_add_one.2 (by omega)
  generalize ha : belowCount Element.timeNat startTime.toNat es = a at hwindow
  rw [hb] at hwindow hupTo
  have hab : a ≤ b := by omega
  have hslot : ∀ i, a ≤ i → i < es.length →
      ((o + a) % L + (i - a) < L ∧ (o + i) % L = (o + a) % L + (i - a)) ∨
        ((L : ℕ) ≤ (o + a) % L + (i - a) ∧ (o + i) % L + L = (o + a) % L + (i - a)) := by
    intro i hai hi
    have hcases := (ring L).mod_add_cases (o + a) (show i - a < (L : ℕ) by omega)
    rw [show o + a + (i - a) = o + i by omega] at hcases
    exact hcases
  have hfirst : (o + a) % L < L := Nat.mod_lt _ L.pos
  have hnewest := hslot (es.length - 1) (by omega) (by omega)
  -- the distance to the newest element bounds the end search, which finds the element `found`
  obtain ⟨m, hm⟩ : ∃ m, getAbsDistanceBetweenAddress s.handler ((ring L).addr (o + a))
    ((ring L).addr (o + (es.length - 1))) / sizeofElement.toNat = m := ⟨_, rfl⟩
  have hmEq := hm.symm.trans (h.maxReadable_eq (show a ≤ es.length - 1 by omega)
    (show es.length - 1 < (L : ℕ) by omega))
  have hm0 := h.maxReadable_bounds (by omega) hm
  obtain ⟨found, hfound⟩ : ∃ found, min b (a + m - 1) = found := ⟨_, rfl⟩
  obtain ⟨count, hcount⟩ : ∃ count, getNumberOfElementsBetweenPositions s.handler
    ((ring L).addr (o + a)) ((ring L).addr (o + min b (a + m - 1))) = count := ⟨_, rfl⟩
  have hread := h.read_eq elements readNumber hmax ha hb hab hm hm0.1 hm0.2 hcount
  rw [hfound] at hcount
  have hcountEq := hcount.symm.trans (h.shape.count_eq o (show a ≤ found by omega)
    (show found < (L : ℕ) by omega))
  rw [ReadsExactly, hread, h.elementsBetween_eq, ha, hb, h.junctionHarmless_iff ha hb hab,
    ← count_eq_iff (e := b - a) (by omega) (by omega) hfirst (hslot b hab (by omega)) hnewest
      (hslot found (by omega) (by omega)) hmEq (by omega) hcountEq]
  have hlength : ((es.drop a).take (b + 1 - a)).length = b - a + 1 := by
    rw [List.length_take, List.length_drop]
    omega
  -- the read delivers `count` elements from number `a` on, so the number decides
  constructor
  · intro heq
    exact (congrArg ReadReply.readNumber heq).trans hlength
  · intro heq
    rw [hlength, heq, show b + 1 - a = b - a + 1 by omega]

end Represents

/-- In every state reached from an accepted `init` by writes with times that do not decrease, reads
and deletes, with some element in the range and a buffer for all live elements, the range read
delivers exactly the elements in the range if and only if the junction of tail and head does no
harm. -/
theorem elements_read_exact_iff (s₀ : Storage) (length : UInt32) (hlength : 1 ≤ length)
    (hinit : (initRamMemoryStorage s₀ length).1 = 0) (ops : List Op)
    (htimes : (ops.filterMap Op.writtenTime).Pairwise (· ≤ ·)) (elements : ℕ → Element)
    (maxElementToRead readNumber : ℕ) (startTime endTime : UInt32) :
    let s := system.after (initRamMemoryStorage s₀ length).2 ops
    s.handler.numberOfElements ≤ maxElementToRead → elementsBetween s startTime endTime ≠ [] →
      (ReadsExactly s elements maxElementToRead readNumber startTime endTime ↔
        JunctionHarmless s startTime endTime) := by
  intro s hmax hsome
  obtain ⟨L, o, dropped, es, -, h, -⟩ := represents_run s₀ hlength hinit htimes
  exact h.readsExactly_iff elements readNumber hmax hsome

/-- Elements of times 4 to 8, the one of time 5 in the last slot: the range from 5 to 7 starts at
the tail and ends before the newest element, so it is delivered. -/
theorem elements_read_exact_iff_from_tail :
    ReadsExactly
      (system.after (initRamMemoryStorage zeroStorage 5).2
        [writeAt 1, writeAt 2, writeAt 3, writeAt 4, writeAt 5, .deleteUpToTime 3, writeAt 6,
          writeAt 7, writeAt 8])
      (fun _ => zeroElement) 5 0 5 7 :=
  (elements_read_exact_iff zeroStorage 5 (by decide) (by decide)
    [writeAt 1, writeAt 2, writeAt 3, writeAt 4, writeAt 5, .deleteUpToTime 3, writeAt 6,
      writeAt 7, writeAt 8] (by decide) (fun _ => zeroElement) 5 0 5 7 (by decide +kernel)
    (by decide +kernel)).2
    (Or.inr (Or.inl ⟨by decide +kernel, Or.inl (by decide +kernel)⟩))

/-- The same elements: the range from 4 to 8 has five elements, the read delivers three. -/
theorem range_read_misses_elements :
    let s := system.after (initRamMemoryStorage zeroStorage 5).2
      [writeAt 1, writeAt 2, writeAt 3, writeAt 4, writeAt 5, .deleteUpToTime 3, writeAt 6,
        writeAt 7, writeAt 8]
    s.handler.numberOfElements ≤ 5 ∧ elementsBetween s 4 8 ≠ [] ∧
      ¬ ReadsExactly s (fun _ => zeroElement) 5 0 4 8 := by
  intro s
  refine ⟨by decide +kernel, by decide +kernel, fun hread => ?_⟩
  have hnumber := congrArg ReadReply.readNumber hread
  exact absurd hnumber (by decide +kernel)

end CComplete.RamStorage
