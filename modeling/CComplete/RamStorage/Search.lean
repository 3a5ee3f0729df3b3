import CComplete.RamStorage.Model
import CComplete.Library.Ring
import CComplete.Library.SortedWindow
import Mathlib.Tactic.Ring

/-!
# What the RAM storage holds, and its searches

`Borders L m` says that the handler `m` has its head and its tail at the two ends of `L` slots. The
count between two positions is then the number of elements from one to the other, or one less when
the junction of tail and head lies strictly inside the range.
`Shape L m` adds that the module accepts the capacity `L`. The delete search then finds the newest
run of elements up to a time.
`Holds L o s es` adds that the storage holds the elements `es`, the oldest in slot `o` of the ring.
`Represents L o s es` adds that their times do not decrease and that all other slots are zero; the
start search then finds the first element that is not below a time.
-/

set_option autoImplicit false

namespace CComplete.RamStorage

open CComplete.Library

/-- The first `L` slots of `RAM_STORAGE_G_MEMORY_HEAP`. -/
def ring (L : ℕ+) : Ring where
  base := 0
  stride := sizeofElement
  slots := L
  stride_pos := by decide
  slots_pos := L.pos

theorem ring_addr (L : ℕ+) (i : ℕ) : (ring L).addr i = heapElement (i % L) := zero_add _

/-- The slot one turn further on is the same slot. -/
theorem ring_addr_turn {L : ℕ+} {i j : ℕ} (h : j = i + L) : (ring L).addr j = (ring L).addr i := by
  rw [h]
  exact (ring L).addr_add_slots i

theorem ring_last (L : ℕ+) : (ring L).last = heapElement (L - 1) := by
  have hL : (((L : ℕ) - 1 : ℕ) : ℤ) = ((L : ℕ) : ℤ) - 1 := Nat.cast_pred L.pos
  rw [heapElement, hL]
  exact zero_add _

theorem addr_le_addr_iff (L : ℕ+) (i j : ℕ) : (ring L).addr i ≤ (ring L).addr j ↔ i % L ≤ j % L :=
  (ring L).addr_le_iff i j

/-- The time of an element as a number. -/
def Element.timeNat (e : Element) : ℕ := e.time.toNat

/-- The first word of an element in memory is its time. -/
theorem timeAt_eq {m : Memory} {a : ℤ} {e : Element} (h : elementCodec.Stored m a e) :
    timeAt m a = e.time := by
  rw [timeAt, h.block_prefix (show 4 ≤ elementCodec.size by decide)]
  exact (congrArg ofLe32 (List.take_left' (length_le32 _))).trans (ofLe32_le32_append e.time [])

/-! ## Sizes in elements -/

/-- A distance of `k` elements, in elements. -/
theorem distance_div {k : ℕ} (hk : 13 * k < 2 ^ 64) :
    toUnsignedLong (sizeofElement * (k : ℤ)) / toUnsignedLong sizeofElement = k := by
  have hlong := toUnsignedLong_of_lt hk
  rw [Nat.cast_mul] at hlong
  rw [show sizeofElement = ((13 : ℕ) : ℤ) from rfl, hlong]
  exact Nat.mul_div_cancel_left k (by decide)

/-- As an `unsigned int`, the size of `k` elements is that of `k` elements at most. -/
theorem size_div_le (k : ℕ) :
    toUnsignedInt (sizeofElement * (k : ℤ)) / sizeofElement.toNat ≤ k := by
  have hle := toUnsignedInt_le (13 * k)
  rw [Nat.cast_mul] at hle
  exact Nat.div_le_of_le_mul hle

theorem size_div_eq_iff (k : ℕ) :
    toUnsignedInt (sizeofElement * (k : ℤ)) / sizeofElement.toNat = k ↔ 13 * k < 2 ^ 32 := by
  constructor
  · intro heq
    have hmul : k * 13 ≤ toUnsignedInt (sizeofElement * (k : ℤ)) :=
      Nat.mul_le_of_le_div _ _ _ heq.ge
    rw [Nat.mul_comm]
    exact hmul.trans_lt (toUnsignedInt_lt _)
  · intro hlt
    have hsize := toUnsignedInt_of_lt hlt
    rw [Nat.cast_mul] at hsize
    rw [show sizeofElement = ((13 : ℕ) : ℤ) from rfl, hsize]
    exact Nat.mul_div_cancel_left k (by decide)

/-! ## The borders of the ring -/

/-- Head and tail of the handler are the first and the last of `L` slots, for any `L`. -/
structure Borders (L : ℕ+) (m : MemoryStorage) : Prop where
  head : m.head = heapElement 0
  tail : m.tail = heapElement (L - 1)

namespace Borders

variable {L : ℕ+} {m : MemoryStorage}

theorem tail_eq (h : Borders L m) : m.tail = (ring L).last := by
  rw [h.tail, ring_last]

theorem ascending_eq (h : Borders L m) : ascending m = (ring L).next := by
  funext browser
  rw [RamStorage.ascending, h.head, h.tail_eq]
  rfl

theorem addr_eq_head_iff (h : Borders L m) (i : ℕ) :
    (ring L).addr i = m.head ↔ i % L = 0 := by
  rw [h.head]
  exact (ring L).addr_eq_base_iff i

theorem addr_eq_tail_iff (h : Borders L m) (i : ℕ) :
    (ring L).addr i = m.tail ↔ i % L = L - 1 := by
  rw [h.tail_eq]
  exact (ring L).addr_eq_last_iff i

/-- A position that is followed by a lower one is not the head, and the lower one is not the
tail. -/
theorem ne_head_and_ne_tail (h : Borders L m) {i j : ℕ}
    (hlt : (ring L).addr j < (ring L).addr i) :
    (ring L).addr i ≠ m.head ∧ (ring L).addr j ≠ m.tail := by
  have hbase := (ring L).base_le_addr j
  have hlast := (ring L).addr_le_last i
  constructor
  · rw [h.head]
    exact (lt_of_le_of_lt hbase hlt).ne'
  · rw [h.tail_eq]
    exact (lt_of_lt_of_le hlt hlast).ne

/-- The way from element number `a` to element number `b`, with the wrap not between them or
between them. -/
theorem addr_cases (h : Borders L m) (o : ℕ) {a b : ℕ} (hab : a ≤ b) (hb : b < L) :
    ((ring L).addr (o + a) ≤ (ring L).addr (o + b) ∧
        (ring L).addr (o + b) - (ring L).addr (o + a) = sizeofElement * ((b - a : ℕ) : ℤ)) ∨
      ((ring L).addr (o + b) < (ring L).addr (o + a) ∧ a < b ∧
        (m.tail - (ring L).addr (o + a)) + ((ring L).addr (o + b) - m.head) =
          sizeofElement * ((b - a - 1 : ℕ) : ℤ)) := by
  have hslot : o + b = o + a + (b - a) := by omega
  rw [hslot, h.tail_eq, h.head]
  rcases (ring L).addr_add_cases (o + a) (show b - a < (ring L).slots from by
    show b - a < (L : ℕ)
    omega) with hflat | ⟨hlt, hdiff⟩
  · exact Or.inl hflat
  · have hne : a ≠ b := by
      rintro rfl
      rw [Nat.sub_self, Nat.add_zero] at hlt
      exact lt_irrefl _ hlt
    refine Or.inr ⟨hlt, by omega, ?_⟩
    have hpred : ((b - a - 1 : ℕ) : ℤ) = ((b - a : ℕ) : ℤ) - 1 := Nat.cast_pred (by omega)
    rw [hpred]
    exact hdiff

/-! ## Counting -/

/-- The distance from element number `a` to element number `b` is that of all elements on the way
when the wrap is not between them, else that of all but two, and one more for each of the two ends
that lies at the junction. -/
theorem distance_eq (h : Borders L m) (o : ℕ) {a b : ℕ} (hab : a ≤ b) (hb : b < L) :
    getAbsDistanceBetweenAddress m ((ring L).addr (o + a)) ((ring L).addr (o + b)) =
      toUnsignedInt (sizeofElement * (
        (if (o + a) % L ≤ (o + b) % L then b - a + 1
        else b - a - 1 + (if (o + a) % L = L - 1 then 1 else 0) +
          (if (o + b) % L = 0 then 1 else 0) : ℕ) : ℤ)) := by
  obtain ⟨hle, hdiff⟩ | ⟨hlt, -, hdiff⟩ := h.addr_cases o hab hb
  · rw [getAbsDistanceBetweenAddress, if_pos hle, if_pos ((addr_le_addr_iff L _ _).1 hle), hdiff,
      Nat.cast_succ, mul_add_one]
  · obtain ⟨hstart, hstop⟩ := h.ne_head_and_ne_tail hlt
    rw [getAbsDistanceBetweenAddress, if_neg (not_le.2 hlt),
      if_neg (fun hle => absurd ((addr_le_addr_iff L _ _).2 hle) (not_le.2 hlt)), hdiff]
    simp only [hstart, hstop, false_or, or_false, h.addr_eq_head_iff, h.addr_eq_tail_iff]
    -- each end of the way that lies at the junction counts one element more
    have hone : ∀ p : Prop, [Decidable p] →
        (if p then sizeofElement else 0) = sizeofElement * ((if p then 1 else 0 : ℕ) : ℤ) := by
      intro p _
      split <;> rfl
    rw [hone, hone, Nat.cast_add, Nat.cast_add]
    exact congrArg toUnsignedInt (by ring)

/-- The count of the elements from number `a` to number `b`: right when the wrap is not between
them, else one short unless the range starts at the tail or ends at the head. -/
theorem count_eq (h : Borders L m) (o : ℕ) {a b : ℕ} (hab : a ≤ b) (hb : b < L)
    (hlong : 13 * (b - a) < 2 ^ 64) :
    getNumberOfElementsBetweenPositions m ((ring L).addr (o + a)) ((ring L).addr (o + b)) =
      toUnsignedInt (
        (if (o + a) % L ≤ (o + b) % L then b - a + 1
        else b - a + if (o + a) % L = L - 1 ∨ (o + b) % L = 0 then 1 else 0 : ℕ) : ℤ) := by
  obtain ⟨hle, hdiff⟩ | ⟨hlt, hab', hdiff⟩ := h.addr_cases o hab hb
  · rw [getNumberOfElementsBetweenPositions, if_neg (not_lt.2 hle), hdiff, distance_div hlong,
      if_pos ((addr_le_addr_iff L _ _).1 hle)]
  · obtain ⟨hstart, hstop⟩ := h.ne_head_and_ne_tail hlt
    rw [getNumberOfElementsBetweenPositions, if_pos hlt, hdiff, distance_div (by omega),
      if_neg (fun hle => absurd ((addr_le_addr_iff L _ _).2 hle) (not_le.2 hlt))]
    simp only [hstart, hstop, false_or, or_false, h.addr_eq_head_iff, h.addr_eq_tail_iff]
    have hmerge : ∀ p q : Prop, [Decidable p] → [Decidable q] →
        (if p then 1 else if q then 1 else 0) = if p ∨ q then 1 else 0 := by
      intro p q _ _
      by_cases hp : p <;> simp [hp]
    rw [hmerge, Nat.sub_add_cancel (by omega : 1 ≤ b - a), Nat.add_comm]

end Borders

/-! ## The shape of the ring -/

/-- The handler is that of a ring of `L` slots from the start of the heap on. -/
structure Shape (L : ℕ+) (m : MemoryStorage) : Prop where
  capacity : (L : ℕ) ≤ maxElementsToStore
  head : m.head = heapElement 0
  tail : m.tail = (ring L).last

namespace Shape

variable {L : ℕ+} {m : MemoryStorage}

theorem borders (h : Shape L m) : Borders L m where
  head := h.head
  tail := by rw [h.tail, ring_last]

theorem ascending (h : Shape L m) (i : ℕ) :
    ascending m ((ring L).addr i) = (ring L).addr (i + 1) := by
  rw [h.borders.ascending_eq, Ring.next_addr]

theorem descending (h : Shape L m) (i : ℕ) :
    updateDescendingBrowser m ((ring L).addr (i + 1)) = (ring L).addr i := by
  have hprev := (ring L).prev_addr_succ i
  rw [updateDescendingBrowser, h.head, h.tail]
  exact hprev

/-- The browser moves back one element at a time. -/
theorem descending_iterate (h : Shape L m) (k : ℕ) :
    ∀ i, (updateDescendingBrowser m)^[k] ((ring L).addr (i + k)) = (ring L).addr i := by
  induction k with
  | zero => exact fun i => rfl
  | succ k ih =>
    intro i
    rw [Function.iterate_succ_apply, ← Nat.add_assoc, h.descending, ih]

theorem liveAddress_eq (h : Shape L m) {o i : ℕ}
    (hwriteTo : m.writeTo = (ring L).addr (o + m.numberOfElements)) (hi : i ≤ m.numberOfElements) :
    liveAddress m i = (ring L).addr (o + i) := by
  have hslot : o + m.numberOfElements = o + i + (m.numberOfElements - i) := by omega
  rw [liveAddress, hwriteTo, hslot, h.descending_iterate]

/-- At the capacities that the module accepts, the count does not wrap. -/
theorem count_eq (h : Shape L m) (o : ℕ) {a b : ℕ} (hab : a ≤ b) (hb : b < L) :
    getNumberOfElementsBetweenPositions m ((ring L).addr (o + a))
        ((ring L).addr (o + b)) =
      if (o + a) % L ≤ (o + b) % L then b - a + 1
      else b - a + if (o + a) % L = L - 1 ∨ (o + b) % L = 0 then 1 else 0 := by
  have hcap := h.capacity
  rw [maxElementsToStore] at hcap
  rw [h.borders.count_eq o hab hb (by omega)]
  refine toUnsignedInt_of_lt ?_
  split_ifs <;> omega

/-- The count is at least 1, and never too large. -/
theorem count_bounds (h : Shape L m) (o : ℕ) {a b : ℕ} (hab : a ≤ b) (hb : b < L) :
    let count := getNumberOfElementsBetweenPositions m ((ring L).addr (o + a))
      ((ring L).addr (o + b))
    0 < count ∧ count ≤ b - a + 1 := by
  intro count
  have hcount : count = _ := h.count_eq o hab hb
  have hne : a = b ∨ a < b := Nat.eq_or_lt_of_le hab
  rcases hne with rfl | hlt
  · rw [if_pos le_rfl] at hcount
    omega
  · split_ifs at hcount <;> omega

end Shape

/-! ## The delete search -/

section DeleteSearch

variable {L : ℕ+} {o : ℕ} {s : Storage} {time : UInt32}

/-- The delete search passes over `d` elements that are newer than the time, with the elements
number `j + d` and later behind it. -/
theorem Shape.searchDeleteLoop_skip (h : Shape L s.handler) (j d : ℕ) :
    ∀ counter, (∀ i, j ≤ i → i < j + d → time < timeAt s.heap ((ring L).addr (o + i))) →
      searchDeleteLoop s time (j + d) counter
          (updateDescendingBrowser s.handler ((ring L).addr (o + (j + d)))) none =
        searchDeleteLoop s time j (counter + d)
          (updateDescendingBrowser s.handler ((ring L).addr (o + j))) none := by
  induction d with
  | zero => exact fun _ _ => rfl
  | succ d ih =>
    intro counter hnewer
    have hhere := hnewer (j + d) (Nat.le_add_right j d) (Nat.lt_succ_self _)
    have hrest := ih (counter + 1) fun i hji hid => hnewer i hji (Nat.lt_succ_of_lt hid)
    rw [← Nat.add_assoc j d 1, searchDeleteLoop, ← Nat.add_assoc o, h.descending,
      if_neg (UInt32.not_le.2 hhere), hrest, Nat.add_right_comm counter 1 d, Nat.add_assoc counter]

/-- The delete search goes back from element number `b + d` through a run of elements up to the time
to the first of the run, number `b`. -/
theorem Shape.searchDeleteLoop_block (h : Shape L s.handler) {b : ℕ}
    (hbefore : b = 0 ∨ time < timeAt s.heap ((ring L).addr (o + (b - 1)))) (d : ℕ) :
    ∀ (counter : ℕ) (endDelete : Option ℤ), b + d + 1 + counter = s.handler.numberOfElements →
      (∀ i, b ≤ i → i ≤ b + d → timeAt s.heap ((ring L).addr (o + i)) ≤ time) →
      searchDeleteLoop s time (b + d + 1) counter ((ring L).addr (o + (b + d))) endDelete =
        some ((ring L).addr (o + b), endDelete.getD ((ring L).addr (o + (b + d)))) := by
  induction d with
  | zero =>
    intro counter endDelete hlen hblock
    rw [searchDeleteLoop, if_pos (hblock (b + 0) le_rfl le_rfl)]
    cases b with
    | zero =>
      -- the last live element
      have hlast : counter + 1 = s.handler.numberOfElements := by omega
      rw [if_pos hlast]
    | succ b =>
      -- the element before is newer than the time
      have hnewer := hbefore.resolve_left (Nat.succ_ne_zero b)
      rw [Nat.add_sub_cancel] at hnewer
      have hmore : counter + 1 ≠ s.handler.numberOfElements := by omega
      rw [if_neg hmore, Nat.add_zero, ← Nat.add_assoc, h.descending,
        if_neg (UInt32.not_le.2 hnewer)]
  | succ d ih =>
    intro counter endDelete hlen hblock
    have hprevious := hblock (b + d) (Nat.le_add_right b d) (Nat.le_succ (b + d))
    have hmore : counter + 1 ≠ s.handler.numberOfElements := by omega
    rw [searchDeleteLoop, if_pos (hblock (b + (d + 1)) (Nat.le_add_right b _) le_rfl), if_neg hmore,
      ← Nat.add_assoc b, ← Nat.add_assoc o, h.descending, if_pos hprevious]
    exact ih (counter + 1) _ (by omega) fun i hbi hid => hblock i hbi (Nat.le_succ_of_le hid)

/-- The delete search finds the newest run of elements up to the time. -/
theorem Shape.searchDeleteLoop_run (h : Shape L s.handler)
    (hwriteTo : s.handler.writeTo = (ring L).addr (o + s.handler.numberOfElements)) {b e : ℕ}
    (hbe : b ≤ e) (he : e < s.handler.numberOfElements)
    (hafter : ∀ i, e < i → i < s.handler.numberOfElements →
      time < timeAt s.heap ((ring L).addr (o + i)))
    (hblock : ∀ i, b ≤ i → i ≤ e → timeAt s.heap ((ring L).addr (o + i)) ≤ time)
    (hbefore : b = 0 ∨ time < timeAt s.heap ((ring L).addr (o + (b - 1)))) :
    searchDeleteLoop s time s.handler.numberOfElements 0
        (updateDescendingBrowser s.handler s.handler.writeTo) none =
      some ((ring L).addr (o + b), (ring L).addr (o + e)) := by
  obtain ⟨d, rfl⟩ := Nat.exists_eq_add_of_le hbe
  obtain ⟨k, hk⟩ := Nat.exists_eq_add_of_lt he
  rw [hwriteTo, hk, Nat.add_right_comm (b + d) k 1,
    h.searchDeleteLoop_skip (b + d + 1) k 0 fun i hi hik => hafter i hi (by omega),
    ← Nat.add_assoc o, h.descending]
  exact h.searchDeleteLoop_block hbefore d (0 + k) none (by omega) hblock

/-- Without an element up to the time the delete search finds nothing. -/
theorem Shape.searchDeleteLoop_none (h : Shape L s.handler)
    (hwriteTo : s.handler.writeTo = (ring L).addr (o + s.handler.numberOfElements))
    (hall : ∀ i, i < s.handler.numberOfElements → time < timeAt s.heap ((ring L).addr (o + i))) :
    searchDeleteLoop s time s.handler.numberOfElements 0
      (updateDescendingBrowser s.handler s.handler.writeTo) none = none := by
  have hskip := h.searchDeleteLoop_skip (o := o) 0 s.handler.numberOfElements 0
    fun i _ hi => hall i (by omega)
  rw [Nat.zero_add] at hskip
  rw [hwriteTo, hskip, searchDeleteLoop]

end DeleteSearch

/-! ## What the storage holds -/

/-- The storage `s` of capacity `L` holds the elements `es`, the oldest in slot `o`. -/
structure Holds (L : ℕ+) (o : ℕ) (s : Storage) (es : List Element) : Prop where
  shape : Shape L s.handler
  writeTo : s.handler.writeTo = (ring L).addr (o + es.length)
  numberOfElements : s.handler.numberOfElements = es.length
  maxNumberOfElements : s.handler.maxNumberOfElements = L
  bounded : es.length ≤ L
  elements : (ring L).Segment (elementCodec.Stored s.heap) o es

namespace Holds

variable {L : ℕ+} {o : ℕ} {s : Storage} {es : List Element}

theorem timeAt_live (h : Holds L o s es) {i : ℕ} (hi : i < es.length) :
    timeAt s.heap ((ring L).addr (o + i)) = es[i].time :=
  timeAt_eq (h.elements i hi)

/-- The slot before `write_to` is that of the newest element. -/
theorem newestAddress_eq (h : Holds L o s es) (hpos : 0 < es.length) :
    updateDescendingBrowser s.handler s.handler.writeTo = (ring L).addr (o + (es.length - 1)) := by
  rw [h.writeTo, show o + es.length = o + (es.length - 1) + 1 by omega, h.shape.descending]

end Holds

/-- The storage `s` of capacity `L` holds the elements `es`, the oldest in slot `o`, and zeros in
the other slots. -/
structure Represents (L : ℕ+) (o : ℕ) (s : Storage) (es : List Element) : Prop where
  capacity : (L : ℕ) ≤ maxElementsToStore
  head : s.handler.head = heapElement 0
  tail : s.handler.tail = (ring L).last
  writeTo : s.handler.writeTo = (ring L).addr (o + es.length)
  numberOfElements : s.handler.numberOfElements = es.length
  maxNumberOfElements : s.handler.maxNumberOfElements = L
  bounded : es.length ≤ L
  elements : (ring L).Segment (elementCodec.Stored s.heap) o es
  zeros : ∀ j, es.length ≤ j → j < L →
    elementCodec.Stored s.heap ((ring L).addr (o + j)) zeroElement
  ordered : OrderedBy Element.timeNat es

namespace Represents

variable {L : ℕ+} {o : ℕ} {s : Storage} {es : List Element}

theorem shape (h : Represents L o s es) : Shape L s.handler where
  capacity := h.capacity
  head := h.head
  tail := h.tail

theorem holds (h : Represents L o s es) : Holds L o s es where
  shape := h.shape
  writeTo := h.writeTo
  numberOfElements := h.numberOfElements
  maxNumberOfElements := h.maxNumberOfElements
  bounded := h.bounded
  elements := h.elements

theorem time_le_iff (h : Represents L o s es) (time : UInt32) {i : ℕ} (hi : i < es.length) :
    timeAt s.heap ((ring L).addr (o + i)) ≤ time ↔
      i < upToCount Element.timeNat time.toNat es := by
  rw [h.holds.timeAt_live hi, h.ordered.lt_upToCount_iff hi, UInt32.le_iff_toNat_le]
  rfl

theorem time_ge_iff (h : Represents L o s es) (time : UInt32) {i : ℕ} (hi : i < es.length) :
    timeAt s.heap ((ring L).addr (o + i)) ≥ time ↔
      belowCount Element.timeNat time.toNat es ≤ i := by
  rw [h.holds.timeAt_live hi, ← not_lt, h.ordered.lt_belowCount_iff hi, not_lt, ge_iff_le,
    UInt32.le_iff_toNat_le]
  rfl

/-! ## The start search -/

/-- The start search, with the elements number `j` and later behind it. Either all elements are
below the time, or the first one that is not lies ahead. -/
theorem searchStartLoop_eq (h : Represents L o s es) (time : UInt32) (j : ℕ) :
    ∀ counter, j + counter = es.length →
      belowCount Element.timeNat time.toNat es = es.length ∨
        belowCount Element.timeNat time.toNat es < j →
      searchStartLoop s time j counter
          (updateDescendingBrowser s.handler ((ring L).addr (o + j))) =
        if belowCount Element.timeNat time.toNat es < es.length then
          some ((ring L).addr (o + belowCount Element.timeNat time.toNat es))
        else none := by
  induction j with
  | zero =>
    intro counter _ hwhere
    rw [if_neg (by omega), searchStartLoop]
  | succ j ih =>
    intro counter hlen hwhere
    have hj : j < es.length := by omega
    have hge := h.time_ge_iff time hj
    rw [searchStartLoop, h.numberOfElements, ← Nat.add_assoc, h.shape.descending]
    rcases hwhere with hall | hahead
    · -- below the time: no candidate yet
      rw [if_neg (by rw [hge]; omega)]
      exact ih (counter + 1) (by omega) (Or.inl hall)
    · -- not below the time: stop here unless the element before is not below it either
      have hfound : belowCount Element.timeNat time.toNat es < es.length := by omega
      rw [if_pos (hge.2 (by omega)), if_pos hfound]
      cases j with
      | zero =>
        have hfirst : counter + 1 = es.length := by omega
        rw [if_pos hfirst, show belowCount Element.timeNat time.toNat es = 0 by omega]
      | succ j =>
        have hprevious := h.time_ge_iff time (show j < es.length by omega)
        have hmore : counter + 1 ≠ es.length := by omega
        rw [if_neg hmore, ← Nat.add_assoc, h.shape.descending]
        rcases Nat.lt_or_ge j (belowCount Element.timeNat time.toNat es) with hlt | hle
        · -- the element before is below the time, so this is the first that is not
          rw [if_neg (by rw [hprevious]; omega),
            show belowCount Element.timeNat time.toNat es = j + 1 by omega, Nat.add_assoc]
        · rw [if_pos (hprevious.2 hle)]
          have hrest := ih (counter + 1) (by omega) (Or.inr (by omega))
          rw [← Nat.add_assoc, h.shape.descending, if_pos hfound] at hrest
          exact hrest

theorem searchElementStartTime_eq (h : Represents L o s es) (time : UInt32) :
    searchElementStartTime s time =
      if belowCount Element.timeNat time.toNat es < es.length then
        some ((ring L).addr (o + belowCount Element.timeNat time.toNat es))
      else none := by
  have hle : belowCount Element.timeNat time.toNat es ≤ es.length := belowCount_le_length
  rw [searchElementStartTime, h.numberOfElements, h.writeTo]
  exact h.searchStartLoop_eq time es.length 0 (Nat.add_zero _) (Nat.eq_or_lt_of_le hle)

/-- In an ordered storage the elements up to the time are the oldest ones, so the delete search
finds all of them. -/
theorem searchDeleteLoop_eq (h : Represents L o s es) (time : UInt32) :
    searchDeleteLoop s time s.handler.numberOfElements 0
        (updateDescendingBrowser s.handler s.handler.writeTo) none =
      if 0 < upToCount Element.timeNat time.toNat es then
        some ((ring L).addr o,
          (ring L).addr (o + (upToCount Element.timeNat time.toNat es - 1)))
      else none := by
  have hcount : upToCount Element.timeNat time.toNat es ≤ es.length := upToCount_le_length
  have hwriteTo : s.handler.writeTo = (ring L).addr (o + s.handler.numberOfElements) := by
    rw [h.writeTo, h.numberOfElements]
  -- the elements from number `upToCount` on are newer
  have hnewer : ∀ i, upToCount Element.timeNat time.toNat es ≤ i →
      i < s.handler.numberOfElements → time < timeAt s.heap ((ring L).addr (o + i)) := by
    intro i hle hi
    rw [h.numberOfElements] at hi
    rw [← UInt32.not_le, h.time_le_iff time hi]
    omega
  rcases Nat.eq_zero_or_pos (upToCount Element.timeNat time.toNat es) with hzero | hpos
  · rw [if_neg (by omega)]
    exact h.shape.searchDeleteLoop_none hwriteTo fun i hi => hnewer i (by omega) hi
  · rw [if_pos hpos]
    refine h.shape.searchDeleteLoop_run (b := 0) hwriteTo (Nat.zero_le _) ?_
      (fun i hi hin => hnewer i (by omega) hin) (fun i _ hi => ?_) (Or.inl rfl)
    · rw [h.numberOfElements]
      omega
    · exact (h.time_le_iff time (by omega)).2 (by omega)

end Represents

end CComplete.RamStorage
