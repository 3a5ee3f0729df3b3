import CComplete.RamStorage.Search

/-!
# The two distance helpers

The end search of the range read takes the distance to the newest element from
`get_abs_distance_between_address`, the read and the delete take the number of elements between two
positions from `get_number_of_elements_between_positions`. Both are to count the slots that a walk
from the first position to the second visits. Where the walk goes over the junction of tail and
head, both leave out its step from the tail to the head and make up for it at the borders of the
ring, each in its own way. So the three numbers agree exactly when the walk does not go over the
junction, or is that step alone (`distances_agree_iff`).
-/

set_option autoImplicit false

namespace CComplete.RamStorage

open CComplete.Library

/-- Both helpers give the number of slots that the forward walk from `start` to `stop` visits. -/
def DistancesAgree (m : MemoryStorage) (start stop : ℤ) : Prop :=
  ∃ slots, Visits (ascending m) stop start slots ∧
    getAbsDistanceBetweenAddress m start stop / sizeofElement.toNat = slots ∧
    getNumberOfElementsBetweenPositions m start stop = slots

theorem heapElement_eq_addr {L : ℕ+} {i : ℕ} (hi : i < L) : heapElement i = (ring L).addr i := by
  rw [ring_addr, Nat.mod_eq_of_lt hi]

namespace Borders

variable {L : ℕ+} {m : MemoryStorage}

/-- The walk to the slot `d` further on visits `d + 1` slots. -/
theorem distancesAgree_iff_eq (h : Borders L m) (i : ℕ) {d : ℕ} (hd : d < L) :
    DistancesAgree m ((ring L).addr i) ((ring L).addr (i + d)) ↔
      getAbsDistanceBetweenAddress m ((ring L).addr i) ((ring L).addr (i + d)) /
          sizeofElement.toNat = d + 1 ∧
        getNumberOfElementsBetweenPositions m ((ring L).addr i) ((ring L).addr (i + d)) =
          d + 1 := by
  have hwalk :
      Visits (RamStorage.ascending m) ((ring L).addr (i + d)) ((ring L).addr i) (d + 1) := by
    rw [h.ascending_eq]
    exact (ring L).visits_addr i hd
  constructor
  · rintro ⟨slots, hvisits, hdistance, hcount⟩
    rw [hvisits.unique hwalk] at hdistance hcount
    exact ⟨hdistance, hcount⟩
  · exact fun hboth => ⟨d + 1, hwalk, hboth⟩

/-- A walk that does not go over the junction is counted right if its size is. -/
theorem distancesAgree_iff_of_flat (h : Borders L m) {i d : ℕ} (hd : d < L)
    (hflat : i % L ≤ (i + d) % L) :
    DistancesAgree m ((ring L).addr i) ((ring L).addr (i + d)) ↔ 13 * (d + 1) < 2 ^ 32 := by
  have hdistance := h.distance_eq i (Nat.zero_le d) hd
  have hcount := h.count_eq i (Nat.zero_le d) hd
  rw [Nat.add_zero, Nat.sub_zero, if_pos hflat] at hdistance hcount
  rw [h.distancesAgree_iff_eq i hd, hdistance, size_div_eq_iff]
  refine and_iff_left_of_imp fun hsmall => ?_
  rw [hcount (by omega)]
  exact toUnsignedInt_of_lt (by omega)

/-- A walk over the junction is counted right if it is the step from the tail to the head. -/
theorem distancesAgree_iff_of_wrapped (h : Borders L m) {i d : ℕ} (hd : d < L)
    (hwrapped : ¬ i % L ≤ (i + d) % L) :
    DistancesAgree m ((ring L).addr i) ((ring L).addr (i + d)) ↔
      i % L = L - 1 ∧ (i + d) % L = 0 := by
  have hpos : 0 < d := Nat.pos_of_ne_zero (by rintro rfl; exact hwrapped le_rfl)
  have hturn : (i + d) % L + L = i % L + d := by
    obtain ⟨-, hmod⟩ | ⟨-, hmod⟩ := (ring L).mod_add_cases i hd
    · exact absurd (le_of_le_of_eq (Nat.le_add_right _ d) hmod.symm) hwrapped
    · exact hmod
  have hdistance := h.distance_eq i (Nat.zero_le d) hd
  have hcount := h.count_eq i (Nat.zero_le d) hd
  rw [Nat.add_zero, Nat.sub_zero, if_neg hwrapped] at hdistance hcount
  rw [h.distancesAgree_iff_eq i hd, hdistance]
  constructor
  · -- the distance of all elements but two is made up for at two borders only
    rintro ⟨hsize, -⟩
    have hle := size_div_le (d - 1 + (if i % L = L - 1 then 1 else 0) +
      (if (i + d) % L = 0 then 1 else 0))
    rw [hsize] at hle
    split_ifs at hle with hlast hfirst
    · exact ⟨hlast, hfirst⟩
    all_goals omega
  · rintro ⟨hlast, hfirst⟩
    have hstep : d = 1 := by omega
    subst hstep
    rw [hcount (by decide), if_pos hlast, if_pos hfirst, if_pos (Or.inl hlast)]
    decide

/-- From slot number `i` to slot number `j`, by the distance of the two addresses. -/
theorem distancesAgree_iff (h : Borders L m) {i j : ℕ} (hi : i < L) (hj : j < L) :
    DistancesAgree m (heapElement i) (heapElement j) ↔
      (heapElement i ≤ heapElement j ∧
          heapElement j - heapElement i + sizeofElement < 2 ^ 32) ∨
        (heapElement i = m.tail ∧ heapElement j = m.head) := by
  -- the slot `j` is `d` slots on from the slot `i`
  obtain ⟨d, hd, hslot⟩ := (ring L).exists_addr_add_eq i j
  rw [heapElement_eq_addr hi, heapElement_eq_addr hj, ← hslot]
  obtain ⟨hle, hdiff⟩ | ⟨hlt, -⟩ := (ring L).addr_add_cases i hd
  · have hsize : (ring L).addr (i + d) - (ring L).addr i + sizeofElement < 2 ^ 32 ↔
        13 * (d + 1) < 2 ^ 32 := by
      rw [hdiff, show (ring L).stride = 13 from rfl, sizeofElement]
      omega
    rw [h.distancesAgree_iff_of_flat hd ((addr_le_addr_iff L _ _).1 hle), ← hsize,
      and_iff_right hle]
    -- up to the head without the junction: one slot alone
    refine (or_iff_left_of_imp ?_).symm
    rintro ⟨-, hhead⟩
    have hbase : heapElement 0 ≤ (ring L).addr i := (ring L).base_le_addr i
    rw [hhead, h.head, sizeofElement]
    omega
  · have hwrapped := not_le.2 hlt
    rw [h.distancesAgree_iff_of_wrapped hd fun hle => hwrapped ((addr_le_addr_iff L _ _).2 hle),
      or_iff_right fun hle => hwrapped hle.1, h.addr_eq_tail_iff, h.addr_eq_head_iff]

end Borders

/-- At the capacities that the module accepts, every distance fits in an `unsigned int`. -/
theorem Shape.distancesAgree_iff {L : ℕ+} {m : MemoryStorage} (h : Shape L m) {i j : ℕ} (hi : i < L)
    (hj : j < L) :
    DistancesAgree m (heapElement i) (heapElement j) ↔
      heapElement i ≤ heapElement j ∨ (heapElement i = m.tail ∧ heapElement j = m.head) := by
  have hcap := h.capacity
  rw [maxElementsToStore] at hcap
  have hfits : heapElement j - heapElement i + sizeofElement < 2 ^ 32 := by
    rw [heapElement, heapElement, sizeofElement]
    omega
  rw [h.borders.distancesAgree_iff hi hj, and_iff_left hfits]

/-- In a ring of any capacity and for every two of its slots: both helpers give the number of slots
on the walk from the one to the other if and only if the second one is not before the first one, and
their distance with the last element fits in an `unsigned int`, or the first one is the tail and the
second one is the head. -/
theorem distances_agree_iff (L : ℕ+) (m : MemoryStorage) (h : Borders L m) (i j : ℕ) (hi : i < L)
    (hj : j < L) :
    DistancesAgree m (heapElement i) (heapElement j) ↔
      (heapElement i ≤ heapElement j ∧
          heapElement j - heapElement i + sizeofElement < 2 ^ 32) ∨
        (heapElement i = m.tail ∧ heapElement j = m.head) :=
  h.distancesAgree_iff hi hj

/-- Five slots, from the tail to the head. -/
theorem distances_agree_iff_from_tail :
    DistancesAgree (initRamMemoryStorage zeroStorage 5).2.handler (heapElement 4) (heapElement 0) :=
  (distances_agree_iff 5 (initRamMemoryStorage zeroStorage 5).2.handler
    { head := rfl, tail := rfl } 4 0 (by decide) (by decide)).2 (Or.inr ⟨rfl, rfl⟩)

/-- Five slots, from the slot before the tail to the one after the head: the walk visits four slots,
one helper gives two and the other three. -/
theorem distances_differ :
    let m := (initRamMemoryStorage zeroStorage 5).2.handler
    Visits (ascending m) (heapElement 1) (heapElement 3) 4 ∧
      getAbsDistanceBetweenAddress m (heapElement 3) (heapElement 1) / sizeofElement.toNat = 2 ∧
      getNumberOfElementsBetweenPositions m (heapElement 3) (heapElement 1) = 3 ∧
      ¬ DistancesAgree m (heapElement 3) (heapElement 1) := by
  intro m
  have hdistance : getAbsDistanceBetweenAddress m (heapElement 3) (heapElement 1) /
      sizeofElement.toNat = 2 := by decide
  have hcount : getNumberOfElementsBetweenPositions m (heapElement 3) (heapElement 1) = 3 := by
    decide
  refine ⟨?_, hdistance, hcount, ?_⟩
  · exact .onward (by decide) (.onward (by decide) (.onward (by decide) .arrived))
  · rintro ⟨slots, -, hfirst, hsecond⟩
    omega

end CComplete.RamStorage
