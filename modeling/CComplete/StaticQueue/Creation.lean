import CComplete.StaticQueue.Fifo

/-!
# Which sizes `create_queue` accepts

`create_queue` compares a 32-bit product of length and item size with the size of the memory area.
A product that wraps to a small number is accepted as well, and such a queue has less room than its
length says. The accepted queues have room for all their items exactly when no accepted product
wraps (`create_queue_fits_iff`).
-/

set_option autoImplicit false

namespace CComplete.StaticQueue

open CComplete.Library

/-- If `create_queue` accepts the sizes, their exact product fits into the memory area, the ring has
that many bytes, and `read_from` is the start of the last slot. -/
def FitsWhenAccepted (q₀ : Queue) (length itemSize : UInt32) : Prop :=
  (createQueue q₀ length itemSize).1 = 0 →
    let q := (createQueue q₀ length itemSize).2
    let size := length.toNat * itemSize.toNat
    1 ≤ size ∧ size ≤ maxQueueLength.toNat ∧ q.tail - q.head = size ∧
      q.readFrom = q.head + (((length.toNat - 1) * itemSize.toNat : ℕ) : ℤ)

/-- The exact product does not wrap, or it wraps to a size that `create_queue` refuses. -/
def NoAcceptedWrap (length itemSize : UInt32) : Prop :=
  let size := length.toNat * itemSize.toNat
  size < 2 ^ 32 ∨ size % 2 ^ 32 = 0 ∨ maxQueueLength.toNat ≤ size % 2 ^ 32

/-- A new queue is created exactly when the 32-bit product is a size of the memory area. -/
theorem createQueue_accepted_iff {q₀ : Queue} (hnew : q₀.length = 0) (length itemSize : UInt32) :
    (createQueue q₀ length itemSize).1 = 0 ↔
      0 < (length * itemSize).toNat ∧ (length * itemSize).toNat < maxQueueLength.toNat := by
  have hzero : ∀ x : UInt32, x ≠ 0 ↔ 0 < x.toNat := fun x => by
    rw [← UInt32.toNat_inj.ne, Nat.pos_iff_ne_zero]
    rfl
  rw [← UInt32.lt_iff_toNat_lt, ← hzero]
  by_cases hlength : 0 < length
  · by_cases hmax : length * itemSize < maxQueueLength
    · by_cases hsize : length * itemSize = 0
      · simp [createQueue, hnew, hlength, hsize, maxQueueLength]
      · simp [createQueue, hnew, hlength, hmax, hsize]
    · simp [createQueue, hnew, hlength, hmax]
  · -- a queue without items has no bytes
    have hnone : length = 0 := by
      by_contra hne
      exact hlength (UInt32.lt_iff_toNat_lt.2 ((hzero length).1 hne))
    subst hnone
    simp [createQueue, hnew]

/-- Sizes with an exact product below the limit are created as the handler says. -/
theorem fits_of_lt {q₀ : Queue} (hnew : q₀.length = 0) {length itemSize : UInt32}
    (hpos : 0 < length.toNat * itemSize.toNat)
    (hlt : length.toNat * itemSize.toNat < maxQueueLength.toNat) :
    FitsWhenAccepted q₀ length itemSize := by
  intro _
  let z : Sizes :=
    ⟨length, itemSize, Nat.pos_of_mul_pos_right hpos, Nat.pos_of_mul_pos_left hpos, hlt⟩
  have hcreate : createQueue q₀ length itemSize = _ := createQueue_eq z hnew
  rw [hcreate]
  refine ⟨hpos, hlt.le, ?_, ?_⟩
  · show queueMemoryArea + ((length * itemSize).toNat : ℤ) - queueMemoryArea = _
    rw [add_sub_cancel_left, toNat_length_mul_itemSize z]
  · show queueMemoryArea + (((length - 1) * itemSize).toNat : ℤ) = _
    rw [toNat_last_item z]
    rfl

/-- For a queue object that was not created yet and any two 32-bit sizes: a queue that is accepted
has room for `length` items exactly when the product of the sizes does not wrap to a size that
`create_queue` accepts. -/
theorem create_queue_fits_iff (q₀ : Queue) (hnew : q₀.length = 0) (length itemSize : UInt32) :
    FitsWhenAccepted q₀ length itemSize ↔ NoAcceptedWrap length itemSize := by
  have hproduct : (length * itemSize).toNat = length.toNat * itemSize.toNat % 2 ^ 32 :=
    UInt32.toNat_mul _ _
  have hmax : maxQueueLength.toNat = 100 := rfl
  have hacc := createQueue_accepted_iff hnew length itemSize
  rw [hproduct] at hacc
  rcases Nat.lt_or_ge (length.toNat * itemSize.toNat) (2 ^ 32) with hexact | hwrap
  · refine iff_of_true ?_ (Or.inl hexact)
    intro hcode
    have hfits := hacc.1 hcode
    rw [Nat.mod_eq_of_lt hexact] at hfits
    exact fits_of_lt hnew hfits.1 hfits.2 hcode
  · by_cases hcode : (createQueue q₀ length itemSize).1 = 0
    · -- accepted although the exact product is far above the limit
      obtain ⟨hpos, hlt⟩ := hacc.1 hcode
      refine iff_of_false (fun hfits => ?_) ?_
      · obtain ⟨-, hle, -⟩ := hfits hcode
        omega
      · rintro (hno | hno | hno) <;> omega
    · refine iff_of_true (fun hno => absurd hno hcode) (Or.inr ?_)
      rw [hacc, not_and_or, not_lt, not_lt, Nat.le_zero] at hcode
      exact hcode

/-- Five items of four bytes. -/
theorem create_queue_fits_iff_four_bytes : FitsWhenAccepted Queue.zero 5 4 :=
  (create_queue_fits_iff Queue.zero rfl 5 4).2 (Or.inl (by decide))

/-- 641 items of 6700417 bytes are `2 ^ 32 + 1` bytes: the queue is accepted with one byte. -/
theorem create_queue_accepts_wrapped : ¬ FitsWhenAccepted Queue.zero 641 6700417 := by
  intro hfits
  obtain ⟨-, hle, -⟩ := hfits (by decide)
  exact absurd hle (by decide)

end CComplete.StaticQueue
