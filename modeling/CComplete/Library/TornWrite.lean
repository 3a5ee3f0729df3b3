import CComplete.Library.Bytes

/-!
# Writes that stop in the middle

A write of `new` over `old` that stops after `k` bytes leaves the first `k` bytes of `new` and the
rest of `old`. The mixture is the old string as long as the bytes written are those that were there,
and the new one once those that are missing are.
-/

set_option autoImplicit false

namespace CComplete.Library

/-- The bytes after `k` bytes of a write of `new` over `old`. -/
def torn (k : ℕ) (new old : Bytes) : Bytes := new.take k ++ old.drop k

variable {k : ℕ} {new old : Bytes}

theorem torn_zero (new old : Bytes) : torn 0 new old = old := rfl

theorem torn_of_length_le (h : new.length = old.length) (hk : new.length ≤ k) :
    torn k new old = new := by
  rw [torn, List.take_of_length_le hk, List.drop_eq_nil_of_le (h ▸ hk), List.append_nil]

theorem length_torn (h : new.length = old.length) : (torn k new old).length = old.length := by
  rw [torn, List.length_append, List.length_take, List.length_drop]
  omega

/-- The bytes up to the stop are new. -/
theorem take_torn (h : new.length = old.length) {j : ℕ} (hj : j ≤ k) :
    (torn k new old).take j = new.take j := by
  rcases Nat.le_total new.length k with hall | hpart
  · rw [torn_of_length_le h hall]
  · have hlen : (new.take k).length = k := List.length_take_of_le hpart
    rw [torn, List.take_append_of_le_length (hlen.symm ▸ hj), List.take_take, Nat.min_eq_left hj]

/-- The bytes from the stop on are old. -/
theorem drop_torn (h : new.length = old.length) {j : ℕ} (hj : k ≤ j) :
    (torn k new old).drop j = old.drop j := by
  rcases Nat.le_total new.length k with hall | hpart
  · rw [torn_of_length_le h hall, List.drop_eq_nil_of_le (hall.trans hj),
      List.drop_eq_nil_of_le (h ▸ hall.trans hj)]
  · have hlen : (new.take k).length = k := List.length_take_of_le hpart
    rw [torn, List.drop_append, List.drop_eq_nil_of_le (hlen.trans_le hj), List.nil_append, hlen,
      List.drop_drop, Nat.add_sub_cancel' hj]

/-- A part that ends before the stop is new. -/
theorem take_drop_torn (h : new.length = old.length) {j n : ℕ} (hj : j + n ≤ k) :
    ((torn k new old).drop j).take n = (new.drop j).take n := by
  rw [List.take_drop, List.take_drop, take_torn h hj]

theorem torn_eq_old_iff (h : new.length = old.length) :
    torn k new old = old ↔ new.take k = old.take k := by
  constructor
  · intro hold
    rw [← take_torn h le_rfl, hold]
  · intro htake
    rw [torn, htake, List.take_append_drop]

theorem torn_eq_new_iff (h : new.length = old.length) :
    torn k new old = new ↔ old.drop k = new.drop k := by
  constructor
  · intro hnew
    rw [← drop_torn h le_rfl, hnew]
  · intro hdrop
    rw [torn, hdrop, List.take_append_drop]

/-- A write over a whole file. -/
theorem pwrite_take (h : new.length = old.length) : pwrite old 0 (new.take k) = torn k new old := by
  rw [pwrite, torn]
  split
  · next hnil =>
    rcases List.take_eq_nil_iff.1 hnil with rfl | rfl
    · rfl
    · obtain rfl := List.eq_nil_of_length_eq_zero h.symm
      rw [List.take_nil, List.drop_nil, List.append_nil]
  · have hdrop : old.drop (new.take k).length = old.drop k := by
      rcases Nat.le_total k new.length with hpart | hall
      · rw [List.length_take_of_le hpart]
      · rw [List.take_of_length_le hall, h, List.drop_length, List.drop_eq_nil_of_le (h ▸ hall)]
    rw [List.take_zero, Nat.zero_sub, List.replicate_zero, Nat.zero_add, hdrop]
    rfl

/-- What is read where a write stopped. -/
theorem pread_pwrite_take (f : Bytes) (off : ℕ) (h : new.length = (pread f off new.length).length) :
    pread (pwrite f off (new.take k)) off new.length = torn k new (pread f off new.length) := by
  have hlen := length_pread f off new.length
  rcases Nat.le_total new.length k with hall | hpart
  · rw [List.take_of_length_le hall, pread_pwrite, torn_of_length_le h hall]
  · have htake : (new.take k).length = k := List.length_take_of_le hpart
    have hsplit : new.length = k + (new.length - k) := (Nat.add_sub_cancel' hpart).symm
    have hwritten : pread (pwrite f off (new.take k)) off k = new.take k := by
      have hread := pread_pwrite f off (new.take k)
      rwa [htake] at hread
    have hrest : pread (pwrite f off (new.take k)) (off + k) (new.length - k) =
        pread f (off + k) (new.length - k) := by
      rcases Nat.eq_or_lt_of_le hpart with hend | hmore
      · rw [hend, Nat.sub_self, pread, pread, List.take_zero, List.take_zero]
      · exact pread_pwrite_of_disjoint (by omega) (Or.inr (by omega))
    have hold : (pread f off new.length).drop k = pread f (off + k) (new.length - k) := by
      rw [pread, pread, List.drop_take, List.drop_drop]
    rw [torn, hold, ← hrest]
    nth_rewrite 1 [hsplit]
    rw [pread_add, hwritten]

end CComplete.Library
