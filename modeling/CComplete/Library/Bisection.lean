import Mathlib.Algebra.Order.Group.Int
import Mathlib.Data.Nat.Size

/-!
# Bisection of a window of indices

A bisection keeps a half-open window of indices, asks for the sign at its middle and keeps one of
the two halves. The width of the window decreases with every answer that is not zero. If the signs
along the indices are ordered (positive ones, then zeros, then negative ones), the half that is
given up has no zero.
-/

set_option autoImplicit false

namespace CComplete.Library

/-- The indices from `low` on and before `high`. -/
structure Window where
  low : ℕ
  high : ℕ

namespace Window

/-- The index that is probed. -/
def mid (w : Window) : ℕ := w.low + (w.high - w.low) / 2

/-- The window after the answer at its middle. A zero answer ends the bisection. -/
def narrow (w : Window) (answer : ℤ) : Window :=
  if answer < 0 then ⟨w.low, w.mid⟩
  else if 0 < answer then ⟨w.mid + 1, w.high⟩
  else w

/-- Number of indices in the window. -/
def width (w : Window) : ℕ := w.high - w.low

variable {w : Window}

theorem low_le_mid (w : Window) : w.low ≤ w.mid := Nat.le_add_right _ _

theorem mid_lt_high (h : w.low < w.high) : w.mid < w.high := by
  unfold mid
  omega

theorem narrow_of_neg {answer : ℤ} (h : answer < 0) : w.narrow answer = ⟨w.low, w.mid⟩ := if_pos h

theorem narrow_of_pos {answer : ℤ} (h : 0 < answer) : w.narrow answer = ⟨w.mid + 1, w.high⟩ := by
  rw [narrow, if_neg (not_lt.2 h.le), if_pos h]

theorem width_narrow_lt (h : w.low < w.high) {answer : ℤ} (hne : answer ≠ 0) :
    (w.narrow answer).width < w.width := by
  have hlow := w.low_le_mid
  have hhigh := mid_lt_high h
  rcases lt_or_gt_of_ne hne with hneg | hpos
  · rw [narrow_of_neg hneg, width, width]
    show w.mid - w.low < w.high - w.low
    omega
  · rw [narrow_of_pos hpos, width, width]
    show w.high - (w.mid + 1) < w.high - w.low
    omega

/-- The lower half of the window has half of its width, rounded down. -/
theorem width_lower (w : Window) : (Window.mk w.low w.mid).width = w.width / 2 :=
  Nat.add_sub_cancel_left _ _

/-- The half that is kept has at most half of the width. -/
theorem width_narrow_le_half {answer : ℤ} (hne : answer ≠ 0) :
    (w.narrow answer).width ≤ w.width / 2 := by
  rcases lt_or_gt_of_ne hne with hneg | hpos
  · rw [narrow_of_neg hneg, width_lower]
  · rw [narrow_of_pos hpos, width, width]
    show w.high - (w.low + (w.high - w.low) / 2 + 1) ≤ (w.high - w.low) / 2
    omega

theorem high_narrow_le (h : w.low < w.high) (answer : ℤ) : (w.narrow answer).high ≤ w.high := by
  rw [narrow]
  split
  · exact (mid_lt_high h).le
  · split <;> exact le_rfl

theorem low_le_low_narrow (w : Window) (answer : ℤ) : w.low ≤ (w.narrow answer).low := by
  have hlow := w.low_le_mid
  rw [narrow]
  split
  · exact le_rfl
  · split
    · exact Nat.le_succ_of_le hlow
    · exact le_rfl

/-- The index `i` is not in the window. -/
def Excludes (w : Window) (i : ℕ) : Prop := i < w.low ∨ w.high ≤ i

theorem not_excludes_mid (h : w.low < w.high) : ¬ w.Excludes w.mid := by
  have hlow := w.low_le_mid
  have hhigh := mid_lt_high h
  rintro (hlt | hge)
  · exact absurd hlow (not_le.2 hlt)
  · exact absurd hhigh (not_lt.2 hge)

/-- What left the window stays outside. -/
theorem Excludes.narrow (h : w.low < w.high) {i : ℕ} (hi : w.Excludes i) (answer : ℤ) :
    (w.narrow answer).Excludes i :=
  hi.imp (fun hlt => hlt.trans_le (w.low_le_low_narrow answer))
    fun hge => (high_narrow_le h answer).trans hge

/-- An answer that is not zero puts the index that was probed outside. -/
theorem excludes_mid_narrow (w : Window) {answer : ℤ} (hne : answer ≠ 0) :
    (w.narrow answer).Excludes w.mid := by
  rcases lt_or_gt_of_ne hne with hneg | hpos
  · rw [narrow_of_neg hneg]
    exact Or.inr le_rfl
  · rw [narrow_of_pos hpos]
    exact Or.inl (Nat.lt_succ_self _)

end Window

/-- A positive number has one binary digit more than its half. -/
theorem size_eq_size_half_add_one {n : ℕ} (h : 0 < n) : n.size = (n / 2).size + 1 := by
  have hbit := Nat.bit_bodd_div2 n
  have hsize := Nat.size_bit (hbit.symm ▸ h.ne')
  rwa [hbit, Nat.div2_val] at hsize

/-! ## Ordered signs -/

/-- Along the first `n` indices there are positive signs, then zeros, then negative signs. -/
def SignOrdered (n : ℕ) (sign : ℕ → ℤ) : Prop :=
  ∀ i j, i ≤ j → j < n → (0 < sign j → 0 < sign i) ∧ (sign i < 0 → sign j < 0)

/-- The window has all zeros among the first `n` indices. -/
def Window.Covers (w : Window) (n : ℕ) (sign : ℕ → ℤ) : Prop :=
  ∀ i, i < n → sign i = 0 → w.low ≤ i ∧ i < w.high

/-- The half that is given up has no zero. -/
theorem Window.Covers.narrow {w : Window} {n : ℕ} {sign : ℕ → ℤ} (hcovers : w.Covers n sign)
    (hsign : SignOrdered n sign) (hlt : w.low < w.high) (hhigh : w.high ≤ n) :
    (w.narrow (sign w.mid)).Covers n sign := by
  intro i hi hzero
  obtain ⟨hlow, hup⟩ := hcovers i hi hzero
  have hmid := mid_lt_high hlt
  rcases lt_trichotomy (sign w.mid) 0 with hneg | hmatch | hpos
  · rw [narrow_of_neg hneg]
    refine ⟨hlow, ?_⟩
    -- from the middle on all signs are negative
    by_contra hge
    have := (hsign w.mid i (not_lt.1 hge) hi).2 hneg
    omega
  · rw [Window.narrow, hmatch]
    exact ⟨hlow, hup⟩
  · rw [narrow_of_pos hpos]
    refine ⟨?_, hup⟩
    -- up to the middle all signs are positive
    by_contra hle
    have := (hsign i w.mid (Nat.lt_succ_iff.1 (not_le.1 hle)) (hmid.trans_le hhigh)).1 hpos
    omega

end CComplete.Library
