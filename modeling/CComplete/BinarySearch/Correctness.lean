import CComplete.BinarySearch.Model
import CComplete.Library.Bisection

/-!
# The binary search finds what is there

The indexes of the search are a bisection window over the elements of the array. Every turn narrows
the window or returns the element it probed, so the loop ends after at most as many turns as there
are elements. With a comparator whose answers are ordered along the array, no matching element
leaves the window, hence the search returns a matching element if there is one and null if there
is none (`search_finds`).
-/

set_option autoImplicit false

namespace CComplete.BinarySearch

open CComplete.Library

variable {item array : ℕ} {arraySize elmSize : UInt32} {callback : ComparatorCallback}
variable {compare : ℕ → ℕ → ℤ} {s : Search}

/-! ## One turn -/

/-- The indexes that may still be probed. -/
def Search.window (s : Search) : Window := ⟨s.lowIndex.toNat, s.highIndex.toNat⟩

/-- The answer that the next turn gets. -/
def Search.answer (s : Search) (item array : ℕ) (elmSize : UInt32)
    (callback : ComparatorCallback) : ℤ :=
  callback s.probes.length item (elementAddress array elmSize s.midIndex)

/-- Turns that the loop may still make. -/
def Search.measure (s : Search) : ℕ := if s.returnAddress = 0 then s.window.width else 0

theorem running_iff (s : Search) :
    s.running = true ↔ s.window.low < s.window.high ∧ s.returnAddress = 0 := by
  rw [Search.running, Bool.and_eq_true, decide_eq_true_eq, beq_iff_eq, gt_iff_lt,
    UInt32.lt_iff_toNat_lt]
  rfl

/-- The midpoint does not overflow. -/
theorem toNat_midIndex (h : s.window.low < s.window.high) :
    s.midIndex.toNat = s.window.mid := by
  have hle : s.lowIndex ≤ s.highIndex := UInt32.le_iff_toNat_le.2 h.le
  have hhigh := s.highIndex.toNat_lt
  have hmid := Window.mid_lt_high h
  have hhalf : ((s.highIndex - s.lowIndex) / 2).toNat =
      (s.highIndex.toNat - s.lowIndex.toNat) / 2 := by
    rw [UInt32.toNat_div, UInt32.toNat_sub_of_le _ _ hle]
    rfl
  have hsum : s.lowIndex.toNat + (s.highIndex.toNat - s.lowIndex.toNat) / 2 = s.window.mid := rfl
  have hbound : s.window.mid < s.highIndex.toNat := hmid
  rw [Search.midIndex, UInt32.toNat_add, hhalf, hsum]
  exact Nat.mod_eq_of_lt (hbound.trans hhigh)

theorem turn_of_neg (h : s.answer item array elmSize callback < 0) :
    s.turn item array elmSize callback =
      { s with probes := s.probes ++ [s.midIndex], highIndex := s.midIndex } := if_pos h

theorem turn_of_pos (h : 0 < s.answer item array elmSize callback) :
    s.turn item array elmSize callback =
      { s with probes := s.probes ++ [s.midIndex], lowIndex := s.midIndex + 1 } :=
  (if_neg (not_lt.2 h.le)).trans (if_pos h)

theorem turn_of_zero (h : s.answer item array elmSize callback = 0) :
    s.turn item array elmSize callback =
      { s with
        probes := s.probes ++ [s.midIndex]
        returnAddress := elementAddress array elmSize s.midIndex } :=
  (if_neg (not_lt.2 h.ge)).trans (if_neg (not_lt.2 h.le))

/-- A turn narrows the window by the answer it gets. -/
theorem window_turn (item array : ℕ) (elmSize : UInt32) (callback : ComparatorCallback)
    (h : s.window.low < s.window.high) :
    (s.turn item array elmSize callback).window =
      s.window.narrow (s.answer item array elmSize callback) := by
  have hmid := toNat_midIndex h
  rcases lt_trichotomy (s.answer item array elmSize callback) 0 with hneg | hzero | hpos
  · rw [turn_of_neg hneg, Window.narrow_of_neg hneg, ← hmid]
    rfl
  · rw [turn_of_zero hzero, hzero]
    rfl
  · have hlt := Window.mid_lt_high h
    have hhigh : s.window.high < 2 ^ 32 := s.highIndex.toNat_lt
    have hsucc : (s.midIndex + 1).toNat = s.window.mid + 1 := by
      rw [UInt32.toNat_add, hmid]
      exact Nat.mod_eq_of_lt (show s.window.mid + 1 < 2 ^ 32 by omega)
    rw [turn_of_pos hpos, Window.narrow_of_pos hpos, ← hsucc]
    rfl

/-- In an array that is not at the null address, every turn decreases the measure. -/
theorem measure_turn_lt (item : ℕ) (elmSize : UInt32) (callback : ComparatorCallback)
    (harray : array ≠ 0) (h : s.running = true) :
    (s.turn item array elmSize callback).measure < s.measure := by
  obtain ⟨hlt, hnull⟩ := (running_iff s).1 h
  have hwidth : 0 < s.window.width := Nat.sub_pos_of_lt hlt
  have hwindow := window_turn item array elmSize callback hlt
  rw [Search.measure, Search.measure, if_pos hnull]
  by_cases hzero : s.answer item array elmSize callback = 0
  · -- the element that matches is returned
    have haddress : (s.turn item array elmSize callback).returnAddress ≠ 0 := by
      rw [turn_of_zero hzero]
      show array + _ ≠ 0
      omega
    rw [if_neg haddress]
    exact hwidth
  · have hnarrow := Window.width_narrow_lt hlt hzero
    rw [← hwindow] at hnarrow
    split
    · exact hnarrow
    · exact hwidth

/-! ## The loop -/

/-- What the first state satisfies and every turn preserves holds when the loop ends, and it ends
within as many turns as the measure says. -/
theorem searchLoop_induction {P : Search → Prop} (harray : array ≠ 0)
    (hturn : ∀ s, P s → s.running = true → P (s.turn item array elmSize callback)) (fuel : ℕ) :
    ∀ s, P s → s.measure ≤ fuel →
      ∃ s', searchLoop item array elmSize callback fuel s = some s' ∧ P s' ∧
        s'.running = false := by
  induction fuel with
  | zero =>
    intro s hs hfuel
    have hstop : s.running = false := by
      by_contra hrun
      have hless := measure_turn_lt item elmSize callback harray
        (Bool.eq_true_of_not_eq_false hrun)
      omega
    exact ⟨s, by rw [searchLoop, hstop, if_neg Bool.false_ne_true], hs, hstop⟩
  | succ fuel ih =>
    intro s hs hfuel
    cases hrun : s.running with
    | true =>
      have hless := measure_turn_lt item elmSize callback harray hrun
      rw [searchLoop, hrun, if_pos rfl]
      exact ih _ (hturn s hs hrun) (by omega)
    | false => exact ⟨s, by rw [searchLoop, hrun, if_neg Bool.false_ne_true], hs, hrun⟩

/-- More fuel does not change the result. -/
theorem searchLoop_mono {fuel fuel' : ℕ} (hle : fuel ≤ fuel') {s' : Search} :
    ∀ s, searchLoop item array elmSize callback fuel s = some s' →
      searchLoop item array elmSize callback fuel' s = some s' := by
  induction fuel generalizing fuel' with
  | zero =>
    intro s hs
    have hstop : s.running = false := by
      by_contra hrun
      rw [searchLoop, if_pos (Bool.eq_true_of_not_eq_false hrun)] at hs
      cases hs
    rw [searchLoop, hstop, if_neg Bool.false_ne_true] at hs
    cases fuel' <;> rw [searchLoop, hstop, if_neg Bool.false_ne_true, hs]
  | succ fuel ih =>
    intro s hs
    obtain ⟨fuel', rfl⟩ := Nat.exists_eq_add_one.2 (Nat.lt_of_lt_of_le (Nat.succ_pos fuel) hle)
    rw [searchLoop] at hs ⊢
    cases hrun : s.running with
    | true =>
      rw [hrun, if_pos rfl] at hs
      rw [if_pos rfl]
      exact ih (Nat.le_of_succ_le_succ hle) _ hs
    | false =>
      rw [hrun, if_neg Bool.false_ne_true] at hs
      rw [if_neg Bool.false_ne_true, hs]

/-! ## Ordered comparators -/

/-- Address of the element number `k`, computed without wrap-around. -/
def exactAddress (array : ℕ) (elmSize : UInt32) (k : ℕ) : ℕ := array + k * elmSize.toNat

/-- The answers on the elements are ordered: positive ones, then zeros, then negative ones. -/
def OrderedAlong (compare : ℕ → ℕ → ℤ) (item array : ℕ) (arraySize elmSize : UInt32) : Prop :=
  SignOrdered arraySize.toNat fun k => compare item (exactAddress array elmSize k)

/-- The search ends, with the address of an element that matches the item if there is one, and with
null if there is none. -/
def Finds (compare : ℕ → ℕ → ℤ) (item array : ℕ) (arraySize elmSize : UInt32) : Prop :=
  ∃ result,
    (∀ fuel, arraySize.toNat ≤ fuel →
      binSearchSearch fuel item array arraySize elmSize (pureComparator compare) = some result) ∧
    ((∃ k < arraySize.toNat, compare item (exactAddress array elmSize k) = 0) →
      ∃ k < arraySize.toNat, result = exactAddress array elmSize k ∧ compare item result = 0) ∧
    ((∀ k < arraySize.toNat, compare item (exactAddress array elmSize k) ≠ 0) → result = 0)

theorem elementAddress_eq (array : ℕ) (hfits : arraySize.toNat * elmSize.toNat < 2 ^ 32)
    {k : UInt32} (hk : k.toNat < arraySize.toNat) :
    elementAddress array elmSize k = exactAddress array elmSize k.toNat := by
  have hle : k.toNat * elmSize.toNat ≤ arraySize.toNat * elmSize.toNat :=
    Nat.mul_le_mul_right _ hk.le
  rw [elementAddress, exactAddress, UInt32.toNat_mul, Nat.mod_eq_of_lt (hle.trans_lt hfits)]

/-- What every turn with an ordered comparator preserves: all matching elements are in the window,
and an address that is returned is that of a matching element. -/
structure Sound (compare : ℕ → ℕ → ℤ) (item array : ℕ) (arraySize elmSize : UInt32)
    (s : Search) : Prop where
  high_le : s.window.high ≤ arraySize.toNat
  covers : s.window.Covers arraySize.toNat fun k => compare item (exactAddress array elmSize k)
  returned : s.returnAddress ≠ 0 → ∃ k < arraySize.toNat,
    s.returnAddress = exactAddress array elmSize k ∧ compare item s.returnAddress = 0

theorem sound_initial (compare : ℕ → ℕ → ℤ) (item array : ℕ) (arraySize elmSize : UInt32) :
    Sound compare item array arraySize elmSize (Search.initial arraySize) where
  high_le := le_rfl
  covers := fun k hk _ => ⟨Nat.zero_le k, hk⟩
  returned := fun hno => absurd rfl hno

theorem sound_turn (hfits : arraySize.toNat * elmSize.toNat < 2 ^ 32)
    (hordered : OrderedAlong compare item array arraySize elmSize)
    (hs : Sound compare item array arraySize elmSize s) (hrun : s.running = true) :
    Sound compare item array arraySize elmSize
      (s.turn item array elmSize (pureComparator compare)) := by
  obtain ⟨hlt, hnull⟩ := (running_iff s).1 hrun
  have hmid := toNat_midIndex hlt
  have hin : s.midIndex.toNat < arraySize.toNat := by
    rw [hmid]
    exact (Window.mid_lt_high hlt).trans_le hs.high_le
  have haddress := elementAddress_eq array hfits hin
  have hanswer : s.answer item array elmSize (pureComparator compare) =
      compare item (exactAddress array elmSize s.window.mid) := by
    rw [← hmid, ← haddress]
    rfl
  have hwindow := window_turn item array elmSize (pureComparator compare) hlt
  refine ⟨?_, ?_, ?_⟩
  · rw [hwindow]
    exact (Window.high_narrow_le hlt _).trans hs.high_le
  · rw [hwindow, hanswer]
    exact hs.covers.narrow hordered hlt hs.high_le
  · intro hne
    rcases lt_trichotomy (s.answer item array elmSize (pureComparator compare)) 0 with
      hneg | hzero | hpos
    · rw [turn_of_neg hneg] at hne
      exact absurd hnull hne
    · rw [turn_of_zero hzero]
      refine ⟨s.midIndex.toNat, hin, haddress, ?_⟩
      rw [hanswer, ← hmid, ← haddress] at hzero
      exact hzero
    · rw [turn_of_pos hpos] at hne
      exact absurd hnull hne

/-- An ordered comparator finds what is there. -/
theorem finds_of_ordered (hfits : arraySize.toNat * elmSize.toNat < 2 ^ 32)
    (harray : arraySize ≠ 0 → array ≠ 0)
    (hordered : OrderedAlong compare item array arraySize elmSize) :
    Finds compare item array arraySize elmSize := by
  by_cases hempty : arraySize = 0
  · -- the loop does not start
    subst hempty
    refine ⟨0, fun fuel _ => ?_, fun hsome => ?_, fun _ => rfl⟩
    · cases fuel <;> rfl
    · obtain ⟨k, hk, -⟩ := hsome
      exact absurd hk (Nat.not_lt_zero k)
  · have hmeasure : (Search.initial arraySize).measure ≤ arraySize.toNat := Nat.sub_le _ _
    obtain ⟨s, hloop, hs, hstop⟩ := searchLoop_induction (harray hempty)
      (P := Sound compare item array arraySize elmSize)
      (fun s hs hrun => sound_turn hfits hordered hs hrun) arraySize.toNat
      (Search.initial arraySize) (sound_initial compare item array arraySize elmSize) hmeasure
    refine ⟨s.returnAddress, fun fuel hfuel => ?_, ?_, ?_⟩
    · rw [binSearchSearch, searchLoop_mono hfuel _ hloop]
      rfl
    · rintro ⟨k, hk, hmatch⟩
      apply hs.returned
      intro hnull
      -- the window is empty, so it does not have the match
      have hwindow := hs.covers k hk hmatch
      have hrun := (running_iff s).2 ⟨by omega, hnull⟩
      rw [hstop] at hrun
      exact Bool.false_ne_true hrun
    · intro hnone
      by_contra hne
      obtain ⟨k, hk, haddress, hmatch⟩ := hs.returned hne
      rw [haddress] at hmatch
      exact hnone k hk hmatch

/-! ## Ascending words -/

/-- The words of the array are in ascending unsigned order. -/
def AscendingWords (mem : Memory) (array : ℕ) (arraySize : UInt32) : Prop :=
  ∀ i j, i ≤ j → j < arraySize.toNat →
    uint32At mem (exactAddress array 4 i) ≤ uint32At mem (exactAddress array 4 j)

theorem compareUint32_pos_iff (mem : Memory) (a b : ℕ) :
    0 < compareUint32 mem a b ↔ uint32At mem b < uint32At mem a := by
  rw [compareUint32]
  split_ifs with hgt hlt
  · exact iff_of_true (by decide) hgt
  · exact iff_of_false (by decide) hgt
  · exact iff_of_false (by decide) hgt

theorem compareUint32_neg_iff (mem : Memory) (a b : ℕ) :
    compareUint32 mem a b < 0 ↔ uint32At mem a < uint32At mem b := by
  rw [compareUint32]
  split_ifs with hgt hlt
  · exact iff_of_false (by decide) (UInt32.lt_asymm hgt)
  · exact iff_of_true (by decide) hlt
  · exact iff_of_false (by decide) hlt

/-- On ascending words `compare_UINT32` is ordered. -/
theorem orderedAlong_compareUint32 {mem : Memory} (hascending : AscendingWords mem array arraySize)
    (item : ℕ) : OrderedAlong (compareUint32 mem) item array arraySize 4 := by
  intro i j hij hj
  have hle := hascending i j hij hj
  simp only [compareUint32_pos_iff, compareUint32_neg_iff]
  exact ⟨fun hlt => UInt32.lt_of_le_of_lt hle hlt, fun hlt => UInt32.lt_of_lt_of_le hlt hle⟩

/-- For every array whose size in bytes fits into an `unsigned int` and every comparator whose
answers on the item are ordered along the array, the search ends, and it returns a matching element
if there is one and null if there is none. The same holds of `compare_UINT32` on every array in
ascending unsigned order. -/
theorem search_finds :
    (∀ (compare : ℕ → ℕ → ℤ) (item array : ℕ) (arraySize elmSize : UInt32), 1 ≤ elmSize →
      arraySize.toNat * elmSize.toNat < 2 ^ 32 → (arraySize ≠ 0 → array ≠ 0) →
        OrderedAlong compare item array arraySize elmSize →
          Finds compare item array arraySize elmSize) ∧
      ∀ (mem : Memory) (item array : ℕ) (arraySize : UInt32), arraySize.toNat * 4 < 2 ^ 32 →
        (arraySize ≠ 0 → array ≠ 0) → AscendingWords mem array arraySize →
          Finds (compareUint32 mem) item array arraySize 4 :=
  ⟨fun _ _ _ _ _ _ hfits harray hordered => finds_of_ordered hfits harray hordered,
    fun _ item _ _ hfits harray hascending =>
      finds_of_ordered hfits harray (orderedAlong_compareUint32 hascending item)⟩

/-- The array of the module's own test, at address 100. The item, 12, is at address 8. -/
def testMemory : Memory where
  byte a :=
    if a = 8 then 12
    else if a % 4 = 0 ∧ 100 ≤ a then [1, 2, 3, 4, 12, 35].getD ((a - 100) / 4).toNat 0
    else 0
  accessed := []

theorem ascendingWords_testMemory : AscendingWords testMemory 100 6 := by
  have hall : ∀ j < 6, ∀ i ≤ j,
      uint32At testMemory (exactAddress 100 4 i) ≤ uint32At testMemory (exactAddress 100 4 j) := by
    decide
  exact fun i j hij hj => hall j hj i hij

/-- The fifth element of the test array matches. -/
theorem search_finds_test_array :
    binSearchSearch 6 8 100 6 4 (pureComparator (compareUint32 testMemory)) = some 116 ∧
      Finds (compareUint32 testMemory) 8 100 6 4 :=
  ⟨by decide, search_finds.2 testMemory 8 100 6 (by decide) (by decide) ascendingWords_testMemory⟩

end CComplete.BinarySearch
