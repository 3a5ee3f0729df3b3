import CComplete.BinarySearch.Correctness

/-!
# How often the binary search calls its comparator

Every answer but zero leaves at most half of the window, so a search calls its comparator at most
as many times as the number of elements has binary digits. No bound is better, whatever the number
of elements: the item before all elements needs that many calls (`comparator_calls_worst`).
-/

set_option autoImplicit false

namespace CComplete.BinarySearch

open CComplete.Library

variable {item array : ℕ} {elmSize : UInt32} {callback : ComparatorCallback} {s : Search}

/-- Every turn calls the comparator once. -/
theorem length_probes_turn (s : Search) (item array : ℕ) (elmSize : UInt32)
    (callback : ComparatorCallback) :
    (s.turn item array elmSize callback).probes.length = s.probes.length + 1 := by
  rcases lt_trichotomy (s.answer item array elmSize callback) 0 with hneg | hzero | hpos
  · rw [turn_of_neg hneg, List.length_append, List.length_singleton]
  · rw [turn_of_zero hzero, List.length_append, List.length_singleton]
  · rw [turn_of_pos hpos, List.length_append, List.length_singleton]

theorem searchLoop_of_not_running (h : s.running = false) (fuel : ℕ) :
    searchLoop item array elmSize callback fuel s = some s := by
  cases fuel <;> rw [searchLoop, h, if_neg Bool.false_ne_true]

/-- A turn of a search that goes on halves the number of turns that it may still make. -/
theorem measure_turn_le_half (item : ℕ) (elmSize : UInt32) (callback : ComparatorCallback)
    (harray : array ≠ 0) (h : s.running = true) :
    (s.turn item array elmSize callback).measure ≤ s.measure / 2 := by
  obtain ⟨hlt, hnull⟩ := (running_iff s).1 h
  rw [Search.measure, Search.measure, if_pos hnull]
  split
  · next hgoes =>
    have hne : s.answer item array elmSize callback ≠ 0 := by
      intro hzero
      rw [turn_of_zero hzero] at hgoes
      exact harray (Nat.eq_zero_of_add_eq_zero_right hgoes)
    rw [window_turn item array elmSize callback hlt]
    exact Window.width_narrow_le_half hne
  · exact Nat.zero_le _

/-- A search that may still make fewer than `2 ^ k` turns ends within `k` turns. -/
theorem searchLoop_calls_le (harray : array ≠ 0) (k : ℕ) :
    ∀ s : Search, s.measure < 2 ^ k →
      ∃ s', searchLoop item array elmSize callback k s = some s' ∧
        s'.probes.length ≤ s.probes.length + k := by
  induction k with
  | zero =>
    intro s hmeasure
    have hstop : s.running = false := by
      by_contra hrun
      have hless := measure_turn_lt item elmSize callback harray
        (Bool.eq_true_of_not_eq_false hrun)
      omega
    exact ⟨s, searchLoop_of_not_running hstop 0, le_rfl⟩
  | succ k ih =>
    intro s hmeasure
    cases hrun : s.running with
    | true =>
      have hhalf := measure_turn_le_half item elmSize callback harray hrun
      obtain ⟨s', hloop, hcalls⟩ := ih (s.turn item array elmSize callback) (by omega)
      rw [length_probes_turn] at hcalls
      refine ⟨s', ?_, by omega⟩
      rw [searchLoop, hrun, if_pos rfl, hloop]
    | false => exact ⟨s, searchLoop_of_not_running hrun _, Nat.le_add_right _ _⟩

/-- Where the search stopped without a result, no index is left. -/
theorem width_eq_zero (h : s.running = false) (hnull : s.returnAddress = 0) :
    s.window.width = 0 := by
  apply Nat.sub_eq_zero_of_le
  by_contra hlt
  rw [(running_iff s).2 ⟨not_le.1 hlt, hnull⟩] at h
  cases h

/-- While all answers are negative, the lower half is kept until it is empty. -/
theorem searchLoop_calls_eq (fuel : ℕ) :
    ∀ s s' : Search, s.returnAddress = 0 →
      searchLoop item array elmSize (fun _ _ _ => -1) fuel s = some s' →
        s'.probes.length = s.probes.length + s.window.width.size := by
  induction fuel with
  | zero =>
    intro s s' hnull hloop
    rw [searchLoop] at hloop
    split at hloop
    · cases hloop
    · next hrun =>
      cases hloop
      rw [width_eq_zero (Bool.eq_false_of_not_eq_true hrun) hnull, Nat.size_zero, Nat.add_zero]
  | succ fuel ih =>
    intro s s' hnull hloop
    cases hrun : s.running with
    | true =>
      have hlt := ((running_iff s).1 hrun).1
      have hanswer : s.answer item array elmSize (fun _ _ _ => -1) < 0 := by
        rw [Search.answer]
        decide
      have hwindow := window_turn item array elmSize (fun _ _ _ => -1) hlt
      rw [Window.narrow_of_neg hanswer] at hwindow
      rw [searchLoop, hrun, if_pos rfl] at hloop
      have hrest := ih _ s' (by rw [turn_of_neg hanswer]; exact hnull) hloop
      rw [length_probes_turn, hwindow, Window.width_lower] at hrest
      have hsize := size_eq_size_half_add_one (n := s.window.width) (Nat.sub_pos_of_lt hlt)
      omega
    | false =>
      rw [searchLoop_of_not_running hrun] at hloop
      cases hloop
      rw [width_eq_zero hrun hnull, Nat.size_zero, Nat.add_zero]

/-- For every array that is not at the null address: with any comparator the search ends after at
most as many calls of it as the number of elements has binary digits, and with the one that answers
-1 it needs exactly that many. -/
theorem comparator_calls_worst (item array : ℕ) (arraySize elmSize : UInt32) (harray : array ≠ 0) :
    (∀ callback, ∃ s,
      searchLoop item array elmSize callback arraySize.toNat.size (Search.initial arraySize) =
          some s ∧ s.probes.length ≤ arraySize.toNat.size) ∧
      ∃ s, searchLoop item array elmSize (fun _ _ _ => -1) arraySize.toNat.size
          (Search.initial arraySize) = some s ∧ s.probes.length = arraySize.toNat.size := by
  have hinitial : (Search.initial arraySize).measure < 2 ^ arraySize.toNat.size :=
    Nat.lt_size_self arraySize.toNat
  have hends : ∀ callback : ComparatorCallback, ∃ s,
      searchLoop item array elmSize callback arraySize.toNat.size (Search.initial arraySize) =
          some s ∧ s.probes.length ≤ 0 + arraySize.toNat.size :=
    fun _ => searchLoop_calls_le harray _ (Search.initial arraySize) hinitial
  refine ⟨fun callback => ?_, ?_⟩
  · obtain ⟨s, hloop, hcalls⟩ := hends callback
    exact ⟨s, hloop, hcalls.trans (Nat.zero_add _).le⟩
  · obtain ⟨s, hloop, -⟩ := hends fun _ _ _ => -1
    exact ⟨s, hloop, (searchLoop_calls_eq _ _ s rfl hloop).trans (Nat.zero_add _)⟩

/-- On a million elements the search needs at most twenty calls. -/
theorem comparator_calls_worst_million :
    ∃ s, searchLoop 8 100 4 (pureComparator fun a b => a - b) (1000000 : UInt32).toNat.size
        (Search.initial 1000000) = some s ∧ s.probes.length ≤ 20 := by
  obtain ⟨s, hloop, hcalls⟩ := (comparator_calls_worst 8 100 1000000 4 (by decide)).1
    (pureComparator fun a b => a - b)
  exact ⟨s, hloop, hcalls.trans (by decide +kernel)⟩

end CComplete.BinarySearch
