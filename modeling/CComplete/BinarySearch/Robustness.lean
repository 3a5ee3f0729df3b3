import CComplete.BinarySearch.Correctness
import Mathlib.Data.List.Nodup

/-!
# The binary search with any comparator

The comparator may answer anything at every call. The interval arithmetic alone bounds the probes:
an index that was probed lies outside the window from then on, so no index is probed twice, and an
address is returned only after a zero answer on it (`search_robust`).

The offset of an element is a 32-bit product. The addresses are exact for every comparator if and
only if the offset of the last element fits into 32 bits (`addresses_exact_iff`).
-/

set_option autoImplicit false

namespace CComplete.BinarySearch

open CComplete.Library

variable {item array : ℕ} {arraySize elmSize : UInt32} {callback : ComparatorCallback}
variable {s : Search}

/-! ## The probes -/

/-- What every turn preserves with any comparator: the probes are distinct indexes of the array,
they lie outside the window as long as nothing is returned, and a returned address is that of the
last probe, which got the answer 0. -/
structure Probed (item array : ℕ) (arraySize elmSize : UInt32) (callback : ComparatorCallback)
    (s : Search) : Prop where
  high_le : s.window.high ≤ arraySize.toNat
  in_array : ∀ p ∈ s.probes, p < arraySize
  nodup : s.probes.Nodup
  excluded : s.returnAddress = 0 → ∀ p ∈ s.probes, s.window.Excludes p.toNat
  returned : s.returnAddress ≠ 0 → ∃ earlier p, s.probes = earlier ++ [p] ∧
    s.returnAddress = elementAddress array elmSize p ∧
    callback earlier.length item (elementAddress array elmSize p) = 0

theorem probed_initial (item array : ℕ) (arraySize elmSize : UInt32)
    (callback : ComparatorCallback) :
    Probed item array arraySize elmSize callback (Search.initial arraySize) where
  high_le := le_rfl
  in_array := fun _ hp => absurd hp List.not_mem_nil
  nodup := List.nodup_nil
  excluded := fun _ _ hp => absurd hp List.not_mem_nil
  returned := fun hno => absurd rfl hno

/-- Every turn probes the index in the middle. -/
theorem probes_turn (s : Search) (item array : ℕ) (elmSize : UInt32)
    (callback : ComparatorCallback) :
    (s.turn item array elmSize callback).probes = s.probes ++ [s.midIndex] := by
  rcases lt_trichotomy (s.answer item array elmSize callback) 0 with hneg | hzero | hpos
  · rw [turn_of_neg hneg]
  · rw [turn_of_zero hzero]
  · rw [turn_of_pos hpos]

/-- Only the answer 0 changes the return address. -/
theorem returnAddress_turn_of_ne (h : s.answer item array elmSize callback ≠ 0) :
    (s.turn item array elmSize callback).returnAddress = s.returnAddress := by
  rcases lt_or_gt_of_ne h with hneg | hpos
  · rw [turn_of_neg hneg]
  · rw [turn_of_pos hpos]

theorem midIndex_lt (hs : s.window.high ≤ arraySize.toNat) (hrun : s.running = true) :
    s.midIndex < arraySize := by
  have hlt := ((running_iff s).1 hrun).1
  rw [UInt32.lt_iff_toNat_lt, toNat_midIndex hlt]
  exact (Window.mid_lt_high hlt).trans_le hs

theorem high_turn_le (item array : ℕ) (elmSize : UInt32) (callback : ComparatorCallback)
    (hrun : s.running = true) :
    (s.turn item array elmSize callback).window.high ≤ s.window.high := by
  have hlt := ((running_iff s).1 hrun).1
  rw [window_turn item array elmSize callback hlt]
  exact Window.high_narrow_le hlt _

theorem probed_turn (harray : array ≠ 0) (hs : Probed item array arraySize elmSize callback s)
    (hrun : s.running = true) :
    Probed item array arraySize elmSize callback (s.turn item array elmSize callback) := by
  obtain ⟨hlt, hnull⟩ := (running_iff s).1 hrun
  have hmid := toNat_midIndex hlt
  have hfresh : s.midIndex ∉ s.probes := by
    intro hmem
    have hout := hs.excluded hnull _ hmem
    rw [hmid] at hout
    exact Window.not_excludes_mid hlt hout
  refine ⟨(high_turn_le item array elmSize callback hrun).trans hs.high_le, ?_, ?_, ?_, ?_⟩
  · intro p hp
    rw [probes_turn, List.mem_append, List.mem_singleton] at hp
    rcases hp with hp | rfl
    · exact hs.in_array p hp
    · exact midIndex_lt hs.high_le hrun
  · rw [probes_turn, List.nodup_append_comm, List.singleton_append, List.nodup_cons]
    exact ⟨hfresh, hs.nodup⟩
  · intro hstill p hp
    have hne : s.answer item array elmSize callback ≠ 0 := by
      intro hzero
      rw [turn_of_zero hzero, elementAddress] at hstill
      exact harray (Nat.eq_zero_of_add_eq_zero_right hstill)
    rw [window_turn item array elmSize callback hlt]
    rw [probes_turn, List.mem_append, List.mem_singleton] at hp
    rcases hp with hp | rfl
    · exact (hs.excluded hnull p hp).narrow hlt _
    · rw [hmid]
      exact Window.excludes_mid_narrow _ hne
  · intro hreturned
    by_cases hzero : s.answer item array elmSize callback = 0
    · refine ⟨s.probes, s.midIndex, probes_turn s item array elmSize callback, ?_, hzero⟩
      rw [turn_of_zero hzero]
    · rw [returnAddress_turn_of_ne hzero] at hreturned
      exact absurd hnull hreturned

/-- With any comparator on an array that is not at the null address, the search ends after at most
as many turns as there are elements, it probes distinct indexes of the array, and an address that
is returned is that of the last element probed, for which the comparator answered 0. -/
theorem search_robust (item array : ℕ) (arraySize elmSize : UInt32)
    (callback : ComparatorCallback) (harray : arraySize ≠ 0 → array ≠ 0) :
    ∃ s, (∀ fuel, arraySize.toNat ≤ fuel →
        searchLoop item array elmSize callback fuel (Search.initial arraySize) = some s ∧
        binSearchSearch fuel item array arraySize elmSize callback = some s.returnAddress) ∧
      (∀ p ∈ s.probes, p < arraySize) ∧ s.probes.Nodup ∧
      (s.returnAddress ≠ 0 → ∃ earlier p, s.probes = earlier ++ [p] ∧
        s.returnAddress = elementAddress array elmSize p ∧
        callback earlier.length item (elementAddress array elmSize p) = 0) := by
  by_cases hempty : arraySize = 0
  · -- the loop does not start
    subst hempty
    have hs := probed_initial item array 0 elmSize callback
    refine ⟨Search.initial 0, fun fuel _ => ?_, hs.in_array, hs.nodup, hs.returned⟩
    cases fuel <;> exact ⟨rfl, rfl⟩
  · obtain ⟨s, hloop, hs, -⟩ := searchLoop_induction (harray hempty)
      (P := Probed item array arraySize elmSize callback)
      (fun s hs hrun => probed_turn (harray hempty) hs hrun) arraySize.toNat
      (Search.initial arraySize) (probed_initial item array arraySize elmSize callback)
      (Nat.sub_le _ _)
    refine ⟨s, fun fuel hfuel => ?_, hs.in_array, hs.nodup, hs.returned⟩
    have hmore := searchLoop_mono hfuel _ hloop
    exact ⟨hmore, by rw [binSearchSearch, hmore]; rfl⟩

/-- A comparator that answers 1, then -1, then 0: on six elements the probes are 3, 5 and 4. -/
theorem search_robust_changing_answers :
    ∃ s, (∀ fuel, 6 ≤ fuel →
        searchLoop 8 100 4 (fun calls _ _ => [1, -1, 0].getD calls 0) fuel (Search.initial 6) =
          some s ∧
        binSearchSearch fuel 8 100 6 4 (fun calls _ _ => [1, -1, 0].getD calls 0) =
          some s.returnAddress) ∧
      s.probes = [3, 5, 4] ∧ s.probes.Nodup := by
  obtain ⟨s, hloop, -, hnodup, -⟩ :=
    search_robust 8 100 6 4 (fun calls _ _ => [1, -1, 0].getD calls 0) (by decide)
  refine ⟨s, hloop, ?_, hnodup⟩
  have hresult : searchLoop 8 100 4 (fun calls _ _ => [1, -1, 0].getD calls 0) 6
      (Search.initial 6) = some ⟨4, 5, 116, [3, 5, 4]⟩ := by decide
  rw [(hloop 6 le_rfl).1, Option.some.injEq] at hresult
  rw [hresult]

/-- At the null address the answer 0 does not end the loop. -/
theorem search_null_array (fuel item : ℕ) (elmSize : UInt32) :
    binSearchSearch fuel item 0 1 elmSize (fun _ _ _ => 0) = none := by
  have hoffset : elementAddress 0 elmSize 0 = 0 := by
    rw [elementAddress, UInt32.zero_mul]
    rfl
  have hloop : ∀ probes,
      searchLoop item 0 elmSize (fun _ _ _ => 0) fuel ⟨0, 1, 0, probes⟩ = none := by
    induction fuel with
    | zero => exact fun _ => rfl
    | succ fuel ih =>
      intro probes
      have hturn : (Search.mk 0 1 0 probes).turn item 0 elmSize (fun _ _ _ => 0) =
          ⟨0, 1, 0, probes ++ [0]⟩ := by
        have hmid : (Search.mk 0 1 0 probes).midIndex = 0 := by
          show (0 : UInt32) + (1 - 0) / 2 = 0
          decide
        rw [turn_of_zero rfl, hmid, hoffset]
      have hrun : (Search.mk 0 1 0 probes).running = true := rfl
      rw [searchLoop, if_pos hrun, hturn]
      exact ih _
  rw [binSearchSearch, Search.initial, hloop]
  rfl

/-! ## The addresses -/

/-- The states that the loop comes to from `s`. -/
inductive Reaches (item array : ℕ) (elmSize : UInt32) (callback : ComparatorCallback)
    (s : Search) : Search → Prop
  | start : Reaches item array elmSize callback s s
  | turn {t : Search} (ht : Reaches item array elmSize callback s t) (hrun : t.running = true) :
      Reaches item array elmSize callback s (t.turn item array elmSize callback)

/-- The loop ends in a state that it comes to. -/
theorem reaches_of_searchLoop {s₀ : Search} {fuel : ℕ} :
    ∀ s s', Reaches item array elmSize callback s₀ s →
      searchLoop item array elmSize callback fuel s = some s' →
        Reaches item array elmSize callback s₀ s' := by
  induction fuel with
  | zero =>
    intro s s' hs hloop
    rw [searchLoop] at hloop
    split at hloop
    · cases hloop
    · cases hloop
      exact hs
  | succ fuel ih =>
    intro s s' hs hloop
    rw [searchLoop] at hloop
    split at hloop
    · next hrun => exact ih _ _ (hs.turn hrun) hloop
    · cases hloop
      exact hs

/-- No address is off. Before every turn `mid_index` is computed without overflow, it is an index of
the array, and the address that the comparator gets is the exact one of that element, which lies in
the address space. An address that is returned is the exact one of the element probed last. -/
structure AddressesExact (item array : ℕ) (arraySize elmSize : UInt32)
    (callback : ComparatorCallback) : Prop where
  probed : ∀ s, Reaches item array elmSize callback (Search.initial arraySize) s →
    s.running = true →
      s.midIndex.toNat = s.lowIndex.toNat + (s.highIndex.toNat - s.lowIndex.toNat) / 2 ∧
      s.midIndex < arraySize ∧
      elementAddress array elmSize s.midIndex = exactAddress array elmSize s.midIndex.toNat ∧
      exactAddress array elmSize s.midIndex.toNat + elmSize.toNat ≤ 2 ^ 64
  returned : ∀ fuel s,
    searchLoop item array elmSize callback fuel (Search.initial arraySize) = some s →
      binSearchSearch fuel item array arraySize elmSize callback = some s.returnAddress ∧
      (s.returnAddress ≠ 0 → ∃ earlier, ∃ k < arraySize, s.probes = earlier ++ [k] ∧
        s.returnAddress = exactAddress array elmSize k.toNat)

/-- Along the loop the window stays in the array and a returned address is the one probed last. -/
structure Bounded (array : ℕ) (arraySize elmSize : UInt32) (s : Search) : Prop where
  high_le : s.window.high ≤ arraySize.toNat
  returned : s.returnAddress ≠ 0 →
    ∃ earlier, ∃ k < arraySize, s.probes = earlier ++ [k] ∧
      s.returnAddress = elementAddress array elmSize k

theorem bounded_of_reaches
    (hs : Reaches item array elmSize callback (Search.initial arraySize) s) :
    Bounded array arraySize elmSize s := by
  induction hs with
  | start => exact ⟨le_rfl, fun hno => absurd rfl hno⟩
  | @turn t _ hrun ih =>
    refine ⟨(high_turn_le item array elmSize callback hrun).trans ih.high_le, fun hreturned => ?_⟩
    by_cases hzero : t.answer item array elmSize callback = 0
    · refine ⟨t.probes, t.midIndex, midIndex_lt ih.high_le hrun,
        probes_turn t item array elmSize callback, ?_⟩
      rw [turn_of_zero hzero]
    · rw [returnAddress_turn_of_ne hzero] at hreturned
      exact absurd ((running_iff t).1 hrun).2 hreturned

/-- If the offset of the last element fits into 32 bits, the addresses of all elements are exact. -/
theorem elementAddress_eq_of_last (array : ℕ)
    (hlast : (arraySize.toNat - 1) * elmSize.toNat < 2 ^ 32) {k : UInt32} (hk : k < arraySize) :
    elementAddress array elmSize k = exactAddress array elmSize k.toNat := by
  have hlt : k.toNat < arraySize.toNat := UInt32.lt_iff_toNat_lt.1 hk
  have hle : k.toNat * elmSize.toNat ≤ (arraySize.toNat - 1) * elmSize.toNat :=
    Nat.mul_le_mul_right _ (by omega)
  rw [elementAddress, exactAddress, UInt32.toNat_mul, Nat.mod_eq_of_lt (hle.trans_lt hlast)]

/-- The address of an element wraps if its offset does not fit into 32 bits. -/
theorem lt_of_elementAddress_eq {k : UInt32}
    (heq : elementAddress array elmSize k = exactAddress array elmSize k.toNat) :
    k.toNat * elmSize.toNat < 2 ^ 32 := by
  rw [elementAddress, exactAddress, Nat.add_left_cancel_iff] at heq
  rw [← heq]
  exact (k * elmSize).toNat_lt

/-- Elements of an array in the address space lie in the address space. -/
theorem exactAddress_add_le (hexists : array + arraySize.toNat * elmSize.toNat ≤ 2 ^ 64)
    {k : UInt32} (hk : k < arraySize) :
    exactAddress array elmSize k.toNat + elmSize.toNat ≤ 2 ^ 64 := by
  have hlt : k.toNat + 1 ≤ arraySize.toNat := UInt32.lt_iff_toNat_lt.1 hk
  have hle := Nat.mul_le_mul_right elmSize.toNat hlt
  rw [Nat.add_mul, Nat.one_mul] at hle
  rw [exactAddress]
  omega

/-- While all answers are positive, the loop goes on up to the last element. -/
theorem reaches_last (item array : ℕ) (elmSize : UInt32) (width : ℕ) :
    ∀ s, Reaches item array elmSize (fun _ _ _ => 1) (Search.initial arraySize) s →
      s.window.high = arraySize.toNat → s.returnAddress = 0 → s.window.low < s.window.high →
        s.window.width ≤ width + 1 →
          ∃ t, Reaches item array elmSize (fun _ _ _ => 1) (Search.initial arraySize) t ∧
            t.running = true ∧ t.midIndex.toNat = arraySize.toNat - 1 := by
  induction width with
  | zero =>
    intro s hs hhigh hnull hlt hwidth
    refine ⟨s, hs, (running_iff s).2 ⟨hlt, hnull⟩, ?_⟩
    have hlow := s.window.low_le_mid
    have hmid := Window.mid_lt_high hlt
    rw [Window.width] at hwidth
    rw [toNat_midIndex hlt]
    omega
  | succ width ih =>
    intro s hs hhigh hnull hlt hwidth
    have hrun := (running_iff s).2 ⟨hlt, hnull⟩
    have hlow := s.window.low_le_mid
    have hmid := Window.mid_lt_high hlt
    by_cases hlast : s.window.mid = arraySize.toNat - 1
    · exact ⟨s, hs, hrun, (toNat_midIndex hlt).trans hlast⟩
    · -- the next window begins after the middle
      have hanswer : s.answer item array elmSize (fun _ _ _ => 1) = 1 := rfl
      have hwindow := window_turn item array elmSize (fun _ _ _ => 1) hlt
      rw [hanswer, Window.narrow_of_pos one_pos] at hwindow
      apply ih _ (hs.turn hrun)
      · rw [hwindow]
        exact hhigh
      · rw [returnAddress_turn_of_ne (hanswer.trans_ne one_ne_zero), hnull]
      · rw [hwindow]
        show s.window.mid + 1 < s.window.high
        omega
      · rw [Window.width] at hwidth
        rw [hwindow, Window.width]
        show s.window.high - (s.window.mid + 1) ≤ width + 1
        omega

/-- For every array in the address space, the addresses are exact with every comparator if and only
if the exact offset of its last element is below 2^32. -/
theorem addresses_exact_iff (item array : ℕ) (arraySize elmSize : UInt32)
    (hexists : array + arraySize.toNat * elmSize.toNat ≤ 2 ^ 64) :
    (∀ callback, AddressesExact item array arraySize elmSize callback) ↔
      (arraySize.toNat - 1) * elmSize.toNat < 2 ^ 32 := by
  constructor
  · intro hexact
    by_cases hempty : arraySize = 0
    · subst hempty
      rw [UInt32.toNat_zero, Nat.zero_sub, Nat.zero_mul]
      exact Nat.two_pow_pos 32
    · have hpos : 0 < arraySize.toNat := by
        rw [Nat.pos_iff_ne_zero]
        exact fun hzero => hempty (UInt32.toNat_inj.1 hzero)
      obtain ⟨t, ht, hrun, hlast⟩ := reaches_last item array elmSize arraySize.toNat
        (Search.initial arraySize) Reaches.start rfl rfl hpos (Nat.le_succ _)
      obtain ⟨-, -, haddress, -⟩ := (hexact _).probed t ht hrun
      rw [← hlast]
      exact lt_of_elementAddress_eq haddress
  · intro hlast callback
    refine ⟨fun s hs hrun => ?_, fun fuel s hloop => ⟨?_, fun hreturned => ?_⟩⟩
    · have hin := midIndex_lt (bounded_of_reaches hs).high_le hrun
      exact ⟨toNat_midIndex ((running_iff s).1 hrun).1, hin,
        elementAddress_eq_of_last array hlast hin, exactAddress_add_le hexists hin⟩
    · rw [binSearchSearch, hloop]
      rfl
    · have hs := reaches_of_searchLoop _ s Reaches.start hloop
      obtain ⟨earlier, k, hk, hprobes, haddress⟩ := (bounded_of_reaches hs).returned hreturned
      exact ⟨earlier, k, hk, hprobes, haddress.trans (elementAddress_eq_of_last array hlast hk)⟩

/-- The array of six words that the module's own test searches. -/
theorem addresses_exact_iff_test_array :
    AddressesExact 8 100 6 4 (pureComparator (compareUint32 testMemory)) :=
  (addresses_exact_iff 8 100 6 4 (by decide)).2 (by decide) _

/-- Of 131072 elements of 65536 bytes, the first one probed is the element 65536. Its offset, 2^32,
wraps to 0, so the comparator gets the first element. -/
theorem addresses_wrap :
    4096 + (131072 : UInt32).toNat * (65536 : UInt32).toNat ≤ 2 ^ 64 ∧
      ¬ AddressesExact 8 4096 131072 65536 fun _ _ _ => 0 := by
  refine ⟨by decide, fun hexact => ?_⟩
  obtain ⟨-, -, haddress, -⟩ := hexact.probed _ Reaches.start (by decide)
  exact absurd haddress (by decide)

end CComplete.BinarySearch
