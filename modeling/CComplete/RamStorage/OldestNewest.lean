import CComplete.RamStorage.Invariant

/-!
# The oldest and the newest time

Both reports walk back from `write_to`. The oldest time is the least one of the live elements in any
order; the newest time is that of the last written element. In an empty storage both read the slot
before `write_to`, which holds zeros (`oldest_newest_report`).
-/

set_option autoImplicit false

namespace CComplete.RamStorage

open CComplete.Library

/-! ## The oldest time -/

namespace Holds

variable {L : ℕ+} {o : ℕ} {s : Storage} {es : List Element}

/-- The loop of the oldest time, with the elements before number `j` ahead: it ends with the least
of their times and the time it starts with. -/
theorem oldestTimeLoop_least (h : Holds L o s es) (j : ℕ) :
    ∀ time, j ≤ es.length →
      let oldest := oldestTimeLoop s j ((ring L).addr (o + j)) time
      (oldest = time ∨ ∃ e ∈ es, oldest = e.time) ∧ oldest ≤ time ∧
        ∀ i (hi : i < es.length), i < j → oldest ≤ es[i].time := by
  induction j with
  | zero =>
    intro time _
    exact ⟨Or.inl rfl, UInt32.le_refl time, fun _ _ hno => absurd hno (Nat.not_lt_zero _)⟩
  | succ j ih =>
    intro time hj
    have hlive : timeAt s.heap ((ring L).addr (o + j)) = es[j].time := h.timeAt_live hj
    simp only [oldestTimeLoop, ← Nat.add_assoc, h.shape.descending, hlive]
    obtain ⟨hsome, hle, hall⟩ := ih (if es[j].time ≤ time then es[j].time else time) (by omega)
    generalize oldestTimeLoop s j ((ring L).addr (o + j))
      (if es[j].time ≤ time then es[j].time else time) = oldest at hsome hle hall
    by_cases hless : es[j].time ≤ time
    · rw [if_pos hless] at hsome hle
      refine ⟨Or.inr ?_, UInt32.le_trans hle hless, fun i hi hij => ?_⟩
      · rcases hsome with hsame | hsome
        · exact ⟨es[j], List.getElem_mem _, hsame⟩
        · exact hsome
      · rcases Nat.lt_or_eq_of_le (Nat.le_of_lt_succ hij) with hlt | rfl
        · exact hall i hi hlt
        · exact hle
    · rw [if_neg hless] at hsome hle
      refine ⟨hsome, hle, fun i hi hij => ?_⟩
      rcases Nat.lt_or_eq_of_le (Nat.le_of_lt_succ hij) with hlt | rfl
      · exact hall i hi hlt
      · exact UInt32.le_trans hle (UInt32.le_of_lt (UInt32.not_le.1 hless))

/-- The oldest time of a storage that is not empty is the least time of its elements. -/
theorem updateWithOldestTime_least (h : Holds L o s es) (hpos : 0 < es.length) :
    (∃ e ∈ es, updateWithOldestTime s = e.time) ∧ ∀ e ∈ es, updateWithOldestTime s ≤ e.time := by
  have hlast : es.length - 1 < es.length := Nat.sub_one_lt_of_lt hpos
  have hreport : updateWithOldestTime s =
      oldestTimeLoop s (es.length - 1) ((ring L).addr (o + (es.length - 1)))
        es[es.length - 1].time := by
    simp only [updateWithOldestTime, getOldestTime, h.newestAddress_eq hpos, h.numberOfElements,
      h.timeAt_live hlast]
  obtain ⟨hsome, hle, hall⟩ := h.oldestTimeLoop_least (es.length - 1) es[es.length - 1].time
    (Nat.sub_le _ _)
  rw [← hreport] at hsome hle hall
  refine ⟨?_, fun e he => ?_⟩
  · rcases hsome with hsame | hsome
    · exact ⟨_, List.getElem_mem hlast, hsame⟩
    · exact hsome
  · obtain ⟨i, hi, rfl⟩ := List.mem_iff_getElem.1 he
    rcases Nat.lt_or_eq_of_le (Nat.le_sub_one_of_lt hi) with hlt | rfl
    · exact hall i hi hlt
    · exact hle

end Holds

/-! ## The newest time and the empty storage -/

namespace Represents

variable {L : ℕ+} {o : ℕ} {s : Storage} {es : List Element}

/-- The newest time of a storage that is not empty is the greatest time of its elements. -/
theorem updateWithNewestTime_greatest (h : Represents L o s es) (hpos : 0 < es.length) :
    (∃ e ∈ es, updateWithNewestTime s = e.time) ∧ ∀ e ∈ es, e.time ≤ updateWithNewestTime s := by
  have hlast : es.length - 1 < es.length := Nat.sub_one_lt_of_lt hpos
  have hreport : updateWithNewestTime s = es[es.length - 1].time := by
    rw [updateWithNewestTime, getNewestTime, h.holds.newestAddress_eq hpos,
      h.holds.timeAt_live hlast]
  rw [hreport]
  refine ⟨⟨_, List.getElem_mem hlast, rfl⟩, fun e he => ?_⟩
  obtain ⟨i, hi, rfl⟩ := List.mem_iff_getElem.1 he
  exact UInt32.le_iff_toNat_le.2 (h.ordered.getElem_le (Nat.le_sub_one_of_lt hi) hi hlast)

/-- Before `write_to` of an empty storage is a slot of zeros. -/
theorem timeAt_newest_of_nil (h : Represents L o s []) :
    timeAt s.heap (updateDescendingBrowser s.handler s.handler.writeTo) = 0 := by
  have hpred : (L : ℕ) - 1 < L := Nat.sub_one_lt_of_lt L.pos
  have hwriteTo : s.handler.writeTo = (ring L).addr (o + (L - 1) + 1) :=
    h.writeTo.trans (ring_addr_turn (show o + (L - 1) + 1 = o + 0 + (L : ℕ) by omega)).symm
  rw [hwriteTo, h.shape.descending]
  exact timeAt_eq (h.zeros _ (Nat.zero_le _) hpred)

theorem reports_of_nil (h : Represents L o s []) :
    updateWithOldestTime s = 0 ∧ updateWithNewestTime s = 0 := by
  have hzero := h.timeAt_newest_of_nil
  have hnumber : s.handler.numberOfElements = 0 := h.numberOfElements
  refine ⟨?_, hzero⟩
  simp only [updateWithOldestTime, getOldestTime, hnumber, Nat.zero_sub, oldestTimeLoop, hzero]

end Represents

/-- In every state reached from an accepted `init` by writes with times that do not decrease, reads
and deletes: if the storage is not empty, the reported oldest and newest times are the least and the
greatest time of the live elements; if it is empty, both are 0. -/
theorem oldest_newest_report (s₀ : Storage) (length : UInt32) (hlength : 1 ≤ length)
    (hinit : (initRamMemoryStorage s₀ length).1 = 0) (ops : List Op)
    (htimes : (ops.filterMap Op.writtenTime).Pairwise (· ≤ ·)) :
    let s := system.after (initRamMemoryStorage s₀ length).2 ops
    (s.handler.numberOfElements ≠ 0 →
      ((∃ e ∈ liveElements s, updateWithOldestTime s = e.time) ∧
        ∀ e ∈ liveElements s, updateWithOldestTime s ≤ e.time) ∧
      ((∃ e ∈ liveElements s, updateWithNewestTime s = e.time) ∧
        ∀ e ∈ liveElements s, e.time ≤ updateWithNewestTime s)) ∧
    (s.handler.numberOfElements = 0 → updateWithOldestTime s = 0 ∧ updateWithNewestTime s = 0) := by
  intro s
  obtain ⟨L, o, dropped, es, -, h, -⟩ := represents_run s₀ hlength hinit htimes
  have hlive : liveElements s = es := h.holds.liveElements_eq
  have hnumber : s.handler.numberOfElements = es.length := h.numberOfElements
  rw [hlive, hnumber]
  refine ⟨fun hne => ?_, fun hzero => ?_⟩
  · have hpos : 0 < es.length := Nat.pos_of_ne_zero hne
    exact ⟨h.holds.updateWithOldestTime_least hpos, h.updateWithNewestTime_greatest hpos⟩
  · obtain rfl := List.eq_nil_of_length_eq_zero hzero
    exact h.reports_of_nil

/-- Three slots, rotated by a delete: the elements of times 2, 3 and 5 are live. -/
theorem oldest_newest_report_rotated :
    let s := system.after (initRamMemoryStorage zeroStorage 3).2 [writeAt 1, writeAt 2, writeAt 3,
      .deleteUpToTime 1, writeAt 5]
    (∃ e ∈ liveElements s, updateWithOldestTime s = e.time) ∧
      ∀ e ∈ liveElements s, e.time ≤ updateWithNewestTime s :=
  let report := (oldest_newest_report zeroStorage 3 (by decide) (by decide)
    [writeAt 1, writeAt 2, writeAt 3, .deleteUpToTime 1, writeAt 5] (by decide)).1
    (by decide +kernel)
  ⟨report.1.1, report.2.2⟩

end CComplete.RamStorage
