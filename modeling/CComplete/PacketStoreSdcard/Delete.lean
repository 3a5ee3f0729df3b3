import CComplete.PacketStoreSdcard.RangeRead

/-!
# What a delete leaves

`delete_up_to_time` erases everything when the time reaches the newest one. Otherwise it erases as
many packets as the position difference from the oldest packet to the last one up to the time
counts. When that last packet lies past the wrap the count is one short, and the packet stays live.
So a delete leaves exactly the newer packets if and only if it erases everything or no packet up to
the time lies at a position below `oldest_tm_position` (`delete_exact_iff`).
-/

set_option autoImplicit false

namespace CComplete.PacketStoreSdcard

open CComplete.Library

/-- The live packets with a time above `time`. -/
def packetsAfter (s : Store) (time : UInt32) : List Element :=
  (livePackets s).filter fun p => decide (time < p.coarseTime)

/-- The live packets are exactly `packets`, `tm_number` is their count and `oldest_time` is the
smallest of their times. -/
structure LiveExactly (s : Store) (packets : List Element) : Prop where
  slots : liveSlots s = packets.map some
  tmNumber : s.handler.tmNumber = packets.length
  oldestTime : packets ≠ [] → (∃ p ∈ packets, p.coarseTime = s.handler.oldestTime) ∧
    ∀ p ∈ packets, s.handler.oldestTime ≤ p.coarseTime

/-- A delete with a live packet up to `time` returns 0 and leaves exactly the later packets; a
delete without one returns another code and changes nothing. -/
def DeletesExactly (s : Store) (time : UInt32) : Prop :=
  let call := deleteUpToTime (s.begin allGranted) time
  ((∃ p ∈ livePackets s, p.coarseTime ≤ time) →
      call.1 = 0 ∧ LiveExactly call.2.toStore (packetsAfter s time)) ∧
    ((∀ p ∈ livePackets s, time < p.coarseTime) → call.1 ≠ 0 ∧ call.2.toStore = s)

/-- The time reaches the newest one, or no live packet up to it lies at a position below the oldest
one. -/
def DeleteEndsBeforeWrap (s : Store) (time : UInt32) : Prop :=
  s.handler.newestTime ≤ time ∨ UpToBeforeWrap s time

namespace Represents

variable {N : ℕ+} {o : ℕ} {s : Store} {ps : List Element}

theorem packetsAfter_eq (h : Represents N o s ps) (time : UInt32) :
    packetsAfter s time = ps.drop (upToCount Element.time time.toNat ps) := by
  rw [packetsAfter, h.livePackets_eq]
  apply h.ordered.filter_above
  intro p
  rw [decide_eq_true_eq, UInt32.lt_iff_toNat_lt]
  rfl

theorem liveExactly (h : Represents N o s ps) : LiveExactly s ps where
  slots := h.liveSlots_eq
  tmNumber := h.tmNumber
  oldestTime := by
    intro hne
    obtain ⟨p, rest, rfl⟩ := List.exists_cons_of_ne_nil hne
    have hfirst : s.handler.oldestTime = p.coarseTime := h.oldestTime
    rw [hfirst]
    refine ⟨⟨p, List.mem_cons_self, rfl⟩, ?_⟩
    intro a ha
    rcases List.mem_cons.1 ha with rfl | ha
    · exact UInt32.le_refl _
    · exact UInt32.le_iff_toNat_le.2 (List.rel_of_pairwise_cons h.ordered ha)

/-- A store has only one list of live packets. -/
theorem liveExactly_iff (h : Represents N o s ps) (packets : List Element) :
    LiveExactly s packets ↔ packets = ps := by
  constructor
  · intro hlive
    have hslots := hlive.slots.symm.trans h.liveSlots_eq
    exact List.map_injective_iff.2 (Option.some_injective _) hslots
  · rintro rfl
    exact h.liveExactly

/-- The count that a partial delete takes is the number of packets up to the time exactly when the
last of them lies before the wrap. -/
theorem deleteCount_eq_iff (h : Represents N o s ps) {count : ℕ}
    (hpos : 0 < count) (hle : count ≤ ps.length) :
    getNumberOfElementsBetweenTwoPosition s.handler s.handler.oldestTmPosition
        ((slots N).addr (o + (count - 1))) = count ↔ o + (count - 1) < N := by
  have hbound := h.bounded
  have holdest := h.oldest_lt
  have hstart : s.handler.oldestTmPosition =
      s.handler.oldestTmPosition + ((0 : ℕ) : ℤ) * sizeofElement := by
    rw [Nat.cast_zero, zero_mul, add_zero]
  rw [hstart]
  rcases Nat.lt_or_ge (o + (count - 1)) N with hflat | hwrapped
  · rw [h.count_of_lt (Nat.zero_le _) hflat]
    exact iff_of_true (by omega) hflat
  · rw [h.count_of_wrapped (by omega) (by omega) hwrapped]
    exact iff_of_false (by omega) (by omega)

/-- A delete that drops the first `stop` packets is exact when these are the packets up to the
time. -/
theorem deletesExactly_dropped_iff (h : Represents N o s ps) {time : UInt32}
    (hsome : ∃ p ∈ ps, p.coarseTime ≤ time) {stop k : ℕ} (hstop : stop ≤ ps.length)
    (hcode : (deleteUpToTime (s.begin allGranted) time).1 = 0)
    (hnext : Represents N k (deleteUpToTime (s.begin allGranted) time).2.toStore (ps.drop stop)) :
    DeletesExactly s time ↔ stop = upToCount Element.time time.toNat ps := by
  have hle : upToCount Element.time time.toNat ps ≤ ps.length := upToCount_le_length
  rw [DeletesExactly, h.packetsAfter_eq, h.livePackets_eq]
  constructor
  · -- the number of packets left is that of the later ones
    intro hexact
    have hdrop := (hnext.liveExactly_iff _).1 (hexact.1 hsome).2
    have hlength := congrArg List.length hdrop
    rw [List.length_drop, List.length_drop] at hlength
    omega
  · rintro rfl
    refine ⟨fun _ => ⟨hcode, hnext.liveExactly⟩, fun hno => ?_⟩
    obtain ⟨p, hp, htime⟩ := hsome
    exact absurd (hno p hp) (UInt32.not_lt.2 htime)

/-- In a store with packets, a delete is exact if and only if it ends before the wrap. -/
theorem deletesExactly_iff (h : Represents N o s ps) (hne : ps ≠ [])
    (time : UInt32) : DeletesExactly s time ↔ DeleteEndsBeforeWrap s time := by
  have hcount : 0 < upToCount Element.time time.toNat ps ↔ ∃ p ∈ ps, p.coarseTime ≤ time := by
    simp only [upToCount_pos_iff, UInt32.le_iff_toNat_le, Element.time]
  have hle : upToCount Element.time time.toNat ps ≤ ps.length := upToCount_le_length
  have hfile : (allGranted 0 && s.disk.packetFile.isSome) = true := h.fileExists hne
  rcases h.deleteUpToTime_cases allGranted time with
    ⟨hall, -, hcall⟩ | ⟨hpart, -, -, hsome, stop, hstop, hlt, hcall⟩ |
      ⟨hnone, code, n, hcode, hcall⟩
  · -- everything is erased
    have hall' := h.upToCount_eq_length hall
    have hsome := hcount.1 (hall' ▸ List.length_pos_of_ne_nil hne)
    have hempty := h.cleared (d := (deleteUpToTime (s.begin allGranted) time).2.disk) (by
      rw [hcall, finish_disk, List.foldl_append]
      rfl)
    refine iff_of_true ?_ (Or.inl hall)
    refine (h.deletesExactly_dropped_iff (k := 0) hsome le_rfl (congrArg Prod.fst hcall) ?_).2
      hall'.symm
    rw [List.drop_length]
    rw [hcall] at hempty ⊢
    exact hempty
  · -- the counted packets are erased
    have hpos := hcount.2 hsome
    have hnext : Represents N ((o + stop) % N)
        (deleteUpToTime (s.begin allGranted) time).2.toStore (ps.drop stop) := by
      rw [hcall, finish_toStore, List.foldl_append]
      exact h.trimmed hlt
    rw [h.deletesExactly_dropped_iff hsome hlt.le (congrArg Prod.fst hcall) hnext,
      DeleteEndsBeforeWrap, or_iff_right (fun hno => UInt32.not_lt.2 hno hpart),
      h.upToBeforeWrap_iff hpos, ← h.deleteCount_eq_iff hpos hle, ← hstop]
  · -- no packet is old enough
    have hold : ¬ ∃ p ∈ ps, p.coarseTime ≤ time := fun hsome => hnone ⟨hfile, fun _ => ⟨rfl, hsome⟩⟩
    rw [DeletesExactly, h.livePackets_eq, hcall]
    refine iff_of_true ⟨fun hsome => absurd hsome hold, fun _ => ⟨hcode, rfl⟩⟩ (Or.inr ?_)
    intro i p hp htime
    rw [h.livePackets_eq] at hp
    exact absurd ⟨p, List.mem_of_getElem? hp, htime⟩ hold

end Represents

/-- In every reachable state with a live packet and for every time, a delete is exact if and only if
the time reaches the newest one or no live packet up to it lies at a position below
`oldest_tm_position`. -/
theorem delete_exact_iff (N : ℕ+) (hN : (N : ℕ) < 2 ^ 32) (d : Disk) (hd : d.infoFile = none)
    (ops : List Op) (time : UInt32) :
    let s := (system N).after (initialStore N d) ops
    livePackets s ≠ [] → (DeletesExactly s time ↔ DeleteEndsBeforeWrap s time) := by
  intro s hlive
  obtain ⟨o, -, ps, h, -⟩ := represents_after N hN hd ops
  rw [h.livePackets_eq] at hlive
  exact h.deletesExactly_iff hlive time

/-- Two of three packets without a wrap are deleted. -/
theorem delete_exact_iff_two_of_three :
    DeletesExactly
      ((system maxTmNumber).after (initialStore maxTmNumber ⟨none, none⟩)
        [storeAt 1, storeAt 2, storeAt 3]) 2 := by
  refine (delete_exact_iff maxTmNumber (by decide) ⟨none, none⟩ rfl
    [storeAt 1, storeAt 2, storeAt 3] 2 (by decide +kernel)).2 (Or.inr fun i p hp _ => ?_)
  have hi : i < 3 := (List.getElem?_eq_some_iff.1 hp).1
  have hflat : ∀ j, j < 3 → ((system maxTmNumber).after (initialStore maxTmNumber ⟨none, none⟩)
      [storeAt 1, storeAt 2, storeAt 3]).handler.oldestTmPosition ≤
        ((system maxTmNumber).after (initialStore maxTmNumber ⟨none, none⟩)
          [storeAt 1, storeAt 2, storeAt 3]).handler.position j := by
    decide +kernel
  exact hflat i hi

/-- Packets of times 4 to 7 with 6 and 7 past the wrap: a delete up to 6 leaves the packet of time 6
live. -/
theorem delete_leaves_packet :
    let s := (system maxTmNumber).after (initialStore maxTmNumber ⟨none, none⟩)
      [storeAt 1, storeAt 2, storeAt 3, storeAt 4, .deleteUpToTime 3, storeAt 5, storeAt 6,
        storeAt 7]
    livePackets s ≠ [] ∧ ¬ DeletesExactly s 6 := by
  intro s
  refine ⟨by decide +kernel, fun hexact => ?_⟩
  obtain ⟨-, hlive⟩ := hexact.1 (by decide +kernel)
  exact absurd hlive.tmNumber (by decide +kernel)

end CComplete.PacketStoreSdcard
