import CComplete.PacketStoreSdcard.Invariant

/-!
# The range read and the wrap

A range read other than the whole dump copies as many packets as the position difference between
the two searched ends counts. When the last packet in the range lies past the wrap, the count is
one short, or the start position lies beyond the ring. So the read delivers the packets in the
range exactly when it is the whole dump or no packet up to the end time lies at a position below
`oldest_tm_position` (`range_read_exact_iff`).
-/

set_option autoImplicit false

namespace CComplete.PacketStoreSdcard

open CComplete.Library

/-- The live packets with a time from `startTime` to `endTime`. -/
def packetsBetween (s : Store) (startTime endTime : UInt32) : List Element :=
  (livePackets s).filter fun p =>
    decide (startTime ≤ p.coarseTime) && decide (p.coarseTime ≤ endTime)

/-- The range read returns 0 and delivers exactly the packets in the range, in order. -/
def ReadsExactly (s : Store) (elements : ℕ → Element) (maxElementToRead readNumber : ℕ)
    (startTime endTime : UInt32) : Prop :=
  let window := packetsBetween s startTime endTime
  (readElementsBetweenTwoDates (s.begin allGranted) elements maxElementToRead readNumber startTime
    endTime).1 = ⟨0, window.length, copied elements 0 window⟩

/-- The range covers all times in the store, or no live packet with a time up to `endTime` lies at
a position below the oldest one. -/
def EndsBeforeWrap (s : Store) (startTime endTime : UInt32) : Prop :=
  (startTime ≤ s.handler.oldestTime ∧ s.handler.newestTime ≤ endTime) ∨
    ∀ i p, (livePackets s)[i]? = some p → p.coarseTime ≤ endTime →
      s.handler.oldestTmPosition ≤ s.handler.position i

/-- No live packet with a time up to `endTime` lies at a position below the oldest one. -/
def UpToBeforeWrap (s : Store) (endTime : UInt32) : Prop :=
  ∀ i p, (livePackets s)[i]? = some p → p.coarseTime ≤ endTime →
    s.handler.oldestTmPosition ≤ s.handler.position i

theorem mem_range_iff (startTime endTime : UInt32) (p : Element) :
    (decide (startTime ≤ p.coarseTime) && decide (p.coarseTime ≤ endTime)) = true ↔
      startTime.toNat ≤ p.time ∧ p.time ≤ endTime.toNat := by
  rw [Bool.and_eq_true, decide_eq_true_eq, decide_eq_true_eq, UInt32.le_iff_toNat_le,
    UInt32.le_iff_toNat_le]
  rfl

namespace Represents

variable {N : ℕ+} {o : ℕ} {s : Store} {ps : List Element}
variable (h : Represents N o s ps)
include h

/-! ## The window -/

theorem packetsBetween_eq (startTime endTime : UInt32) :
    packetsBetween s startTime endTime =
      (ps.drop (belowCount Element.time startTime.toNat ps)).take
        (upToCount Element.time endTime.toNat ps - belowCount Element.time startTime.toNat ps) := by
  rw [packetsBetween, h.livePackets_eq]
  exact h.ordered.filter_window (mem_range_iff startTime endTime)

theorem packetsBetween_ne_nil_iff (startTime endTime : UInt32) :
    packetsBetween s startTime endTime ≠ [] ↔
      belowCount Element.time startTime.toNat ps < upToCount Element.time endTime.toNat ps := by
  rw [packetsBetween, h.livePackets_eq]
  exact h.ordered.filter_window_ne_nil_iff (mem_range_iff startTime endTime)

/-- A range that starts at the oldest time or before it has nothing below it. -/
theorem belowCount_eq_zero {startTime : UInt32} (hstart : startTime ≤ s.handler.oldestTime)
    (hne : ps ≠ []) : belowCount Element.time startTime.toNat ps = 0 := by
  have hlen : 0 < ps.length := List.length_pos_of_ne_nil hne
  have hnot : ¬ 0 < belowCount Element.time startTime.toNat ps := by
    rw [h.ordered.lt_belowCount_iff hlen, not_lt]
    rw [h.oldestTime, List.head?_eq_getElem?, List.getElem?_eq_getElem hlen] at hstart
    exact UInt32.le_iff_toNat_le.1 hstart
  omega

/-- A range that ends at the newest time or after it has nothing above it. -/
theorem upToCount_eq_length {endTime : UInt32} (hend : s.handler.newestTime ≤ endTime) :
    upToCount Element.time endTime.toNat ps = ps.length := by
  rw [upToCount, List.countP_eq_length]
  intro a ha
  rw [decide_eq_true_eq]
  exact (h.time_le_newestTime ha).trans (UInt32.le_iff_toNat_le.1 hend)

/-- The packets up to the end time end before the wrap if the last of them does. -/
theorem upToBeforeWrap_iff {endTime : UInt32}
    (hlt : 0 < upToCount Element.time endTime.toNat ps) :
    UpToBeforeWrap s endTime ↔ o + (upToCount Element.time endTime.toNat ps - 1) < N := by
  have hle : upToCount Element.time endTime.toNat ps ≤ ps.length := upToCount_le_length
  rw [UpToBeforeWrap, h.livePackets_eq]
  constructor
  · intro hall
    have hi : upToCount Element.time endTime.toNat ps - 1 < ps.length := by omega
    have htime := (h.ordered.lt_upToCount_iff (e := endTime.toNat) hi).1 (by omega)
    exact (h.oldest_le_position_iff hi).1
      (hall _ _ (List.getElem?_eq_getElem hi) (UInt32.le_iff_toNat_le.2 htime))
  · intro hlast i p hp htime
    -- the packets up to the end time are the first ones
    obtain ⟨hi, rfl⟩ := List.getElem?_eq_some_iff.1 hp
    have hcount := (h.ordered.lt_upToCount_iff (e := endTime.toNat) hi).2
      (UInt32.le_iff_toNat_le.1 htime)
    exact (h.oldest_le_position_iff hi).2 (by omega)

/-- The whole-store case apart, the read ends before the wrap if its last packet does. -/
theorem endsBeforeWrap_iff {startTime endTime : UInt32}
    (hlt : 0 < upToCount Element.time endTime.toNat ps) :
    EndsBeforeWrap s startTime endTime ↔
      (startTime ≤ s.handler.oldestTime ∧ s.handler.newestTime ≤ endTime) ∨
        o + (upToCount Element.time endTime.toNat ps - 1) < N :=
  or_congr_right (h.upToBeforeWrap_iff hlt)

/-! ## The read -/

/-- With every file opened, a range read other than the whole dump copies a counted range from the
unwrapped start position on. -/
theorem read_eq_copyRange (elements : ℕ → Element) (maxElementToRead readNumber : ℕ)
    {startTime endTime : UInt32}
    (hwindow : belowCount Element.time startTime.toNat ps <
      upToCount Element.time endTime.toNat ps)
    (hpart : ¬ (startTime ≤ s.handler.oldestTime ∧ s.handler.newestTime ≤ endTime)) :
    let startPos := s.handler.oldestTmPosition +
      (belowCount Element.time startTime.toNat ps : ℤ) * sizeofElement
    let endPos := (slots N).addr (o + (upToCount Element.time endTime.toNat ps - 1))
    ∃ n, (readElementsBetweenTwoDates (s.begin allGranted) elements maxElementToRead readNumber
        startTime endTime).1 =
      (copyRange ((s.begin allGranted).finish s.handler n []) elements maxElementToRead
        (getNumberOfElementsBetweenTwoPosition s.handler startPos endPos) startPos).1 := by
  intro startPos endPos
  have hle : upToCount Element.time endTime.toNat ps ≤ ps.length := upToCount_le_length
  have hne : ps ≠ [] := List.ne_nil_of_length_pos (by omega)
  have hfile : (allGranted 0 && s.disk.packetFile.isSome) = true := h.fileExists hne
  have hstartSearch : searchForStartTimePositionInFile (s.begin allGranted) startTime =
      (.ok startPos, (s.begin allGranted).finish s.handler 1 []) := by
    have hsearch := h.searchForStartTime_eq (w := s.begin allGranted) hfile startTime
    rw [if_pos (by omega)] at hsearch
    exact hsearch
  have hendSearch : ∀ w : World, w.toStore = s → w.granted = allGranted →
      searchForEndTimePositionInFile w endTime = (.ok endPos, w.finish w.handler 1 []) := by
    rintro w rfl hgranted
    have hsearch := h.searchForEndTime_eq (w := w) (by rw [hgranted]; exact hfile) endTime
    rw [if_pos (by omega)] at hsearch
    exact hsearch
  -- the three branches that count positions
  by_cases hstart : startTime ≤ s.handler.oldestTime
  · have hend : ¬ endTime ≥ s.handler.newestTime := fun hend => hpart ⟨hstart, hend⟩
    have hzero : startPos = s.handler.oldestTmPosition := by
      simp [startPos, h.belowCount_eq_zero hstart hne]
    have hread := readElements_toEnd elements maxElementToRead readNumber
      (w := s.begin allGranted) hstart hend (hendSearch _ rfl rfl)
    refine ⟨1, ?_⟩
    rw [hread, hzero]
    rfl
  · by_cases hend : endTime ≥ s.handler.newestTime
    · have hread := readElements_fromStart elements maxElementToRead readNumber hstart hend
        hstartSearch
      -- the source takes the slot before `write_to` without a search
      have hlast : updateBrowserDescending s.handler s.handler.writeTo = endPos := by
        have hslot : o + ps.length = o + (ps.length - 1) + 1 := by omega
        rw [h.writeTo, hslot, h.descending]
        simp only [endPos, h.upToCount_eq_length hend]
      refine ⟨1, ?_⟩
      rw [hread, ← hlast]
      rfl
    · have hread := readElements_between elements maxElementToRead readNumber hstart hend
        hstartSearch (hendSearch _ rfl rfl)
      refine ⟨2, ?_⟩
      rw [hread, finish_finish]
      rfl

/-- A counted range that lies in the store before the wrap is copied. -/
theorem copyRange_eq (n : ℕ) (elements : ℕ → Element) {maxElementToRead a count : ℕ}
    (hlen : a + count ≤ ps.length) (hmax : count ≤ maxElementToRead) (hcount : 0 < count) :
    (copyRange ((s.begin allGranted).finish s.handler n []) elements maxElementToRead count
      ((slots N).addr (o + a))).1 = ⟨0, count, copied elements 0 ((ps.drop a).take count)⟩ := by
  have hne : ps ≠ [] := List.ne_nil_of_length_pos (by omega)
  have hopen : ((s.begin allGranted).finish s.handler n []).fopenPacketFile.1 = true :=
    h.fileExists hne
  rw [copyRange, if_neg (not_lt.2 hmax)]
  simp only [if_pos hopen]
  exact congrArg (ReadReply.mk 0 count) (h.copyLoop_eq h.packets count a 0 elements hlen)

/-- With some packet in the range and room for all, the read delivers the packets in the range
exactly when it is the whole dump or ends before the wrap. -/
theorem readsExactly_iff (elements : ℕ → Element) {maxElementToRead : ℕ} (readNumber : ℕ)
    (hmax : s.handler.tmNumber ≤ maxElementToRead) {startTime endTime : UInt32}
    (hsome : packetsBetween s startTime endTime ≠ []) :
    ReadsExactly s elements maxElementToRead readNumber startTime endTime ↔
      EndsBeforeWrap s startTime endTime := by
  have hwindow := (h.packetsBetween_ne_nil_iff startTime endTime).1 hsome
  have hle : upToCount Element.time endTime.toNat ps ≤ ps.length := upToCount_le_length
  have hne : ps ≠ [] := List.ne_nil_of_length_pos (by omega)
  have hbound := h.bounded
  rw [h.tmNumber] at hmax
  rw [ReadsExactly, h.packetsBetween_eq, h.endsBeforeWrap_iff (by omega)]
  by_cases hall : startTime ≤ s.handler.oldestTime ∧ s.handler.newestTime ≤ endTime
  · -- the whole dump counts packets, not positions
    rw [h.belowCount_eq_zero hall.1 hne, h.upToCount_eq_length hall.2, Nat.sub_zero,
      List.drop_zero, List.take_length]
    have hread := h.read_all (show (allGranted 0 && _) = true from h.fileExists hne) elements
      readNumber hall.1 hall.2 (h.tmNumber ▸ hmax)
    exact iff_of_true hread (Or.inl hall)
  · obtain ⟨n, hread⟩ := h.read_eq_copyRange elements maxElementToRead readNumber hwindow hall
    simp only [hread, hall, false_or]
    generalize hb : upToCount Element.time endTime.toNat ps - 1 = b at *
    generalize belowCount Element.time startTime.toNat ps = a at *
    have hcount : upToCount Element.time endTime.toNat ps - a = b - a + 1 := by omega
    rw [hcount]
    rcases Nat.lt_or_ge (o + b) N with hflat | hwrapped
    · -- count and start position are both right
      refine iff_of_true ?_ hflat
      have hstart : s.handler.oldestTmPosition + (a : ℤ) * sizeofElement =
          (slots N).addr (o + a) := by
        rw [← h.position_eq, h.unwrapped_eq_position_iff (by omega)]
        omega
      rw [h.count_of_lt (by omega) hflat, hstart,
        h.copyRange_eq n elements (by omega) (by omega) (by omega), List.length_take,
        List.length_drop, Nat.min_eq_left (by omega)]
    · -- `*read_number` alone is already wrong
      refine iff_of_false (fun heq => ?_) (by omega)
      have hnumber := (copyRange_readNumber _ _ _ _ _).symm.trans
        (congrArg ReadReply.readNumber heq)
      simp only [List.length_take, List.length_drop] at hnumber
      rcases Nat.lt_or_eq_of_le (show a ≤ b by omega) with hab | rfl
      · rw [h.count_of_wrapped hab (by omega) hwrapped] at hnumber
        omega
      · rw [h.count_of_wrapped_self (by omega) hwrapped] at hnumber
        omega

end Represents

/-- In every reachable state with some packet in the range, and a buffer for all live packets, the
range read delivers exactly the packets in the range if and only if it is the whole dump or no
packet up to the end time lies at a position below `oldest_tm_position`. -/
theorem range_read_exact_iff (N : ℕ+) (hN : (N : ℕ) < 2 ^ 32) (d : Disk) (hd : d.infoFile = none)
    (ops : List Op) (elements : ℕ → Element) (maxElementToRead readNumber : ℕ)
    (startTime endTime : UInt32) :
    let s := (system N).after (initialStore N d) ops
    s.handler.tmNumber ≤ maxElementToRead → packetsBetween s startTime endTime ≠ [] →
      (ReadsExactly s elements maxElementToRead readNumber startTime endTime ↔
        EndsBeforeWrap s startTime endTime) := by
  intro s hmax hsome
  obtain ⟨o, -, ps, h, -⟩ := represents_after N hN hd ops
  exact h.readsExactly_iff elements readNumber hmax hsome

/-- Four packets without a wrap: the range from 2 to 3 is delivered. -/
theorem range_read_exact_iff_flat :
    ReadsExactly
      ((system maxTmNumber).after (initialStore maxTmNumber ⟨none, none⟩)
        [storeAt 1, storeAt 2, storeAt 3, storeAt 4])
      (fun _ => nullElement) 5 0 2 3 := by
  refine (range_read_exact_iff maxTmNumber (by decide) ⟨none, none⟩ rfl
    [storeAt 1, storeAt 2, storeAt 3, storeAt 4] (fun _ => nullElement) 5 0 2 3
    (by decide +kernel) (by decide +kernel)).2 (Or.inr fun i p hp _ => ?_)
  have hi : i < 4 := (List.getElem?_eq_some_iff.1 hp).1
  have hflat : ∀ j, j < 4 → ((system maxTmNumber).after (initialStore maxTmNumber ⟨none, none⟩)
      [storeAt 1, storeAt 2, storeAt 3, storeAt 4]).handler.oldestTmPosition ≤
        ((system maxTmNumber).after (initialStore maxTmNumber ⟨none, none⟩)
          [storeAt 1, storeAt 2, storeAt 3, storeAt 4]).handler.position j := by
    decide +kernel
  exact hflat i hi

/-- Packets of times 4 to 7 with 6 and 7 past the wrap: the range from 0 to 6 has three packets,
the read delivers two. -/
theorem range_read_misses_packet :
    let s := (system maxTmNumber).after (initialStore maxTmNumber ⟨none, none⟩)
      [storeAt 1, storeAt 2, storeAt 3, storeAt 4, .deleteUpToTime 3, storeAt 5, storeAt 6,
        storeAt 7]
    s.handler.tmNumber ≤ 5 ∧ packetsBetween s 0 6 ≠ [] ∧
      ¬ ReadsExactly s (fun _ => nullElement) 5 0 0 6 := by
  intro s
  refine ⟨by decide +kernel, by decide +kernel, fun hread => ?_⟩
  have hnumber := congrArg ReadReply.readNumber hread
  exact absurd hnumber (by decide +kernel)

end CComplete.PacketStoreSdcard
