import CComplete.PacketStoreSdcard.RangeRead

/-!
# Reads of ranges without packets

The start search goes forward and the end search backward, so in a range that no packet is in they
may cross: the end position is before the start position. The source takes any end position before
the start position for a wrap, and the count is then the number of slots the other way round the
ring, or, with the end past the wrap, the quotient of a negative difference as an `unsigned long`.
The read delivers that many elements if the buffer has room for them (`empty_answer_iff`).
-/

set_option autoImplicit false

namespace CComplete.PacketStoreSdcard

open CComplete.Library

/-- The range read returns another code than 0, or sets `*read_number` to 0. -/
def DeliversNothing (s : Store) (elements : ℕ → Element) (maxElementToRead readNumber : ℕ)
    (startTime endTime : UInt32) : Prop :=
  let reply := (readElementsBetweenTwoDates (s.begin allGranted) elements maxElementToRead
    readNumber startTime endTime).1
  reply.code ≠ 0 ∨ reply.readNumber = 0

/-- Number of steps from the last packet up to `endTime` on to the first one from `startTime` on:
one more than there are live packets strictly between the two times. -/
def crossedSteps (s : Store) (startTime endTime : UInt32) : ℕ :=
  ((livePackets s).filter fun p =>
    decide (endTime < p.coarseTime) && decide (p.coarseTime < startTime)).length + 1

/-- One of the searches finds nothing, or the buffer has no room for the elements that are counted
the other way round the ring: `N - crossedSteps` of them, or, with the last packet up to `endTime`
past the wrap, that many less than the greatest quotient of an `unsigned long` by the element size,
as an `unsigned int`. -/
def AnsweredEmpty (N : ℕ) (s : Store) (maxElementToRead : ℕ) (startTime endTime : UInt32) : Prop :=
  startTime ≤ s.handler.oldestTime ∨ s.handler.newestTime < startTime ∨
    endTime < s.handler.oldestTime ∨
      ((UpToBeforeWrap s endTime → maxElementToRead < N - crossedSteps s startTime endTime) ∧
        (¬ UpToBeforeWrap s endTime →
          (2 ^ 64 / elementCodec.size - crossedSteps s startTime endTime) % 2 ^ 32 = 0 ∨
            maxElementToRead <
              (2 ^ 64 / elementCodec.size - crossedSteps s startTime endTime) % 2 ^ 32))

/-! ## Searches that find nothing -/

section NotFound

variable {w w' w'' : World} {startTime : UInt32} {startPos code : ℤ}
variable (elements : ℕ → Element) (maxElementToRead readNumber : ℕ) (endTime : UInt32)

theorem readElements_endNotFound (hstart : startTime ≤ w.handler.oldestTime)
    (hend : ¬ endTime ≥ w.handler.newestTime)
    (hsearch : searchForEndTimePositionInFile w endTime = (.error code, w')) :
    (readElementsBetweenTwoDates w elements maxElementToRead readNumber startTime
      endTime).1.code = 2 := by
  simp only [readElementsBetweenTwoDates, if_pos hstart, if_neg hend, hsearch]

theorem readElements_startNotFound (hstart : ¬ startTime ≤ w.handler.oldestTime)
    (hsearch : searchForStartTimePositionInFile w startTime = (.error code, w')) :
    (readElementsBetweenTwoDates w elements maxElementToRead readNumber startTime
      endTime).1.code = 2 := by
  simp only [readElementsBetweenTwoDates, if_neg hstart, hsearch]

theorem readElements_endNotFound_between (hstart : ¬ startTime ≤ w.handler.oldestTime)
    (hend : ¬ endTime ≥ w.handler.newestTime)
    (hsearch : searchForStartTimePositionInFile w startTime = (.ok startPos, w'))
    (hsearch' : searchForEndTimePositionInFile w' endTime = (.error code, w'')) :
    (readElementsBetweenTwoDates w elements maxElementToRead readNumber startTime
      endTime).1.code = 2 := by
  simp only [readElementsBetweenTwoDates, if_neg hstart, if_neg hend, hsearch, hsearch']

end NotFound

namespace Represents

variable {N : ℕ+} {o : ℕ} {s : Store} {ps : List Element}

/-! ## Crossed positions -/

/-- An end before the start on one side of the wrap: the count goes the other way round. -/
theorem count_of_crossed (h : Represents N o s ps) {a b : ℕ} (hba : b < a) (ha : a < N)
    (hob : o + b < N) :
    getNumberOfElementsBetweenTwoPosition s.handler
        (s.handler.oldestTmPosition + (a : ℤ) * sizeofElement) ((slots N).addr (o + b)) =
      N - (a - b) := by
  have hcapacity := h.capacity
  obtain ⟨-, haddr⟩ | ⟨hge, -⟩ := h.addr_cases (show b < N by omega)
  · have hdiff : (s.handler.tail - (s.handler.oldestTmPosition + (a : ℤ) * sizeofElement)) +
        ((slots N).addr (o + b) - s.handler.head) =
          sizeofElement * ((N - 1 - (a - b) : ℕ) : ℤ) := by
      have hsteps : ((N - 1 - (a - b) : ℕ) : ℤ) = ((N : ℕ) : ℤ) - 1 - (a - b) := by omega
      rw [haddr, h.oldestTmPosition, h.tail_eq, h.head, hsteps]
      ring
    rw [getNumberOfElementsBetweenTwoPosition, if_neg, hdiff]
    · rw [elementCount_eq (by omega)]
      omega
    · rw [haddr, h.oldestTmPosition, sizeofElement]
      omega
  · omega

/-- An end before the start and past the wrap: the difference is negative. -/
theorem count_of_crossed_wrapped (h : Represents N o s ps) {a b : ℕ} (hba : b < a) (ha : a < N)
    (hob : (N : ℕ) ≤ o + b) :
    getNumberOfElementsBetweenTwoPosition s.handler
        (s.handler.oldestTmPosition + (a : ℤ) * sizeofElement) ((slots N).addr (o + b)) =
      (2 ^ 64 / elementCodec.size - (a - b)) % 2 ^ 32 := by
  have hcapacity := h.capacity
  obtain ⟨hlt, hdiff⟩ := h.wrapped_differences a (show b < N by omega) hob
  have hlong : toUnsignedLong (sizeofElement * ((b : ℤ) - a - 1)) = 2 ^ 64 - 18 * (a - b + 1) := by
    rw [sizeofElement, toUnsignedLong_of_neg (by omega) (by omega)]
    omega
  have hsize : toUnsignedLong sizeofElement = 18 := by decide
  have hsize' : elementCodec.size = 18 := rfl
  rw [getNumberOfElementsBetweenTwoPosition, if_neg hlt, hdiff, hlong, hsize, hsize',
    toUnsignedInt]
  omega

/-! ## The searches -/

theorem belowCount_lt_length_iff (h : Represents N o s ps) (hne : ps ≠ []) (startTime : UInt32) :
    belowCount Element.time startTime.toNat ps < ps.length ↔ startTime ≤ s.handler.newestTime := by
  have hle : belowCount Element.time startTime.toNat ps ≤ ps.length := belowCount_le_length
  have hlen : 0 < ps.length := List.length_pos_of_ne_nil hne
  have hlast : ps.length - 1 < ps.length := by omega
  have hnewest : s.handler.newestTime = ps[ps.length - 1].coarseTime := by
    rw [h.newestTime, List.getLast?_eq_some_getLast hne, List.getLast_eq_getElem]
    rfl
  have hbelow := h.ordered.lt_belowCount_iff (s := startTime.toNat) hlast
  rw [hnewest, UInt32.le_iff_toNat_le, ← not_lt]
  rw [← not_iff_not, not_lt, not_not]
  exact Iff.trans (by omega) hbelow

theorem upToCount_pos_iff_oldest (h : Represents N o s ps) (hne : ps ≠ []) (endTime : UInt32) :
    0 < upToCount Element.time endTime.toNat ps ↔ s.handler.oldestTime ≤ endTime := by
  have hlen : 0 < ps.length := List.length_pos_of_ne_nil hne
  rw [h.ordered.lt_upToCount_iff hlen, h.oldestTime, List.head?_eq_getElem?,
    List.getElem?_eq_getElem hlen, UInt32.le_iff_toNat_le]
  rfl

/-- Searches that crossed are `crossedSteps` apart. -/
theorem crossedSteps_eq (h : Represents N o s ps) {startTime endTime : UInt32}
    (hcrossed : upToCount Element.time endTime.toNat ps ≤
      belowCount Element.time startTime.toNat ps)
    (hpos : 0 < upToCount Element.time endTime.toNat ps) :
    crossedSteps s startTime endTime =
      belowCount Element.time startTime.toNat ps -
        (upToCount Element.time endTime.toNat ps - 1) := by
  have hbetween : ((livePackets s).filter fun p =>
      decide (endTime < p.coarseTime) && decide (p.coarseTime < startTime)).length =
        belowCount Element.time startTime.toNat ps - upToCount Element.time endTime.toNat ps := by
    rw [h.livePackets_eq]
    apply h.ordered.length_filter_between
    intro p
    rw [Bool.and_eq_true, decide_eq_true_eq, decide_eq_true_eq, UInt32.lt_iff_toNat_lt,
      UInt32.lt_iff_toNat_lt]
    rfl
  rw [crossedSteps, hbetween]
  omega

/-! ## The read -/

/-- A copy of `n` elements delivers nothing if the buffer has no room for them, or `n` is 0. -/
theorem copyRange_deliversNothing_iff (h : Represents N o s ps) (hne : ps ≠ [])
    (elements : ℕ → Element) (maxElementToRead n : ℕ) (startPos : ℤ) :
    let reply := (copyRange ((s.begin allGranted).finish s.handler 2 []) elements maxElementToRead n
      startPos).1
    (reply.code ≠ 0 ∨ reply.readNumber = 0) ↔ n = 0 ∨ maxElementToRead < n := by
  intro reply
  have hopen : ((s.begin allGranted).finish s.handler 2 []).fopenPacketFile.1 = true :=
    h.fileExists hne
  have hnumber : reply.readNumber = n := copyRange_readNumber _ _ _ _ _
  rw [hnumber]
  by_cases hmax : n > maxElementToRead
  · have hcode : reply.code = -1 := by
      simp only [reply, copyRange, if_pos hmax]
    rw [hcode]
    exact iff_of_true (Or.inl (by decide)) (Or.inr hmax)
  · have hcode : reply.code = 0 := by
      simp only [reply, copyRange, if_neg hmax, if_pos hopen]
    rw [hcode]
    exact ⟨fun hno => Or.inl (hno.resolve_left fun hne => hne rfl),
      fun hno => Or.inr (hno.resolve_right hmax)⟩

/-- Without a packet in the range and with a start up to the oldest time, nothing is delivered. -/
theorem deliversNothing_of_le_oldest (h : Represents N o s ps) (elements : ℕ → Element)
    (maxElementToRead readNumber : ℕ) {startTime endTime : UInt32}
    (hstart : startTime ≤ s.handler.oldestTime)
    (hcrossed : upToCount Element.time endTime.toNat ps ≤
      belowCount Element.time startTime.toNat ps) :
    DeliversNothing s elements maxElementToRead readNumber startTime endTime := by
  by_cases hne : ps = []
  · -- the dump of an empty store
    subst hne
    have hzero : s.handler.tmNumber = 0 := h.tmNumber
    have hend : endTime ≥ s.handler.newestTime := by
      rw [h.newestTime]
      exact UInt32.zero_le
    have hread := readElements_dump (w := s.begin allGranted) elements maxElementToRead readNumber
      hstart hend (show s.handler.tmNumber ≤ maxElementToRead by rw [hzero]; exact Nat.zero_le _)
    rw [DeliversNothing, hread]
    split
    · exact Or.inr hzero
    · exact Or.inl Int.one_ne_zero
  · -- no packet is up to the end time
    have hnone : ¬ 0 < upToCount Element.time endTime.toNat ps := by
      rw [h.belowCount_eq_zero hstart hne] at hcrossed
      omega
    have hend : ¬ endTime ≥ s.handler.newestTime := by
      intro hend
      rw [h.upToCount_eq_length hend] at hnone
      exact hnone (List.length_pos_of_ne_nil hne)
    have hsearch := h.searchForEndTime_eq (w := s.begin allGranted) (h.fileExists hne) endTime
    rw [if_neg hnone] at hsearch
    have hcode := readElements_endNotFound elements maxElementToRead readNumber endTime hstart
      hend hsearch
    exact Or.inl (by rw [hcode]; decide)

/-- A start that the search does not find: nothing is delivered. -/
theorem deliversNothing_of_newest_lt (h : Represents N o s ps) (elements : ℕ → Element)
    (maxElementToRead readNumber : ℕ) {startTime : UInt32} (endTime : UInt32)
    (hstart : ¬ startTime ≤ s.handler.oldestTime)
    (hnone : ¬ belowCount Element.time startTime.toNat ps < ps.length) :
    DeliversNothing s elements maxElementToRead readNumber startTime endTime := by
  have hsearch : ∃ code, searchForStartTimePositionInFile (s.begin allGranted) startTime =
      (.error code, (s.begin allGranted).finish s.handler 1 []) := by
    cases hopen : (allGranted 0 && s.disk.packetFile.isSome) with
    | true =>
      have hopened := h.searchForStartTime_eq (w := s.begin allGranted) hopen startTime
      rw [if_neg hnone] at hopened
      exact ⟨1, hopened⟩
    | false => exact ⟨-1, searchForStartTime_closed (s.begin allGranted) startTime hopen⟩
  obtain ⟨code, hsearch⟩ := hsearch
  have hcode : _ = (2 : ℤ) := readElements_startNotFound elements maxElementToRead readNumber
    endTime hstart hsearch
  exact Or.inl (by rw [hcode]; decide)

/-- With both searches inside the stored times, the read copies what the crossed positions count. -/
theorem deliversNothing_crossed_iff (h : Represents N o s ps) (elements : ℕ → Element)
    (maxElementToRead readNumber : ℕ) {startTime endTime : UInt32}
    (hstart : ¬ startTime ≤ s.handler.oldestTime)
    (hcrossed : upToCount Element.time endTime.toNat ps ≤
      belowCount Element.time startTime.toNat ps)
    (hfound : belowCount Element.time startTime.toNat ps < ps.length)
    (hpos : 0 < upToCount Element.time endTime.toNat ps) :
    DeliversNothing s elements maxElementToRead readNumber startTime endTime ↔
      (UpToBeforeWrap s endTime → maxElementToRead < N - crossedSteps s startTime endTime) ∧
        (¬ UpToBeforeWrap s endTime →
          (2 ^ 64 / elementCodec.size - crossedSteps s startTime endTime) % 2 ^ 32 = 0 ∨
            maxElementToRead <
              (2 ^ 64 / elementCodec.size - crossedSteps s startTime endTime) % 2 ^ 32) := by
  have hne : ps ≠ [] := List.ne_nil_of_length_pos (by omega)
  have hbound := h.bounded
  have hend : ¬ endTime ≥ s.handler.newestTime := by
    intro hend
    rw [h.upToCount_eq_length hend] at hcrossed
    omega
  have hstartSearch := h.searchForStartTime_eq (w := s.begin allGranted) (h.fileExists hne)
    startTime
  have hendSearch := h.searchForEndTime_eq (w := (s.begin allGranted).finish s.handler 1 [])
    (h.fileExists hne) endTime
  rw [if_pos hfound] at hstartSearch
  rw [if_pos hpos] at hendSearch
  have hread := readElements_between elements maxElementToRead readNumber hstart hend hstartSearch
    hendSearch
  rw [DeliversNothing, hread, finish_finish, h.upToBeforeWrap_iff hpos,
    h.crossedSteps_eq hcrossed hpos]
  refine (h.copyRange_deliversNothing_iff hne _ _ _ _).trans ?_
  generalize hb : upToCount Element.time endTime.toNat ps - 1 = b at *
  generalize belowCount Element.time startTime.toNat ps = a at *
  have hba : b < a := by omega
  have haN : a < (N : ℕ) := by omega
  rcases Nat.lt_or_ge (o + b) N with hflat | hwrapped
  · -- at least one slot lies on the other way round
    have hcount := h.count_of_crossed hba haN hflat
    refine Iff.trans ?_ ((and_iff_left fun hno => absurd hflat hno).trans
      (forall_prop_of_true hflat)).symm
    refine Iff.trans (Eq.to_iff (congrArg (fun n => n = 0 ∨ maxElementToRead < n) hcount)) ?_
    omega
  · have hcount := h.count_of_crossed_wrapped hba haN hwrapped
    have hnot : ¬ o + b < N := not_lt.2 hwrapped
    refine Iff.trans ?_ ((and_iff_right fun hno => absurd hno hnot).trans
      (forall_prop_of_true hnot)).symm
    exact Eq.to_iff (congrArg (fun n => n = 0 ∨ maxElementToRead < n) hcount)

/-- Without a packet in the range, the read delivers nothing exactly when `AnsweredEmpty` says. -/
theorem deliversNothing_iff (h : Represents N o s ps) (elements : ℕ → Element)
    (maxElementToRead readNumber : ℕ) {startTime endTime : UInt32}
    (hnone : packetsBetween s startTime endTime = []) :
    DeliversNothing s elements maxElementToRead readNumber startTime endTime ↔
      AnsweredEmpty N s maxElementToRead startTime endTime := by
  have hcrossed : upToCount Element.time endTime.toNat ps ≤
      belowCount Element.time startTime.toNat ps := by
    rw [← not_lt, ← h.packetsBetween_ne_nil_iff startTime endTime, not_not]
    exact hnone
  by_cases hstart : startTime ≤ s.handler.oldestTime
  · exact iff_of_true
      (h.deliversNothing_of_le_oldest elements maxElementToRead readNumber hstart hcrossed)
      (Or.inl hstart)
  · by_cases hfound : belowCount Element.time startTime.toNat ps < ps.length
    · have hne : ps ≠ [] := List.ne_nil_of_length_pos (by omega)
      have hnewest := (h.belowCount_lt_length_iff hne startTime).1 hfound
      by_cases hpos : 0 < upToCount Element.time endTime.toNat ps
      · have holdest := (h.upToCount_pos_iff_oldest hne endTime).1 hpos
        rw [h.deliversNothing_crossed_iff elements maxElementToRead readNumber hstart hcrossed
          hfound hpos, AnsweredEmpty, or_iff_right hstart,
          or_iff_right (UInt32.not_lt.2 hnewest), or_iff_right (UInt32.not_lt.2 holdest)]
      · -- the end search finds nothing
        have hbefore : endTime < s.handler.oldestTime := by
          rw [← UInt32.not_le, ← h.upToCount_pos_iff_oldest hne]
          exact hpos
        have hend : ¬ endTime ≥ s.handler.newestTime := by
          intro hend
          rw [h.upToCount_eq_length hend] at hpos
          exact hpos (List.length_pos_of_ne_nil hne)
        have hstartSearch := h.searchForStartTime_eq (w := s.begin allGranted) (h.fileExists hne)
          startTime
        have hendSearch := h.searchForEndTime_eq (w := (s.begin allGranted).finish s.handler 1 [])
          (h.fileExists hne) endTime
        rw [if_pos hfound] at hstartSearch
        rw [if_neg hpos] at hendSearch
        have hcode := readElements_endNotFound_between elements maxElementToRead readNumber endTime
          hstart hend hstartSearch hendSearch
        exact iff_of_true (Or.inl (by rw [hcode]; decide)) (Or.inr (Or.inr (Or.inl hbefore)))
    · refine iff_of_true
        (h.deliversNothing_of_newest_lt elements maxElementToRead readNumber endTime hstart hfound)
        (Or.inr (Or.inl ?_))
      by_cases hne : ps = []
      · subst hne
        rw [h.newestTime]
        rw [h.oldestTime] at hstart
        exact UInt32.not_le.1 hstart
      · rw [h.belowCount_lt_length_iff hne] at hfound
        exact UInt32.not_le.1 hfound

end Represents

/-- In every reachable state and for every range that no live packet is in: the read delivers no
packet if and only if one of the searches finds nothing, or the buffer has no room for the elements
that are counted the other way round the ring. -/
theorem empty_answer_iff (N : ℕ+) (hN : (N : ℕ) < 2 ^ 32) (d : Disk) (hd : d.infoFile = none)
    (ops : List Op) (elements : ℕ → Element) (maxElementToRead readNumber : ℕ)
    (startTime endTime : UInt32) :
    let s := (system N).after (initialStore N d) ops
    packetsBetween s startTime endTime = [] →
      (DeliversNothing s elements maxElementToRead readNumber startTime endTime ↔
        AnsweredEmpty N s maxElementToRead startTime endTime) := by
  intro s hnone
  obtain ⟨o, -, ps, h, -⟩ := represents_after N hN hd ops
  exact h.deliversNothing_iff elements maxElementToRead readNumber hnone

/-- A range after all stored times. -/
theorem empty_answer_iff_after :
    DeliversNothing
      ((system maxTmNumber).after (initialStore maxTmNumber ⟨none, none⟩)
        [storeAt 1, storeAt 2, storeAt 5])
      (fun _ => nullElement) 5 0 6 9 :=
  (empty_answer_iff maxTmNumber (by decide) ⟨none, none⟩ rfl [storeAt 1, storeAt 2, storeAt 5]
    (fun _ => nullElement) 5 0 6 9 (by decide +kernel)).2 (Or.inr (Or.inl (by decide +kernel)))

/-- A range in the gap between the times 2 and 5: the read delivers four elements. -/
theorem gap_delivers_packets :
    let s := (system maxTmNumber).after (initialStore maxTmNumber ⟨none, none⟩)
      [storeAt 1, storeAt 2, storeAt 5, storeAt 6]
    packetsBetween s 3 4 = [] ∧ ¬ DeliversNothing s (fun _ => nullElement) 5 0 3 4 := by
  intro s
  refine ⟨by decide +kernel, ?_⟩
  rintro (hcode | hnumber)
  · exact absurd (show _ = (0 : ℤ) from by decide +kernel) hcode
  · exact absurd hnumber (by decide +kernel)

end CComplete.PacketStoreSdcard
