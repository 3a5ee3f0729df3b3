import CComplete.PacketStoreSdcard.Invariant

/-!
# The position that the start search reports

The loop of the start search moves a browser that wraps at the tail, but the position it reports is
computed from the number of packets passed and does not wrap. So it reports the position of the
oldest packet from a time on exactly when that packet lies before the wrap
(`start_search_reports_oldest_iff`); past the wrap the position is beyond the tail
(`start_search_tail_lt_iff`).
-/

set_option autoImplicit false

namespace CComplete.PacketStoreSdcard

open CComplete.Library

/-- The live packet number `i` is the oldest one with a time from `startTime` on. -/
structure IsOldestFrom (s : Store) (startTime : UInt32) (i : ℕ) : Prop where
  found : ∃ p, (livePackets s)[i]? = some p ∧ startTime ≤ p.coarseTime
  first : ∀ j p, j < i → (livePackets s)[j]? = some p → p.coarseTime < startTime

/-- The start search returns 0 exactly when some live packet has a time from `startTime` on, and
then reports a position from the head to the tail, that of the oldest such packet. -/
def ReportsOldestFrom (s : Store) (startTime : UInt32) : Prop :=
  let reply := (searchForStartTimePositionInFile (s.begin allGranted) startTime).1
  ((∃ position, reply = .ok position) ↔ ∃ p ∈ livePackets s, startTime ≤ p.coarseTime) ∧
    ∀ position, reply = .ok position →
      s.handler.head ≤ position ∧ position ≤ s.handler.tail ∧
        ∃ i, IsOldestFrom s startTime i ∧ position = s.handler.position i

/-- The oldest live packet with a time from `startTime` on, if there is one, does not lie below the
oldest one of all. -/
def FromBeforeWrap (s : Store) (startTime : UInt32) : Prop :=
  ∀ i, IsOldestFrom s startTime i → s.handler.oldestTmPosition ≤ s.handler.position i

namespace Represents

variable {N : ℕ+} {o : ℕ} {s : Store} {ps : List Element}

theorem isOldestFrom_iff (h : Represents N o s ps) {startTime : UInt32} {i : ℕ} :
    IsOldestFrom s startTime i ↔
      i < ps.length ∧ i = belowCount Element.time startTime.toNat ps := by
  constructor
  · rintro ⟨⟨p, hp, htime⟩, hfirst⟩
    rw [h.livePackets_eq] at hp hfirst
    obtain ⟨hi, rfl⟩ := List.getElem?_eq_some_iff.1 hp
    refine ⟨hi, le_antisymm ?_ ?_⟩
    · -- the packet number `belowCount` is not below the time, so it is not before the first one
      by_contra hlt
      have hb : belowCount Element.time startTime.toNat ps < ps.length := by omega
      have hbelow := hfirst _ _ (not_le.1 hlt) (List.getElem?_eq_getElem hb)
      have := (h.ordered.lt_belowCount_iff (s := startTime.toNat) hb).2
        (UInt32.lt_iff_toNat_lt.1 hbelow)
      omega
    · by_contra hlt
      have hbelow := (h.ordered.lt_belowCount_iff hi).1 (not_le.1 hlt)
      exact absurd (UInt32.le_iff_toNat_le.1 htime) (not_le.2 hbelow)
  · rintro ⟨hi, rfl⟩
    constructor
    · refine ⟨_, by rw [h.livePackets_eq, List.getElem?_eq_getElem hi], ?_⟩
      rw [UInt32.le_iff_toNat_le, ← not_lt]
      exact fun hbelow => absurd ((h.ordered.lt_belowCount_iff hi).2 hbelow) (lt_irrefl _)
    · intro j p hj hp
      rw [h.livePackets_eq] at hp
      obtain ⟨hlen, rfl⟩ := List.getElem?_eq_some_iff.1 hp
      exact UInt32.lt_iff_toNat_lt.2 ((h.ordered.lt_belowCount_iff hlen).1 hj)

/-- What the start search reports, the packet file open or not. -/
theorem searchForStartTime_ok_iff (h : Represents N o s ps) (startTime : UInt32) (position : ℤ) :
    (searchForStartTimePositionInFile (s.begin allGranted) startTime).1 = .ok position ↔
      belowCount Element.time startTime.toNat ps < ps.length ∧
        position = s.handler.oldestTmPosition +
          (belowCount Element.time startTime.toNat ps : ℤ) * sizeofElement := by
  cases hopen : (allGranted 0 && s.disk.packetFile.isSome) with
  | true =>
    rw [h.searchForStartTime_eq (w := s.begin allGranted) hopen startTime]
    by_cases hfound : belowCount Element.time startTime.toNat ps < ps.length
    · rw [if_pos hfound, and_iff_right hfound]
      exact ⟨fun heq => (Except.ok.inj heq).symm, fun heq => congrArg Except.ok heq.symm⟩
    · rw [if_neg hfound]
      exact iff_of_false (fun hno => nomatch hno) fun hno => hfound hno.1
  | false =>
    -- without a file no packet is stored
    obtain rfl := h.eq_nil_of_closed hopen
    rw [searchForStartTime_closed (s.begin allGranted) startTime hopen]
    exact iff_of_false (fun hno => nomatch hno) fun hno => Nat.not_lt_zero _ hno.1

/-- The oldest packet from the time on lies before the wrap if its slot does. -/
theorem fromBeforeWrap_iff (h : Represents N o s ps) {startTime : UInt32}
    (hlt : belowCount Element.time startTime.toNat ps < ps.length) :
    FromBeforeWrap s startTime ↔ o + belowCount Element.time startTime.toNat ps < N := by
  rw [← h.oldest_le_position_iff hlt]
  constructor
  · exact fun hflat => hflat _ (h.isOldestFrom_iff.2 ⟨hlt, rfl⟩)
  · intro hle i hi
    obtain ⟨-, rfl⟩ := h.isOldestFrom_iff.1 hi
    exact hle

/-- The start search reports the oldest packet exactly when this lies before the wrap. -/
theorem reportsOldestFrom_iff (h : Represents N o s ps) (startTime : UInt32) :
    ReportsOldestFrom s startTime ↔ FromBeforeWrap s startTime := by
  constructor
  · rintro ⟨-, hreport⟩ i hi
    obtain ⟨hlt, rfl⟩ := h.isOldestFrom_iff.1 hi
    -- the packet that the reported position belongs to is the oldest one, too
    obtain ⟨-, -, j, hj, heq⟩ :=
      hreport _ ((h.searchForStartTime_ok_iff startTime _).2 ⟨hlt, rfl⟩)
    obtain ⟨-, rfl⟩ := h.isOldestFrom_iff.1 hj
    exact (h.oldest_le_position_iff hlt).2 ((h.unwrapped_eq_position_iff hlt).1 heq)
  · intro hflat
    constructor
    · simp only [h.searchForStartTime_ok_iff, h.livePackets_eq, exists_and_left, exists_eq,
        and_true, belowCount_lt_length_iff_exists, UInt32.le_iff_toNat_le, Element.time]
    · intro position hreply
      obtain ⟨hlt, rfl⟩ := (h.searchForStartTime_ok_iff startTime position).1 hreply
      have heq := (h.unwrapped_eq_position_iff hlt).2 ((h.fromBeforeWrap_iff hlt).1 hflat)
      obtain ⟨-, hhead, htail⟩ := h.onSlot_addr
        (o + belowCount Element.time startTime.toNat ps)
      rw [← h.position_eq, ← heq] at hhead htail
      exact ⟨hhead, htail, _, h.isOldestFrom_iff.2 ⟨hlt, rfl⟩, heq⟩

/-- Past the wrap, the reported position is beyond the tail. -/
theorem tail_lt_reported_iff (h : Represents N o s ps) {startTime : UInt32} {position : ℤ}
    (hreply : (searchForStartTimePositionInFile (s.begin allGranted) startTime).1 = .ok position) :
    s.handler.tail < position ↔ ¬ FromBeforeWrap s startTime := by
  obtain ⟨hlt, rfl⟩ := (h.searchForStartTime_ok_iff startTime position).1 hreply
  have holdest : s.handler.oldestTmPosition = sizeofElement * (o : ℤ) := by
    rw [h.oldestTmPosition, (slots N).addr_of_lt h.oldest_lt]
    exact zero_add _
  rw [h.fromBeforeWrap_iff hlt, h.tail_eq, holdest, sizeofElement]
  omega

end Represents

/-- In every reachable state in which the start search returns 0: the position is beyond the tail if
and only if the oldest packet from the time on lies below the oldest one of all. -/
theorem start_search_tail_lt_iff (N : ℕ+) (hN : (N : ℕ) < 2 ^ 32) (d : Disk)
    (hd : d.infoFile = none) (ops : List Op) (startTime : UInt32) (position : ℤ) :
    let s := (system N).after (initialStore N d) ops
    (searchForStartTimePositionInFile (s.begin allGranted) startTime).1 = .ok position →
      (s.handler.tail < position ↔ ¬ FromBeforeWrap s startTime) := by
  intro s hreply
  obtain ⟨o, -, ps, h, -⟩ := represents_after N hN hd ops
  exact h.tail_lt_reported_iff hreply

/-- In every reachable state and for every time: the start search returns 0 exactly when some live
packet has that time or a later one, and then reports the position of the oldest such packet, from
the head to the tail, if and only if that packet does not lie below the oldest one of all. -/
theorem start_search_reports_oldest_iff (N : ℕ+) (hN : (N : ℕ) < 2 ^ 32) (d : Disk)
    (hd : d.infoFile = none) (ops : List Op) (startTime : UInt32) :
    let s := (system N).after (initialStore N d) ops
    ReportsOldestFrom s startTime ↔ FromBeforeWrap s startTime := by
  intro s
  obtain ⟨o, -, ps, h, -⟩ := represents_after N hN hd ops
  exact h.reportsOldestFrom_iff startTime

/-- Packets of times 4 to 6, the last one past the wrap: the search from 5 reports the packet in the
last slot. -/
theorem start_search_reports_oldest_iff_last_slot :
    ReportsOldestFrom
      ((system maxTmNumber).after (initialStore maxTmNumber ⟨none, none⟩)
        [storeAt 1, storeAt 2, storeAt 3, storeAt 4, storeAt 5, .deleteUpToTime 3, storeAt 6])
      5 := by
  refine (start_search_reports_oldest_iff maxTmNumber (by decide) ⟨none, none⟩ rfl
    [storeAt 1, storeAt 2, storeAt 3, storeAt 4, storeAt 5, .deleteUpToTime 3, storeAt 6] 5).2 ?_
  intro i hi
  -- the packet number 1 is not below the time, so none after it is the oldest one
  have hle : i ≤ 1 := by
    by_contra hlt
    have hsecond : ((livePackets ((system maxTmNumber).after (initialStore maxTmNumber ⟨none, none⟩)
        [storeAt 1, storeAt 2, storeAt 3, storeAt 4, storeAt 5, .deleteUpToTime 3,
          storeAt 6]))[1]?).map Element.coarseTime = some 5 := by
      decide +kernel
    obtain ⟨p, hp, htime⟩ := Option.map_eq_some_iff.1 hsecond
    have hbefore := hi.first 1 p (not_le.1 hlt) hp
    rw [htime] at hbefore
    exact absurd hbefore (by decide)
  have hflat : ∀ j, j < 2 → ((system maxTmNumber).after (initialStore maxTmNumber ⟨none, none⟩)
      [storeAt 1, storeAt 2, storeAt 3, storeAt 4, storeAt 5, .deleteUpToTime 3,
        storeAt 6]).handler.oldestTmPosition ≤
          ((system maxTmNumber).after (initialStore maxTmNumber ⟨none, none⟩)
            [storeAt 1, storeAt 2, storeAt 3, storeAt 4, storeAt 5, .deleteUpToTime 3,
              storeAt 6]).handler.position j := by
    decide +kernel
  exact hflat i (by omega)

/-- The same packets: the packet of time 6 is in the first slot, and the search from 6 reports a
position beyond the tail. -/
theorem start_search_beyond_tail :
    let s := (system maxTmNumber).after (initialStore maxTmNumber ⟨none, none⟩)
      [storeAt 1, storeAt 2, storeAt 3, storeAt 4, storeAt 5, .deleteUpToTime 3, storeAt 6]
    (searchForStartTimePositionInFile (s.begin allGranted) 6).1 = .ok 90 ∧
      s.handler.tail = 72 ∧ ¬ ReportsOldestFrom s 6 := by
  intro s
  have hreply : (searchForStartTimePositionInFile (s.begin allGranted) 6).1 = .ok 90 := by
    decide +kernel
  have htail : s.handler.tail = 72 := by decide +kernel
  refine ⟨hreply, htail, ?_⟩
  rintro ⟨-, hreport⟩
  obtain ⟨-, hle, -⟩ := hreport 90 hreply
  rw [htail] at hle
  exact absurd hle (by decide)

end CComplete.PacketStoreSdcard
