import CComplete.PacketStoreSdcard.Outcome
import CComplete.Library.Memory
import CComplete.Library.Ring
import CComplete.Library.SortedWindow
import Mathlib.Tactic.Ring

/-!
# What the packet store holds, and its searches

`Represents N o s ps` says that the store `s` of capacity `N` holds the packets `ps`, the oldest
in slot `o` of the ring. The two linear searches then compute the ends of a time window of `ps`:
the start search stops at the packet number `belowCount`, the end search at the packet number
`upToCount - 1`. The position difference counts the packets between two positions, one too few
when the wrap lies between them.
-/

set_option autoImplicit false

namespace CComplete.PacketStoreSdcard

open CComplete.Library

/-- Slots of the elements in the packet file. -/
def slots (N : ℕ+) : Ring where
  base := 0
  stride := sizeofElement
  slots := N
  stride_pos := by decide
  slots_pos := N.pos

/-- The time of a packet as a number. -/
def Element.time (e : Element) : ℕ := e.coarseTime.toNat

/-- The first word of an element in a file is its time. -/
theorem readAt_coarseTime {f : Bytes} {a : ℤ} {e : Element} (h : elementCodec.Holds f a e)
    (old : UInt32) : wordCodec.readAt f a old = e.coarseTime := by
  have hword : wordCodec.Holds f a e.coarseTime := by
    rw [Codec.Holds, pread_take _ _ (show wordCodec.size ≤ elementCodec.size by decide), h]
    exact List.take_left' (length_le32 _)
  exact hword.readAt_eq old

/-- The store `s` of capacity `N` holds the packets `ps`, the oldest in slot `o`; the info file has
the handler. The capacity is one that `tm_number` can count. -/
structure Represents (N : ℕ+) (o : ℕ) (s : Store) (ps : List Element) : Prop where
  capacity : (N : ℕ) < 2 ^ 32
  head : s.handler.head = 0
  tail : s.handler.tail = (slots N).last
  oldest_lt : o < N
  oldestTmPosition : s.handler.oldestTmPosition = (slots N).addr o
  writeTo : s.handler.writeTo = (slots N).addr (o + ps.length)
  tmNumber : s.handler.tmNumber = ps.length
  bounded : ps.length ≤ N
  packets : (slots N).Segment (elementCodec.Holds s.disk.packetBytes) o ps
  fileExists : ps ≠ [] → s.disk.packetFile.isSome
  ordered : OrderedBy Element.time ps
  oldestTime : s.handler.oldestTime = (ps.head?.map Element.coarseTime).getD 0
  newestTime : s.handler.newestTime = (ps.getLast?.map Element.coarseTime).getD 0
  oldest_of_empty : ps = [] → o = 0
  infoFile : s.disk.infoFile = some s.handler

namespace Represents

variable {N : ℕ+} {o : ℕ} {s : Store} {ps : List Element}

theorem tmNumber_lt (h : Represents N o s ps) : s.handler.tmNumber < 2 ^ 32 :=
  h.tmNumber ▸ h.bounded.trans_lt h.capacity

/-! ## Cursors -/

theorem ascending (h : Represents N o s ps) (i : ℕ) :
    updateBrowserAscending s.handler ((slots N).addr i) = (slots N).addr (i + 1) := by
  have hnext := (slots N).next_addr i
  rw [updateBrowserAscending, h.head, h.tail]
  exact hnext

theorem descending (h : Represents N o s ps) (i : ℕ) :
    updateBrowserDescending s.handler ((slots N).addr (i + 1)) = (slots N).addr i := by
  have hprev := (slots N).prev_addr_succ i
  rw [updateBrowserDescending, h.head, h.tail]
  exact hprev

/-- The time word of a slot is the time of the packet it holds. -/
theorem readAt_time (h : Represents N o s ps) {i : ℕ} (hi : i < ps.length) (old : UInt32) :
    wordCodec.readAt s.disk.packetBytes ((slots N).addr (o + i)) old = ps[i].coarseTime :=
  readAt_coarseTime (h.packets i hi) old

/-! ## Searches -/

/-- The loop of the start search, with the packets before number `i` already passed. -/
theorem searchStartLoop_eq (h : Represents N o s ps) (startTime : UInt32) (remaining : ℕ) :
    ∀ (i : ℕ) (tmpTime : UInt32), remaining + i = ps.length →
      i ≤ belowCount Element.time startTime.toNat ps →
      searchStartLoop s.handler s.disk.packetBytes startTime remaining i ((slots N).addr (o + i))
          tmpTime =
        if belowCount Element.time startTime.toNat ps < ps.length then
          some (s.handler.oldestTmPosition +
            (belowCount Element.time startTime.toNat ps : ℤ) * sizeofElement)
        else none := by
  induction remaining with
  | zero =>
    intro i tmpTime hlen hi
    rw [if_neg (by omega)]
    rfl
  | succ remaining ih =>
    intro i tmpTime hlen hi
    have hlt : i < ps.length := by omega
    have hbelow := h.ordered.lt_belowCount_iff (s := startTime.toNat) hlt
    rw [searchStartLoop, h.readAt_time hlt]
    by_cases hfound : ps[i].coarseTime ≥ startTime
    · -- the first packet that is not below the start time has number `belowCount`
      have hstop : belowCount Element.time startTime.toNat ps = i := by
        have : ¬ i < belowCount Element.time startTime.toNat ps := by
          rw [hbelow, not_lt]
          exact UInt32.le_iff_toNat_le.1 hfound
        omega
      simp only [hfound, if_true, hstop, hlt]
    · have hmore : i < belowCount Element.time startTime.toNat ps := by
        rw [hbelow, ← not_le]
        exact fun hle => hfound (UInt32.le_iff_toNat_le.2 hle)
      simp only [hfound, if_false]
      rw [h.ascending, Nat.add_assoc]
      exact ih (i + 1) _ (by omega) hmore

/-- The loop of the end search, with the packets from number `j` on already passed. -/
theorem searchEndLoop_eq (h : Represents N o s ps) (endTm : UInt32) (j : ℕ) :
    ∀ tmpTime : UInt32, j ≤ ps.length → upToCount Element.time endTm.toNat ps ≤ j →
      searchEndLoop s.handler s.disk.packetBytes endTm j ((slots N).addr (o + j)) tmpTime =
        if 0 < upToCount Element.time endTm.toNat ps then
          some ((slots N).addr (o + (upToCount Element.time endTm.toNat ps - 1)))
        else none := by
  induction j with
  | zero =>
    intro tmpTime _ hcount
    rw [if_neg (by omega)]
    rfl
  | succ j ih =>
    intro tmpTime hj hcount
    have hlt : j < ps.length := hj
    have hupTo := h.ordered.lt_upToCount_iff (e := endTm.toNat) hlt
    simp only [searchEndLoop]
    rw [← Nat.add_assoc, h.descending, h.readAt_time hlt]
    by_cases hfound : ps[j].coarseTime ≤ endTm
    · -- the last packet that is not above the end time has number `upToCount - 1`
      have hmore : j < upToCount Element.time endTm.toNat ps :=
        hupTo.2 (UInt32.le_iff_toNat_le.1 hfound)
      have hstop : upToCount Element.time endTm.toNat ps = j + 1 := by omega
      simp [hfound, hstop]
    · have hmore : ¬ j < upToCount Element.time endTm.toNat ps := by
        rw [hupTo]
        exact fun hle => hfound (UInt32.le_iff_toNat_le.2 hle)
      rw [if_neg hfound]
      exact ih _ (by omega) (by omega)

/-- The start search with the packet file open. -/
theorem searchForStartTime_eq {w : World} (h : Represents N o w.toStore ps)
    (hopen : (w.granted w.opened && w.disk.packetFile.isSome) = true) (startTime : UInt32) :
    searchForStartTimePositionInFile w startTime =
      (if belowCount Element.time startTime.toNat ps < ps.length then
        .ok (w.handler.oldestTmPosition +
          (belowCount Element.time startTime.toNat ps : ℤ) * sizeofElement)
      else .error 1, w.finish w.handler 1 []) := by
  have hloop := h.searchStartLoop_eq startTime ps.length 0 0 rfl (Nat.zero_le _)
  rw [Nat.add_zero, ← h.oldestTmPosition] at hloop
  by_cases hfound : belowCount Element.time startTime.toNat ps < ps.length
  · rw [if_pos hfound] at hloop ⊢
    simp [searchForStartTimePositionInFile, World.fopenPacketFile, nextFopen_eq, hopen,
      h.tmNumber, hloop]
  · rw [if_neg hfound] at hloop ⊢
    simp [searchForStartTimePositionInFile, World.fopenPacketFile, nextFopen_eq, hopen,
      h.tmNumber, hloop]

/-- The end search with the packet file open. -/
theorem searchForEndTime_eq {w : World} (h : Represents N o w.toStore ps)
    (hopen : (w.granted w.opened && w.disk.packetFile.isSome) = true) (endTm : UInt32) :
    searchForEndTimePositionInFile w endTm =
      (if 0 < upToCount Element.time endTm.toNat ps then
        .ok ((slots N).addr (o + (upToCount Element.time endTm.toNat ps - 1)))
      else .error 1, w.finish w.handler 1 []) := by
  have hloop := h.searchEndLoop_eq endTm ps.length 0 (Nat.le_refl _) upToCount_le_length
  rw [← h.writeTo] at hloop
  by_cases hfound : 0 < upToCount Element.time endTm.toNat ps
  · rw [if_pos hfound] at hloop ⊢
    simp [searchForEndTimePositionInFile, World.fopenPacketFile, nextFopen_eq, hopen,
      h.tmNumber, hloop]
  · rw [if_neg hfound] at hloop ⊢
    simp [searchForEndTimePositionInFile, World.fopenPacketFile, nextFopen_eq, hopen,
      h.tmNumber, hloop]

end Represents

/-! ## Copying -/

/-- The copy loop delivers what the slots of the file hold. -/
theorem Represents.copyLoop_eq {N : ℕ+} {o : ℕ} {s : Store} {ps xs : List Element}
    (h : Represents N o s ps) {f : Bytes} (hf : (slots N).Segment (elementCodec.Holds f) o xs)
    (remaining : ℕ) :
    ∀ (a i : ℕ) (elements : ℕ → Element), a + remaining ≤ xs.length →
      copyLoop s.handler f remaining i ((slots N).addr (o + a)) elements =
        copied elements i ((xs.drop a).take remaining) := by
  induction remaining with
  | zero =>
    intro a i elements _
    rw [List.take_zero, copied_nil, copyLoop]
  | succ remaining ih =>
    intro a i elements hlen
    have hlt : a < xs.length := by omega
    rw [copyLoop, (hf a hlt).readAt_eq, h.ascending, Nat.add_assoc,
      ih (a + 1) (i + 1) _ (by omega), List.drop_eq_getElem_cons hlt, List.take_succ_cons,
      copied_cons]

/-! ## Counting -/

/-- The C expression that turns a position difference of `k` elements into a number of elements. -/
theorem elementCount_eq {k : ℕ} (hk : k + 1 < 2 ^ 32) :
    toUnsignedInt
      ((toUnsignedLong (sizeofElement * k) / toUnsignedLong sizeofElement + 1 : ℕ) : ℤ) =
        k + 1 := by
  have hlong : toUnsignedLong (sizeofElement * k) = 18 * k := by
    have := toUnsignedLong_of_lt (n := 18 * k) (by omega)
    rw [← this, sizeofElement]
    push_cast
    rfl
  have hsize : toUnsignedLong sizeofElement = 18 := by decide
  rw [hlong, hsize, Nat.mul_div_cancel_left _ (by decide)]
  exact toUnsignedInt_of_lt hk

theorem elementCount_le (k : ℕ) :
    toUnsignedInt
      ((toUnsignedLong (sizeofElement * k) / toUnsignedLong sizeofElement + 1 : ℕ) : ℤ) ≤
        k + 1 := by
  have hlong : toUnsignedLong (sizeofElement * k) ≤ 18 * k := by
    have := toUnsignedLong_le (18 * k)
    rw [sizeofElement]
    push_cast at this ⊢
    exact this
  have hsize : toUnsignedLong sizeofElement = 18 := by decide
  have hdiv := Nat.div_le_div_right (c := 18) hlong
  rw [Nat.mul_div_cancel_left _ (by decide)] at hdiv
  rw [hsize]
  exact (toUnsignedInt_le _).trans (Nat.succ_le_succ hdiv)

namespace Represents

variable {N : ℕ+} {o : ℕ} {s : Store} {ps : List Element}

/-- Position of slot number `b` after the oldest, before and past the wrap. -/
theorem addr_cases (h : Represents N o s ps) {b : ℕ} (hb : b < N) :
    (o + b < N ∧ (slots N).addr (o + b) = (slots N).addr o + sizeofElement * (b : ℤ)) ∨
      ((N : ℕ) ≤ o + b ∧
        (slots N).addr (o + b) = (slots N).addr o + sizeofElement * ((b : ℤ) - (N : ℕ))) := by
  have ho : o % (slots N).slots = o := Nat.mod_eq_of_lt h.oldest_lt
  have hdiff := (slots N).addr_sub_addr o (o + b)
  rw [ho] at hdiff
  -- the slot numbers themselves, before the addresses
  rcases (slots N).mod_add_cases o hb with ⟨hlt, hmod⟩ | ⟨hge, hmod⟩
  · rw [ho] at hlt hmod
    refine Or.inl ⟨hlt, ?_⟩
    rw [hmod, Nat.cast_add, add_sub_cancel_left] at hdiff
    exact (sub_eq_iff_eq_add'.1 hdiff)
  · rw [ho] at hge hmod
    refine Or.inr ⟨hge, ?_⟩
    have hslot : (((o + b) % (slots N).slots : ℕ) : ℤ) - (o : ℤ) = (b : ℤ) - (N : ℕ) := by
      have hslots : (slots N).slots = (N : ℕ) := rfl
      omega
    rw [hslot] at hdiff
    exact (sub_eq_iff_eq_add'.1 hdiff)

/-- Between packets on one side of the wrap, the count is the number of packets from `a` to `b`. -/
theorem count_of_lt (h : Represents N o s ps) {a b : ℕ} (hab : a ≤ b) (hob : o + b < N) :
    getNumberOfElementsBetweenTwoPosition s.handler
        (s.handler.oldestTmPosition + (a : ℤ) * sizeofElement) ((slots N).addr (o + b)) =
      b - a + 1 := by
  have hcapacity := h.capacity
  obtain ⟨-, haddr⟩ | ⟨hge, -⟩ := h.addr_cases (show b < N by omega)
  · have hdiff : (slots N).addr (o + b) - (s.handler.oldestTmPosition + (a : ℤ) * sizeofElement) =
        sizeofElement * ((b - a : ℕ) : ℤ) := by
      rw [haddr, h.oldestTmPosition, Nat.cast_sub hab]
      ring
    rw [getNumberOfElementsBetweenTwoPosition, if_pos, hdiff]
    · exact elementCount_eq (by omega)
    · rw [haddr, h.oldestTmPosition, sizeofElement]
      omega
  · omega

theorem tail_eq (h : Represents N o s ps) :
    s.handler.tail = sizeofElement * (((N : ℕ) : ℤ) - 1) := by
  rw [h.tail, Ring.last]
  exact zero_add _

/-- Past the wrap, the two differences add up to one element less than the distance. -/
theorem wrapped_differences (h : Represents N o s ps) (a : ℕ) {b : ℕ} (hb : b < N)
    (hob : (N : ℕ) ≤ o + b) :
    ¬ (slots N).addr (o + b) ≥ s.handler.oldestTmPosition + (a : ℤ) * sizeofElement ∧
      (s.handler.tail - (s.handler.oldestTmPosition + (a : ℤ) * sizeofElement)) +
          ((slots N).addr (o + b) - s.handler.head) =
        sizeofElement * ((b : ℤ) - a - 1) := by
  obtain ⟨hlt, -⟩ | ⟨-, haddr⟩ := h.addr_cases hb
  · omega
  · rw [haddr, h.oldestTmPosition, h.tail_eq, h.head]
    constructor
    · rw [sizeofElement]
      omega
    · ring

/-- Across the wrap the count is one short. -/
theorem count_of_wrapped (h : Represents N o s ps) {a b : ℕ} (hab : a < b) (hb : b < N)
    (hob : (N : ℕ) ≤ o + b) :
    getNumberOfElementsBetweenTwoPosition s.handler
        (s.handler.oldestTmPosition + (a : ℤ) * sizeofElement) ((slots N).addr (o + b)) =
      b - a := by
  have hcapacity := h.capacity
  obtain ⟨hlt, hdiff⟩ := h.wrapped_differences a hb hob
  have hsteps : (b : ℤ) - a - 1 = ((b - a - 1 : ℕ) : ℤ) := by omega
  rw [getNumberOfElementsBetweenTwoPosition, if_neg hlt, hdiff, hsteps,
    elementCount_eq (show b - a - 1 + 1 < 2 ^ 32 by omega)]
  omega

/-- A single packet past the wrap: the difference is negative and the count is not one. -/
theorem count_of_wrapped_self (h : Represents N o s ps) {b : ℕ} (hb : b < N)
    (hob : (N : ℕ) ≤ o + b) :
    getNumberOfElementsBetweenTwoPosition s.handler
        (s.handler.oldestTmPosition + (b : ℤ) * sizeofElement) ((slots N).addr (o + b)) =
      954437176 := by
  obtain ⟨hlt, hdiff⟩ := h.wrapped_differences b hb hob
  -- minus one element as an `unsigned long`, divided by 18
  rw [getNumberOfElementsBetweenTwoPosition, if_neg hlt, hdiff, sub_self]
  decide

/-- The count from the oldest packet to packet number `b` never exceeds the number of packets. -/
theorem count_le (h : Represents N o s ps) {b : ℕ} (hb : b < N) :
    getNumberOfElementsBetweenTwoPosition s.handler s.handler.oldestTmPosition
      ((slots N).addr (o + b)) ≤ b + 1 := by
  obtain ⟨-, haddr⟩ | ⟨hob, -⟩ := h.addr_cases hb
  · rw [getNumberOfElementsBetweenTwoPosition, if_pos, haddr, h.oldestTmPosition,
      add_sub_cancel_left]
    · exact elementCount_le b
    · rw [haddr, h.oldestTmPosition, sizeofElement]
      omega
  · obtain ⟨hlt, hdiff⟩ := h.wrapped_differences 0 hb hob
    -- past the wrap `b` is not zero, since the oldest slot is before it
    have hsteps : (b : ℤ) - (0 : ℕ) - 1 = ((b - 1 : ℕ) : ℤ) := by
      have := h.oldest_lt
      omega
    rw [hsteps, Nat.cast_zero, zero_mul, add_zero] at hdiff
    rw [Nat.cast_zero, zero_mul, add_zero] at hlt
    rw [getNumberOfElementsBetweenTwoPosition, if_neg hlt, hdiff]
    exact (elementCount_le (b - 1)).trans (by omega)

/-- The count from the oldest packet on is at least one. -/
theorem count_pos (h : Represents N o s ps) {b : ℕ} (hb : b < N) :
    0 < getNumberOfElementsBetweenTwoPosition s.handler s.handler.oldestTmPosition
      ((slots N).addr (o + b)) := by
  have hstart : s.handler.oldestTmPosition =
      s.handler.oldestTmPosition + ((0 : ℕ) : ℤ) * sizeofElement := by
    rw [Nat.cast_zero, zero_mul, add_zero]
  rw [hstart]
  rcases Nat.lt_or_ge (o + b) N with hflat | hwrapped
  · rw [h.count_of_lt (Nat.zero_le b) hflat]
    exact Nat.succ_pos _
  · have hlt := h.oldest_lt
    rw [h.count_of_wrapped (show 0 < b by omega) hb hwrapped]
    omega

end Represents

end CComplete.PacketStoreSdcard
