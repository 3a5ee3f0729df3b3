import CComplete.Library.TimeLog
import CComplete.PacketStoreSdcard.Delete
import CComplete.PacketStoreSdcard.EmptyAnswers

/-!
# The packet store is a bounded time log

What the store is for: a time log of at most `N` packets that outlives the process. On the runs
whose reads and deletes stay clear of the wrap in the ways found for each of them
(`AnswersAsLog`), every answer is the one of the log and the live packets are its entries; a
restart is nothing that the log sees (`packet_store_refines_log`).
-/

set_option autoImplicit false

namespace CComplete.PacketStoreSdcard

open CComplete.Library

/-- The packets that a read gives its caller. -/
def ReadReply.delivered (reply : ReadReply) : List Element :=
  if reply.code = 0 then (List.range reply.readNumber).map reply.elements else []

/-- The step of the log that an entry of a run shows; a restart shows none. -/
def logView : Op × Reply → Option (LogIn Element ℕ × LogOut Element)
  | (.storeCallback dataPtr dataSize storageTime, .code code) =>
      some (.append (elementToWrite dataPtr dataSize storageTime), .appended (code = 0))
  | (.readElementsBetweenTwoDates _ _ _ startTime endTime, .read reply) =>
      some (.read startTime.toNat endTime.toNat, .entries reply.delivered)
  | (.deleteUpToTime time, .code _) => some (.deleteUpTo time.toNat, .deleted)
  | _ => none

/-- A read has a buffer for all live packets and ends before the wrap, or its searches find nothing
where no packet is in the range; a delete of something ends before the wrap. -/
def AnswersAsLog (N : ℕ) (s : Store) : Op → Prop
  | .readElementsBetweenTwoDates _ maxElementToRead _ startTime endTime =>
      s.handler.tmNumber ≤ maxElementToRead ∧
        (packetsBetween s startTime endTime ≠ [] → EndsBeforeWrap s startTime endTime) ∧
        (packetsBetween s startTime endTime = [] →
          AnsweredEmpty N s maxElementToRead startTime endTime)
  | .deleteUpToTime time => livePackets s ≠ [] → DeleteEndsBeforeWrap s time
  | _ => True

namespace Represents

variable {N : ℕ+} {o : ℕ} {s : Store} {ps : List Element}

theorem accepts_iff_admits (h : Represents N o s ps) (e : Element) :
    s.handler.Accepts N e ↔ Admits Element.time N ps e := by
  rw [admits_iff_getLast h.ordered, FileHandler.Accepts, h.tmNumber, h.newestTime]
  refine and_congr_right fun _ => ?_
  cases hlast : ps.getLast? with
  | none =>
    rw [List.getLast?_eq_none_iff] at hlast
    simp [hlast]
  | some x =>
    have hne : ps.length ≠ 0 := fun hzero => by
      rw [List.length_eq_zero_iff.1 hzero] at hlast
      cases hlast
    simp [hne, UInt32.le_iff_toNat_le, Element.time]

theorem entriesBetween_eq (h : Represents N o s ps) (startTime endTime : UInt32) :
    entriesBetween Element.time startTime.toNat endTime.toNat ps =
      packetsBetween s startTime endTime := by
  rw [packetsBetween, h.livePackets_eq]
  apply List.filter_congr
  intro p _
  rw [Bool.eq_iff_iff, mem_range_iff, Bool.and_eq_true, decide_eq_true_eq, decide_eq_true_eq]

theorem entriesAbove_eq (h : Represents N o s ps) (time : UInt32) :
    entriesAbove Element.time time.toNat ps = packetsAfter s time := by
  rw [packetsAfter, h.livePackets_eq]
  apply List.filter_congr
  intro p _
  rw [Bool.eq_iff_iff, decide_eq_true_eq, decide_eq_true_eq, UInt32.lt_iff_toNat_lt]
  rfl

theorem delivered_eq (h : Represents N o s ps) (elements : ℕ → Element)
    {maxElementToRead : ℕ} (readNumber : ℕ) {startTime endTime : UInt32}
    (hguard : AnswersAsLog N s (.readElementsBetweenTwoDates elements maxElementToRead readNumber
      startTime endTime)) :
    (readElementsBetweenTwoDates (s.begin allGranted) elements maxElementToRead readNumber startTime
      endTime).1.delivered = packetsBetween s startTime endTime := by
  obtain ⟨hmax, hwrap, hempty⟩ := hguard
  by_cases hnone : packetsBetween s startTime endTime = []
  · rw [hnone, ReadReply.delivered]
    rcases (h.deliversNothing_iff elements maxElementToRead readNumber hnone).2 (hempty hnone)
      with hcode | hnumber
    · rw [if_neg hcode]
    · rw [hnumber]
      split <;> rfl
  · have hread := (h.readsExactly_iff elements readNumber hmax hnone).2 (hwrap hnone)
    rw [ReadsExactly] at hread
    rw [hread, ReadReply.delivered, if_pos rfl]
    exact map_copied elements _

/-- A guarded delete leaves what the log keeps. -/
theorem delete_entriesAbove (h : Represents N o s ps) {time : UInt32}
    (hguard : AnswersAsLog N s (.deleteUpToTime time)) :
    ∃ o', Represents N o' ((system N).step s (.deleteUpToTime time)).1
      (entriesAbove Element.time time.toNat ps) := by
  obtain ⟨o', k, hnext⟩ := h.step (.deleteUpToTime time)
  have hnone : ∀ reply, acceptedPacket (.deleteUpToTime time, reply) = none := fun _ => rfl
  rw [hnone, Option.toList_none, List.append_nil] at hnext
  by_cases hne : ps = []
  · subst hne
    rw [List.drop_nil] at hnext
    exact ⟨o', hnext⟩
  · have hlive := h.livePackets_eq
    have hexact := (h.deletesExactly_iff hne time).2 (hguard (hlive.symm ▸ hne))
    by_cases hsome : ∃ p ∈ livePackets s, p.coarseTime ≤ time
    · -- the prefix that the step drops is that of the packets up to the time
      have hleft := (hnext.liveExactly_iff _).1 (hexact.1 hsome).2
      rw [h.entriesAbove_eq, hleft]
      exact ⟨o', hnext⟩
    · have hlater : ∀ p ∈ livePackets s, time < p.coarseTime := by
        intro p hp
        exact UInt32.not_le.1 fun hle => hsome ⟨p, hp, hle⟩
      have hkeep : ((system N).step s (.deleteUpToTime time)).1 = s := (hexact.2 hlater).2
      have hall : entriesAbove Element.time time.toNat ps = ps := by
        rw [h.entriesAbove_eq, packetsAfter, List.filter_eq_self.2, hlive]
        intro p hp
        exact decide_eq_true (hlater p hp)
      rw [hkeep, hall]
      exact ⟨o, h⟩

/-- A guarded step is a step of the log, and a restart is none. -/
theorem log_step (h : Represents N o s ps) (op : Op)
    (hguard : AnswersAsLog N s op) :
    (timeLog Element.time N).Makes
      (fun ps' => ∃ o', Represents N o' ((system N).step s op).1 ps') ps
      (logView (op, ((system N).step s op).2)) := by
  cases op with
  | storeCallback dataPtr dataSize storageTime =>
    have hview : ∀ code, logView (.storeCallback dataPtr dataSize storageTime, .code code) =
        some (.append (elementToWrite dataPtr dataSize storageTime), .appended (code = 0)) :=
      fun _ => rfl
    have hstep : (system N).step s (.storeCallback dataPtr dataSize storageTime) =
        ((storeCallback N (s.begin allGranted) dataPtr dataSize storageTime).2.toStore,
          .code (storeCallback N (s.begin allGranted) dataPtr dataSize storageTime).1) := rfl
    rw [hstep, hview, Machine.Makes]
    by_cases hacc : s.handler.Accepts N (elementToWrite dataPtr dataSize storageTime)
    · obtain ⟨hcode, -, hstored⟩ := h.storeCallback_granted dataPtr dataSize storageTime hacc
      rw [timeLog_append_of_admits ((h.accepts_iff_admits _).1 hacc), hcode]
      exact ⟨⟨o, hstored⟩, rfl⟩
    · obtain ⟨code, hcode, hcall⟩ :=
        storeCallback_refused N dataPtr dataSize storageTime (s.begin allGranted) hacc
      rw [timeLog_append_of_not_admits (mt (h.accepts_iff_admits _).2 hacc), hcall]
      exact ⟨⟨o, h⟩, congrArg LogOut.appended (decide_eq_false hcode).symm⟩
  | readElementsBetweenTwoDates elements maxElementToRead readNumber startTime endTime =>
    have hkeep : ((system N).step s (.readElementsBetweenTwoDates elements maxElementToRead
        readNumber startTime endTime)).1 = s := readElements_toStore _ _ _ _ _ _
    have hreply := h.delivered_eq elements readNumber hguard
    rw [← h.entriesBetween_eq] at hreply
    exact ⟨⟨o, hkeep.symm ▸ h⟩, congrArg LogOut.entries hreply.symm⟩
  | deleteUpToTime time => exact ⟨h.delete_entriesAbove hguard, rfl⟩
  | restart =>
    have hkeep : ((system N).step s .restart).1 = s := (init_of_image N s.disk h.infoFile rfl).2.1
    exact ⟨o, hkeep.symm ▸ h⟩

end Represents

/-- The store simulates the log on the guarded runs. -/
def logSimulation (N : ℕ+) :
    WeakSimulation (system N) (timeLog Element.time N) (AnswersAsLog N) where
  rel s ps := ∃ o, Represents N o s ps
  view := logView
  rel_step _ _ op := fun ⟨_, h⟩ hguard => h.log_step op hguard

end CComplete.PacketStoreSdcard
