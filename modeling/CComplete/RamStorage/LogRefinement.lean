import CComplete.Library.TimeLog
import CComplete.RamStorage.Delete
import CComplete.RamStorage.ReadStatus

/-!
# The RAM storage is a bounded time log

The RAM storage is for the same thing as the packet store, the log of `L` elements in memory, but
it leaves to its caller what the packet store checks: it takes every element for which there is
room. On the runs that write no element older than one it holds, and whose reads and deletes meet
the junction of tail and head only in the ways found harmless (`AnswersAsLog`), its answers are
those of the log and its elements the entries (`ram_storage_refines_log`).
-/

set_option autoImplicit false

namespace CComplete.RamStorage

open CComplete.Library

/-- The elements that a read gives its caller. -/
def ReadReply.delivered (reply : ReadReply) : List Element :=
  if reply.code = 0 then (List.range reply.readNumber).map reply.elements else []

/-- The step of the log that an entry of a run shows. -/
def logView : Op × Reply → Option (LogIn Element ℕ × LogOut Element)
  | (.writeElement element, .code code) => some (.append element, .appended (code = 0))
  | (.readElementsBetweenTwoDates _ _ _ startTime endTime, .read reply) =>
      some (.read startTime.toNat endTime.toNat, .entries reply.delivered)
  | (.deleteUpToTime time, .code _) => some (.deleteUpTo time.toNat, .deleted)
  | _ => none

/-- A write with room is not older than any live element; a read with some element in the range has
a buffer for all live elements and the junction does it no harm; a delete is counted right. -/
def AnswersAsLog (s : Storage) : Op → Prop
  | .writeElement element =>
      s.handler.numberOfElements < s.handler.maxNumberOfElements →
        ∀ x ∈ liveElements s, x.time ≤ element.time
  | .readElementsBetweenTwoDates _ maxElementToRead _ startTime endTime =>
      elementsBetween s startTime endTime ≠ [] →
        s.handler.numberOfElements ≤ maxElementToRead ∧ JunctionHarmless s startTime endTime
  | .deleteUpToTime time => DeleteCounted s time

namespace Represents

variable {L : ℕ+} {o : ℕ} {s : Storage} {es : List Element}

theorem entriesBetween_eq (h : Represents L o s es) (startTime endTime : UInt32) :
    entriesBetween Element.timeNat startTime.toNat endTime.toNat es =
      elementsBetween s startTime endTime := by
  rw [elementsBetween, h.holds.liveElements_eq]
  apply List.filter_congr
  intro e _
  rw [Bool.eq_iff_iff, mem_range_iff, Bool.and_eq_true, decide_eq_true_eq, decide_eq_true_eq]

theorem entriesAbove_eq (h : Represents L o s es) (time : UInt32) :
    entriesAbove Element.timeNat time.toNat es = elementsAfter s time := by
  rw [elementsAfter, h.holds.liveElements_eq]
  apply List.filter_congr
  intro e _
  rw [Bool.eq_iff_iff, decide_eq_true_eq, decide_eq_true_eq, UInt32.lt_iff_toNat_lt]
  rfl

/-- A guarded read delivers what the log does. -/
theorem delivered_eq (h : Represents L o s es) (elements : ℕ → Element)
    {maxElementToRead : ℕ} (readNumber : ℕ) {startTime endTime : UInt32}
    (hguard : AnswersAsLog s (.readElementsBetweenTwoDates elements maxElementToRead readNumber
      startTime endTime)) :
    (readElementsBetweenTwoDates s elements maxElementToRead readNumber startTime
      endTime).delivered = elementsBetween s startTime endTime := by
  by_cases hnone : elementsBetween s startTime endTime = []
  · have hwindow := mt (h.elementsBetween_ne_nil_iff startTime endTime).2 (not_not.2 hnone)
    have hcode := h.read_none elements maxElementToRead readNumber (Nat.le_of_not_lt hwindow)
    rw [hnone, ReadReply.delivered, if_neg hcode]
  · obtain ⟨hmax, hjunction⟩ := hguard hnone
    have hread := (h.readsExactly_iff elements readNumber hmax hnone).2 hjunction
    rw [ReadsExactly] at hread
    rw [hread, ReadReply.delivered, if_pos rfl]
    exact map_copied elements _

/-- A guarded delete leaves what the log keeps. -/
theorem delete_entriesAbove (h : Represents L o s es) {time : UInt32}
    (hguard : AnswersAsLog s (.deleteUpToTime time)) :
    ∃ o', Represents L o' (deleteUpToTime s time).2
      (entriesAbove Element.timeNat time.toNat es) := by
  have hexact := (h.deletesExactly_iff time).2 hguard
  rcases h.deleteUpToTime_cases time with ⟨hnone, hcall⟩ | ⟨k, hpos, hle, -, -, hnext⟩
  · refine ⟨o, ?_⟩
    rw [hcall, h.entriesAbove_eq, h.elementsAfter_eq, hnone]
    exact h
  · have hsome : ∃ e ∈ liveElements s, e.time ≤ time := by
      obtain ⟨e, he, htime⟩ := upToCount_pos_iff.1 (hpos.trans_le hle)
      rw [h.holds.liveElements_eq]
      exact ⟨e, he, UInt32.le_iff_toNat_le.2 htime⟩
    have hleft := (hexact.1 hsome).2.1
    rw [hnext.holds.liveElements_eq] at hleft
    rw [h.entriesAbove_eq, ← hleft]
    exact ⟨o + k, hnext⟩

/-- A guarded step is the step of the log that it shows. -/
theorem log_step (h : Represents L o s es) (op : Op) (hguard : AnswersAsLog s op) :
    (timeLog Element.timeNat L).Makes
      (fun es' => ∃ o', Represents L o' (system.step s op).1 es') es
      (logView (op, (system.step s op).2)) := by
  cases op with
  | writeElement e =>
    have hview : ∀ code, logView (.writeElement e, .code code) =
        some (.append e, .appended (code = 0)) := fun _ => rfl
    have hstep : system.step s (.writeElement e) =
        ((writeElement s e).2, .code (writeElement s e).1) := rfl
    rw [hstep, hview, Machine.Makes]
    rcases Nat.lt_or_eq_of_le h.bounded with hroom | hfull
    · have hlast : ∀ x ∈ es, x.time ≤ e.time := by
        have hnewest := hguard (by rw [h.numberOfElements, h.maxNumberOfElements]; exact hroom)
        rwa [h.holds.liveElements_eq] at hnewest
      have hadmits : Admits Element.timeNat L es e :=
        ⟨hroom, fun x hx => UInt32.le_iff_toNat_le.1 (hlast x hx)⟩
      obtain ⟨hcode, hnext⟩ := h.writeElement_accepted hroom hlast
      rw [timeLog_append_of_admits hadmits, hcode]
      exact ⟨⟨o, hnext⟩, rfl⟩
    · have hadmits : ¬ Admits Element.timeNat L es e := fun hno => hno.1.ne hfull
      rw [timeLog_append_of_not_admits hadmits, h.holds.writeElement_refused hfull]
      exact ⟨⟨o, h⟩, rfl⟩
  | readElementsBetweenTwoDates elements maxElementToRead readNumber startTime endTime =>
    have hreply := h.delivered_eq elements readNumber hguard
    rw [← h.entriesBetween_eq] at hreply
    exact ⟨⟨o, h⟩, congrArg LogOut.entries hreply.symm⟩
  | deleteUpToTime time => exact ⟨h.delete_entriesAbove hguard, rfl⟩

end Represents

/-- A storage of `L` elements simulates the log on the guarded runs. -/
def logSimulation (L : ℕ+) :
    WeakSimulation system (timeLog Element.timeNat L) AnswersAsLog where
  rel s es := ∃ o, Represents L o s es
  view := logView
  rel_step _ _ op := fun ⟨_, h⟩ hguard => h.log_step op hguard

/-- Whatever the accepted length and whatever the storage held before: on every run of writes, reads
and deletes after an `init` that answers as a log, the answers are those of the time log of that
length that starts empty, and its entries are the live elements. -/
theorem ram_storage_refines_log (s₀ : Storage) (length : UInt32) (hlength : 1 ≤ length)
    (hinit : (initRamMemoryStorage s₀ length).1 = 0) (ops : List Op)
    (hguard : system.Guarded AnswersAsLog (initRamMemoryStorage s₀ length).2 ops) :
    let s := (initRamMemoryStorage s₀ length).2
    let shown := (system.trace s ops).filterMap logView
    let log := timeLog Element.timeNat length.toNat
    shown = log.trace [] (shown.map Prod.fst) ∧
      liveElements (system.after s ops) = log.after [] (shown.map Prod.fst) := by
  intro s shown log
  obtain ⟨L, hL, hstart⟩ := represents_init s₀ hlength hinit
  have hlog : log = timeLog Element.timeNat L := congrArg (timeLog Element.timeNat) hL.symm
  obtain ⟨⟨o, h⟩, htrace⟩ :=
    (logSimulation L).rel_after_and_trace (t := []) ⟨0, hstart⟩ ops hguard
  rw [hlog]
  exact ⟨htrace, h.holds.liveElements_eq⟩

/-- A storage for two elements: the third is refused, a read finds the second, and a delete of the
first makes room for the fourth. -/
theorem ram_storage_refines_log_two :
    liveElements
        (system.after (initRamMemoryStorage zeroStorage 2).2
          [writeAt 3, writeAt 5, writeAt 6,
            .readElementsBetweenTwoDates (fun _ => zeroElement) 2 0 4 9, .deleteUpToTime 4,
            writeAt 7]) =
      [⟨5, 4, Vector.replicate maxBufferLength 1⟩, ⟨7, 4, Vector.replicate maxBufferLength 1⟩] :=
  (ram_storage_refines_log zeroStorage 2 (by decide) (by decide)
    [writeAt 3, writeAt 5, writeAt 6,
      .readElementsBetweenTwoDates (fun _ => zeroElement) 2 0 4 9, .deleteUpToTime 4, writeAt 7]
    ⟨fun _ => by decide +kernel, fun _ => by decide +kernel, fun _ => by decide +kernel,
      fun _ => ⟨by decide +kernel, Or.inl (by decide +kernel)⟩,
      Or.inr (Or.inl (by decide +kernel)), fun _ => by decide +kernel, True.intro⟩).2.trans
    (by decide +kernel)

end CComplete.RamStorage
