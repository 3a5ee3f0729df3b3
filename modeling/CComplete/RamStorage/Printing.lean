import CComplete.Library.Logged
import CComplete.RamStorage.FailingCalls

/-!
# What the RAM storage prints

`RAM_STORAGE_delete_up_to_time` prints every element before it clears it, and
`RAM_STORAGE_print_memory_heap` prints all elements of the heap. On runs with times that do not
decrease, the accepted elements are those that the deletes printed, in order, followed by the live
ones (`deletes_print_removed`). Each print shows as many bytes of the buffer as `buffer_length`
says, which no call compares with the length of the buffer: whatever the calls and their times, the
prints stay in the buffers exactly when every accepted element does
(`printed_lines_inside_iff`). The text around the elements is left out; logged is every index of a
buffer that is read.
-/

set_option autoImplicit false

namespace CComplete.RamStorage

open CComplete.Library

/-! ## The printing functions -/

/-- `print_line`, on the bytes of `buffer`. -/
def printLine (size : ℕ) : Logged ℕ PUnit := (List.range size).forM Logged.access

/-- `print_element`. -/
def printElement (elem : Element) : Logged ℕ PUnit := printLine elem.bufferLength.toNat

/-- `RAM_STORAGE_print_memory_heap`. -/
def printMemoryHeap (s : Storage) : Logged ℕ PUnit :=
  (List.range maxElementsToStore).forM fun i =>
    printLine (elementAt s.heap (heapElement i)).bufferLength.toNat

/-- The elements that the delete loop gives to `print_element`, each before it is cleared. -/
def printedByLoop : ℕ → ℤ → Storage → List Element
  | 0, _, _ => []
  | remaining + 1, browser, s =>
      elementAt s.heap browser ::
        printedByLoop remaining (ascending s.handler browser) (deleteLoop 1 browser s)

/-- The elements that `RAM_STORAGE_delete_up_to_time` gives to `print_element`. -/
def printedByDelete (s : Storage) (time : UInt32) : List Element :=
  match searchDeleteLoop s time s.handler.numberOfElements 0
      (updateDescendingBrowser s.handler s.handler.writeTo) none with
  | none => []
  | some (browser, endDelete) =>
      printedByLoop (getNumberOfElementsBetweenPositions s.handler browser endDelete) browser s

/-- The elements that a call prints. -/
def printedBy (s : Storage) : Op → List Element
  | .deleteUpToTime time => printedByDelete s time
  | _ => []

/-- The storage with the elements that each call prints. -/
def printing : Machine Storage Op (Reply × List Element) where
  step s op := ((system.step s op).1, (system.step s op).2, printedBy s op)

/-- Without what it prints, it is the storage. -/
def printingSimulation : Simulation printing system fun _ _ => True where
  rel := Eq
  input := id
  output := Prod.fst
  rel_step _ _ _ h _ := by rw [h]; rfl
  output_step _ _ _ h _ := by rw [h]; rfl

theorem after_printing (s : Storage) (ops : List Op) :
    printing.after s ops = system.after s ops := by
  have hafter := printingSimulation.rel_after (t := s) rfl ops (printing.guarded_true s ops)
  rwa [show ops.map printingSimulation.input = ops from List.map_id ops] at hafter

theorem map_trace_printing (s : Storage) (ops : List Op) :
    (printing.trace s ops).map (Prod.map id Prod.fst) = system.trace s ops := by
  have htrace := printingSimulation.trace_map (t := s) rfl ops (printing.guarded_true s ops)
  rwa [show ops.map printingSimulation.input = ops from List.map_id ops] at htrace

/-! ## What a delete prints -/

namespace Represents

variable {L : ℕ+} {o : ℕ} {s : Storage} {es : List Element}

/-- The delete loop prints the elements that it drops. -/
theorem printedByLoop_eq (k : ℕ) :
    ∀ {o : ℕ} {s : Storage} {es : List Element}, Represents L o s es → k ≤ es.length →
      printedByLoop k ((ring L).addr o) s = es.take k := by
  induction k with
  | zero => exact fun _ _ => rfl
  | succ k ih =>
    intro o s es h hk
    cases es with
    | nil => exact absurd hk (Nat.not_succ_le_zero k)
    | cons e es =>
      have holdest : elementAt s.heap ((ring L).addr o) = e := h.elements.head.decode_block
      rw [printedByLoop, h.shape.ascending, holdest, List.take_succ_cons]
      exact congrArg _ (ih h.clearOldest (Nat.le_of_succ_le_succ hk))

/-- A delete prints the elements that it drops. -/
theorem deleteUpToTime_printed (h : Represents L o s es) (time : UInt32) :
    ∃ o' es', Represents L o' (deleteUpToTime s time).2 es' ∧
      es = printedByDelete s time ++ es' := by
  have hsearch := h.searchDeleteLoop_eq time
  rcases h.deleteUpToTime_cases time with ⟨hzero, hcall⟩ | ⟨k, hpos, hle, hk, -, hnext⟩
  · rw [if_neg (by omega)] at hsearch
    refine ⟨o, es, hcall ▸ h, ?_⟩
    rw [printedByDelete, hsearch, List.nil_append]
  · rw [if_pos (by omega)] at hsearch
    refine ⟨o + k, es.drop k, hnext, ?_⟩
    have hcount : k ≤ es.length := hle.trans upToCount_le_length
    rw [printedByDelete, hsearch]
    dsimp only
    rw [← hk, h.printedByLoop_eq k hcount, List.take_append_drop]

/-- A step keeps the elements that it does not print, and appends the one it accepts. -/
theorem step_printed (h : Represents L o s es) (op : Op)
    (hlast : ∀ e, acceptedElement (op, (system.step s op).2) = some e →
      ∀ x ∈ es, x.time ≤ e.time) :
    ∃ es', (∃ o', Represents L o' (system.step s op).1 es') ∧
      es ++ (acceptedElement (op, (system.step s op).2)).toList = printedBy s op ++ es' := by
  cases op with
  | writeElement e =>
    have hstep : system.step s (.writeElement e) =
        ((writeElement s e).2, .code (writeElement s e).1) := rfl
    rw [hstep, acceptedElement] at hlast ⊢
    rcases Nat.lt_or_eq_of_le h.bounded with hroom | hfull
    · have hcode := (h.holds.writeElement_accepted hroom e).1
      rw [if_pos hcode] at hlast ⊢
      exact ⟨es ++ [e], ⟨o, (h.writeElement_accepted hroom (hlast e rfl)).2⟩, rfl⟩
    · rw [h.holds.writeElement_refused hfull]
      exact ⟨es, ⟨o, h⟩, List.append_nil es⟩
  | readElementsBetweenTwoDates => exact ⟨es, ⟨o, h⟩, List.append_nil es⟩
  | deleteUpToTime time =>
    obtain ⟨o', es', hnext, hes⟩ := h.deleteUpToTime_printed time
    exact ⟨es', ⟨o', hnext⟩, (List.append_nil es).trans hes⟩

end Represents

/-- On every run, from an accepted `init`, of writes with times that do not decrease, reads and
deletes: the accepted elements are those that the deletes printed, in the order printed, followed by
the live ones. -/
theorem deletes_print_removed (s₀ : Storage) (length : UInt32) (hlength : 1 ≤ length)
    (hinit : (initRamMemoryStorage s₀ length).1 = 0) (ops : List Op)
    (htimes : (ops.filterMap Op.writtenTime).Pairwise (· ≤ ·)) :
    let start := (initRamMemoryStorage s₀ length).2
    (system.trace start ops).filterMap acceptedElement =
      (printing.trace start ops).flatMap (fun e => e.2.2) ++
        liveElements (system.after start ops) := by
  intro start
  obtain ⟨L, -, h₀⟩ := represents_init s₀ hlength hinit
  have haccepted := List.pairwise_map.1 (htimes.sublist (acceptedTimes_sublist start ops))
  rw [← map_trace_printing, List.filterMap_map] at haccepted ⊢
  obtain ⟨es, ⟨o, h⟩, hhistory⟩ := printing.conserved_of_history
    (R := fun s es => ∃ o, Represents L o s es) (Q := fun a b : Element => a.time ≤ b.time)
    (acceptedElement ∘ Prod.map id Prod.fst) (fun e => e.2.2) start ⟨0, h₀⟩
    (fun s op es ⟨o, h⟩ hlast => h.step_printed op hlast) ops haccepted
  rw [hhistory, ← after_printing, h.holds.liveElements_eq]

/-- Two slots: the first delete prints the first element, the second the two others. -/
theorem deletes_print_removed_two :
    let start := (initRamMemoryStorage zeroStorage 2).2
    let ops := [writeAt 3, writeAt 5, .deleteUpToTime 4, writeAt 7, .deleteUpToTime 9]
    ((printing.trace start ops).flatMap fun e => e.2.2).map Element.time = [3, 5, 7] := by
  intro start ops
  have hlive : liveElements (system.after start ops) = [] := by decide +kernel
  have hrun : (system.trace start ops).filterMap acceptedElement =
      (printing.trace start ops).flatMap (fun e => e.2.2) ++ liveElements (system.after start ops) :=
    deletes_print_removed zeroStorage 2 (by decide) (by decide) ops (by decide)
  rw [hlive, List.append_nil] at hrun
  rw [← hrun]
  decide +kernel

/-! ## The heap holds accepted elements and zeros -/

/-- Every element of the heap satisfies `P`. -/
def HeapAll (P : Element → Prop) (m : Memory) : Prop :=
  ∀ i, i < maxElementsToStore → ∃ e, elementCodec.Stored m (heapElement i) e ∧ P e

/-- The length of the element is at most the length of its buffer. -/
def Element.FitsBuffer (e : Element) : Prop := e.bufferLength.toNat ≤ maxBufferLength

/-- Printing the heap, or the elements of any delete, stays in the buffers. -/
def PrintsInside (s : Storage) : Prop :=
  Logged.Within (· < maxBufferLength) (printMemoryHeap s) ∧
    ∀ time, Logged.Within (· < maxBufferLength) ((printedByDelete s time).forM printElement)

/-- The element that a call accepts. -/
def acceptedByCall : Call × Reply → Option Element
  | (.initRamMemoryStorage _, _) => none
  | (.operate op, reply) => acceptedElement (op, reply)

theorem within_printElement {e : Element} :
    Logged.Within (· < maxBufferLength) (printElement e) ↔ e.FitsBuffer := Logged.within_range_forM

theorem fitsBuffer_zeroElement : zeroElement.FitsBuffer := Nat.zero_le _

section HeapAll

variable {P : Element → Prop} {L : ℕ+} {s : Storage} {m : Memory}

theorem HeapAll.elementAt (h : HeapAll P m) {i : ℕ} (hi : i < maxElementsToStore) :
    P (elementAt m (heapElement i)) := by
  obtain ⟨e, he, hP⟩ := h i hi
  have hread : RamStorage.elementAt m (heapElement i) = e := he.decode_block
  rwa [hread]

/-- Writing an element with `P` over one of the heap keeps `P` for all. -/
theorem HeapAll.copyIn (h : HeapAll P m) {e : Element} (hP : P e) (j : ℕ) {src : ℕ → UInt8}
    (hsrc : bufferBytes src elementCodec.size = elementCodec.encode e) :
    HeapAll P (m.copyIn (heapElement j) src elementCodec.size) := by
  intro i hi
  obtain ⟨x, hx, hPx⟩ := h i hi
  rcases eq_or_ne i j with rfl | hij
  · exact ⟨e, Codec.stored_copyIn hsrc, hP⟩
  · refine ⟨x, hx.copyIn_of_disjoint ?_, hPx⟩
    have hsize : (elementCodec.size : ℤ) = 13 := rfl
    rw [hsize, heapElement, heapElement, sizeofElement]
    omega

theorem HeapAll.clearElement (h : HeapAll P m) (hzero : P zeroElement) (j : ℕ) :
    HeapAll P (clearElement m (heapElement j)) := h.copyIn hzero j (by decide)

theorem heapAll_cleanHeap (hzero : P zeroElement) (m : Memory) : HeapAll P (cleanHeap m) :=
  fun _ hi => ⟨zeroElement, stored_cleanHeap m hi, hzero⟩

/-- The delete loop leaves elements with `P`, and prints such elements. -/
theorem HeapAll.deleteLoop (hzero : P zeroElement) (k : ℕ) :
    ∀ {s : Storage} (b : ℕ), Shape L s.handler → HeapAll P s.heap →
      HeapAll P (deleteLoop k ((ring L).addr b) s).heap ∧
        ∀ e ∈ printedByLoop k ((ring L).addr b) s, P e := by
  induction k with
  | zero => exact fun b _ h => ⟨h, fun e he => absurd he List.not_mem_nil⟩
  | succ k ih =>
    intro s b hshape h
    have hslot := (Nat.mod_lt b L.pos).trans_le hshape.capacity
    have hcleared : HeapAll P (RamStorage.clearElement s.heap ((ring L).addr b)) := by
      rw [ring_addr]
      exact h.clearElement hzero _
    obtain ⟨hheap, hprinted⟩ := ih
      (s := ⟨{ s.handler with
        numberOfElements := toUnsignedInt ((s.handler.numberOfElements : ℤ) - 1) },
        RamStorage.clearElement s.heap ((ring L).addr b)⟩)
      (b + 1) ⟨hshape.capacity, hshape.head, hshape.tail⟩ hcleared
    rw [RamStorage.deleteLoop, printedByLoop, hshape.ascending]
    refine ⟨hheap, List.forall_mem_cons.2 ⟨?_, hprinted⟩⟩
    rw [ring_addr]
    exact h.elementAt hslot

/-- A delete on a ring begins at one of its slots. -/
theorem InRing.exists_firstDeleted (h : InRing L s.handler) {time : UInt32} {first last : ℤ}
    (hfound : searchDeleteLoop s time s.handler.numberOfElements 0
      (updateDescendingBrowser s.handler s.handler.writeTo) none = some (first, last)) :
    ∃ b, first = (ring L).addr b := by
  obtain ⟨o, ho⟩ := h.exists_oldest
  rw [ho] at hfound
  obtain ⟨b, -, -, -, hfirst, -⟩ := h.shape.searchDeleteLoop_bounds _ 0 none le_rfl
    (fun _ ha => absurd ha (Option.not_mem_none _)) hfound
  exact ⟨o + b, hfirst⟩

/-- A delete on a ring leaves elements with `P`, and prints such elements. -/
theorem HeapAll.deleteUpToTime (h : HeapAll P s.heap) (hzero : P zeroElement)
    (hring : InRing L s.handler) (time : UInt32) :
    HeapAll P (deleteUpToTime s time).2.heap ∧ ∀ e ∈ printedByDelete s time, P e := by
  cases hfound : searchDeleteLoop s time s.handler.numberOfElements 0
      (updateDescendingBrowser s.handler s.handler.writeTo) none with
  | none =>
    rw [RamStorage.deleteUpToTime, printedByDelete, hfound]
    exact ⟨h, fun e he => absurd he List.not_mem_nil⟩
  | some found =>
    obtain ⟨b, hfirst⟩ := hring.exists_firstDeleted hfound
    rw [RamStorage.deleteUpToTime, printedByDelete, hfound]
    dsimp only
    rw [hfirst]
    exact HeapAll.deleteLoop hzero _ b hring.shape h

/-- A write on a ring is refused or stores the element in the heap. -/
theorem InRing.writeElement_cases (h : InRing L s.handler) (e : Element) :
    RamStorage.writeElement s e = (1, s) ∨
      (RamStorage.writeElement s e).1 = 0 ∧ ∃ i, i < maxElementsToStore ∧
        (RamStorage.writeElement s e).2.heap = storeElement s.heap (heapElement i) e := by
  obtain ⟨i, hi⟩ := h.writeTo
  rw [ring_addr] at hi
  rw [RamStorage.writeElement]
  split
  · refine Or.inr ⟨rfl, i % L, (Nat.mod_lt i L.pos).trans_le h.shape.capacity, ?_⟩
    rw [hi]
  · exact Or.inl rfl

/-- A call keeps `P` for all elements of the heap if the element it accepts, if any, satisfies `P`. -/
theorem HeapAll.step (h : HeapAll P s.heap) (hzero : P zeroElement) (hkept : Kept s.handler)
    (call : Call) (hnew : ∀ e, acceptedByCall (call, (program.step s call).2) = some e → P e) :
    HeapAll P (program.step s call).1.heap := by
  cases call with
  | initRamMemoryStorage length =>
    have hheap : (program.step s (.initRamMemoryStorage length)).1.heap = cleanHeap s.heap := by
      show (initRamMemoryStorage s length).2.heap = cleanHeap s.heap
      rw [initRamMemoryStorage, createMemoryStorage]
      split <;> rfl
    rw [hheap]
    exact heapAll_cleanHeap hzero s.heap
  | operate op =>
    show HeapAll P (system.step s op).1.heap
    rcases hkept with hidle | ⟨L, hring⟩
    · rw [hidle.step op]
      exact h
    · cases op with
      | writeElement e =>
        show HeapAll P (writeElement s e).2.heap
        rcases hring.writeElement_cases e with hrefused | ⟨hcode, i, -, hheap⟩
        · rw [hrefused]
          exact h
        · rw [hheap]
          exact h.copyIn (hnew e (if_pos hcode)) i (elementCodec.bufferBytes_encode e)
      | readElementsBetweenTwoDates => exact h
      | deleteUpToTime time => exact (h.deleteUpToTime hzero hring time).1

end HeapAll

/-- After every run of calls the heap holds accepted elements and zeros. -/
theorem heapAll_program {P : Element → Prop} (hzero : P zeroElement) (calls : List Call)
    (haccepted : ∀ e ∈ (program.trace zeroStorage calls).filterMap acceptedByCall, P e) :
    HeapAll P (program.after zeroStorage calls).heap := by
  induction calls using List.reverseRecOn with
  | nil =>
    have hbytes : bufferBytes (fun _ => 0) elementCodec.size = elementCodec.encode zeroElement := by
      decide
    exact fun _ _ => ⟨zeroElement, hbytes, hzero⟩
  | append_singleton calls call ih =>
    rw [Machine.trace_append, List.filterMap_append, List.forall_mem_append] at haccepted
    rw [Machine.after_append]
    refine (ih haccepted.1).step hzero (kept_program calls) call fun e he => haccepted.2 e ?_
    exact List.mem_filterMap.2 ⟨_, List.mem_singleton_self _, he⟩

/-- Where the heap and what deletes print fit, the prints stay inside. -/
theorem HeapAll.printsInside {s : Storage} (h : HeapAll Element.FitsBuffer s.heap)
    (hkept : Kept s.handler) : PrintsInside s := by
  constructor
  · rw [printMemoryHeap, Logged.within_forM]
    exact fun i hi => within_printElement.2 (h.elementAt (List.mem_range.1 hi))
  · intro time
    rw [Logged.within_forM]
    rcases hkept with hidle | ⟨L, hring⟩
    · rw [printedByDelete, hidle.searchDeleteLoop_eq]
      exact fun e he => absurd he List.not_mem_nil
    · exact fun e he => within_printElement.2
        ((h.deleteUpToTime fitsBuffer_zeroElement hring time).2 e he)

/-- An accepted element is stored in the heap. -/
theorem Kept.heap_of_accepted {s : Storage} (h : Kept s.handler) {call : Call} {e : Element}
    (haccepted : acceptedByCall (call, (program.step s call).2) = some e) :
    ∃ i, i < maxElementsToStore ∧
      (program.step s call).1.heap = storeElement s.heap (heapElement i) e := by
  cases call with
  | initRamMemoryStorage length => cases haccepted
  | operate op =>
    cases op with
    | writeElement element =>
      have hstep : program.step s (.operate (.writeElement element)) =
          ((writeElement s element).2, .code (writeElement s element).1) := rfl
      have hview : ∀ code : ℤ, acceptedByCall (.operate (.writeElement element), .code code) =
          if code = 0 then some element else none := fun _ => rfl
      rw [hstep, hview] at haccepted
      rw [hstep]
      rcases h with hidle | ⟨L, hring⟩
      · -- without capacity the write is refused
        rw [writeElement, hidle.numberOfElements, hidle.maxNumberOfElements,
          if_neg (lt_irrefl 0)] at haccepted
        cases haccepted
      · rcases hring.writeElement_cases element with hrefused | ⟨hcode, i, hi, hheap⟩
        · rw [hrefused] at haccepted
          cases haccepted
        · rw [if_pos hcode] at haccepted
          obtain rfl := Option.some.inj haccepted
          exact ⟨i, hi, hheap⟩
    | readElementsBetweenTwoDates => cases haccepted
    | deleteUpToTime time => cases haccepted

/-- Right after its write an accepted element is in the heap, so printing the heap shows it. -/
theorem fitsBuffer_of_printsInside {s : Storage} (hkept : Kept s.handler) {call : Call}
    {e : Element} (haccepted : acceptedByCall (call, (program.step s call).2) = some e)
    (hprints : PrintsInside (program.step s call).1) : e.FitsBuffer := by
  obtain ⟨i, hi, hheap⟩ := hkept.heap_of_accepted haccepted
  have hin := (Logged.within_forM _ _).1 hprints.1 i (List.mem_range.2 hi)
  have hread : elementAt (program.step s call).1.heap (heapElement i) = e := by
    rw [hheap]
    exact (stored_storeElement s.heap (heapElement i) e).decode_block
  rw [hread] at hin
  exact within_printElement.1 hin

/-- For every run of a program, with initializations anywhere and any times: at every moment of it
printing the heap, and what any delete then prints, stays in the buffers of the elements, if and
only if every element that a write accepted has at most `RAM_STORAGE__C_MAX_BUFFER_LENGTH` bytes. -/
theorem printed_lines_inside_iff (calls : List Call) :
    (∀ earlier later, calls = earlier ++ later →
        PrintsInside (program.after zeroStorage earlier)) ↔
      ∀ e ∈ (program.trace zeroStorage calls).filterMap acceptedByCall, e.FitsBuffer := by
  constructor
  · intro hprints e he
    obtain ⟨entry, hentry, haccepted⟩ := List.mem_filterMap.1 he
    obtain ⟨earlier, call, later, rfl, rfl⟩ := program.exists_of_mem_trace hentry
    have hafter := hprints (earlier ++ [call]) later (by rw [List.append_assoc]; rfl)
    rw [Machine.after_append] at hafter
    exact fitsBuffer_of_printsInside (kept_program earlier) haccepted hafter
  · intro hfits earlier later heq
    refine (heapAll_program fitsBuffer_zeroElement earlier fun e he => ?_).printsInside
      (kept_program earlier)
    refine hfits e ?_
    rw [heq, Machine.trace_append, List.filterMap_append]
    exact List.mem_append_left _ he

end CComplete.RamStorage
