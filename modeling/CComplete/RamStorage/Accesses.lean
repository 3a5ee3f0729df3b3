import CComplete.Library.Logged
import CComplete.RamStorage.FailingCalls

/-!
# The element addresses that the RAM storage accesses

The functions of the storage again, with the element addresses that they read or write. Their values
are those of the model (`value_step`). While the handler is that of a ring, every browser is a slot
of the ring, so all accesses stay in the heap. With length 0 the handler has no slot and its tail is
the element number 2^32 - 1: the oldest and the newest time are read there
(`accesses_in_heap_iff`).
-/

set_option autoImplicit false

namespace CComplete.RamStorage

open CComplete.Library CComplete.Library.Logged

/-! ## The calls with their accesses -/

namespace Accessed

/-- `((RAM_STORAGE__T_ELEMENT*)a)->time`. -/
def timeAt (m : Memory) (a : ℤ) : Logged ℤ UInt32 := do
  access a
  pure (RamStorage.timeAt m a)

/-- The element copied from address `a`. -/
def elementAt (m : Memory) (a : ℤ) : Logged ℤ Element := do
  access a
  pure (RamStorage.elementAt m a)

/-- `memcpy` of an element to address `a`. -/
def storeElement (m : Memory) (a : ℤ) (e : Element) : Logged ℤ Memory := do
  access a
  pure (RamStorage.storeElement m a e)

/-- `memset` of an element at address `a` to zero. -/
def clearElement (m : Memory) (a : ℤ) : Logged ℤ Memory := do
  access a
  pure (RamStorage.clearElement m a)

/-- `RAM_STORAGE_write_element`. -/
def writeElement (s : Storage) (element : Element) : Logged ℤ (ℤ × Storage) :=
  if s.handler.numberOfElements < s.handler.maxNumberOfElements then do
    let heap ← storeElement s.heap s.handler.writeTo element
    pure (0,
      { handler :=
          { s.handler with
            writeTo := ascending s.handler s.handler.writeTo
            numberOfElements := toUnsignedInt ((s.handler.numberOfElements : ℤ) + 1) }
        heap := heap })
  else pure (1, s)

/-- Loop of `search_element_start_time`. -/
def searchStartLoop (s : Storage) (time : UInt32) : ℕ → ℕ → ℤ → Logged ℤ (Option ℤ)
  | 0, _, _ => pure none
  | remaining + 1, counter, browser => do
      let previous := updateDescendingBrowser s.handler browser
      let here ← timeAt s.heap browser
      if here ≥ time then
        if counter + 1 = s.handler.numberOfElements then pure (some browser)
        else do
          let before ← timeAt s.heap previous
          if before ≥ time then searchStartLoop s time remaining (counter + 1) previous
          else pure (some browser)
      else searchStartLoop s time remaining (counter + 1) previous

/-- `search_element_start_time`. -/
def searchElementStartTime (s : Storage) (time : UInt32) : Logged ℤ (Option ℤ) :=
  searchStartLoop s time s.handler.numberOfElements 0
    (updateDescendingBrowser s.handler s.handler.writeTo)

/-- Loop of `search_element_end_time`. The time of the start element is read only if the first half
of the test holds. -/
def searchEndLoop (s : Storage) (time : UInt32) (startElem : ℤ) (maxReadable : ℕ) :
    ℕ → ℕ → ℤ → Logged ℤ (Option ℤ)
  | 0, _, _ => pure none
  | remaining + 1, counter, browser => do
      let next := ascending s.handler browser
      let here ← timeAt s.heap browser
      if here ≤ time then do
        let first ← timeAt s.heap startElem
        if here ≥ first then
          if counter + 1 = maxReadable then pure (some browser)
          else do
            let after ← timeAt s.heap next
            if after ≤ time then
              searchEndLoop s time startElem maxReadable remaining (counter + 1) next
            else pure (some browser)
        else searchEndLoop s time startElem maxReadable remaining (counter + 1) next
      else searchEndLoop s time startElem maxReadable remaining (counter + 1) next

/-- `search_element_end_time`. -/
def searchElementEndTime (s : Storage) (time : UInt32) (startElem : ℤ) : Logged ℤ (Option ℤ) :=
  let lastWritten := updateDescendingBrowser s.handler s.handler.writeTo
  let maxReadable :=
    getAbsDistanceBetweenAddress s.handler startElem lastWritten / sizeofElement.toNat
  searchEndLoop s time startElem maxReadable maxReadable 0 startElem

/-- Copy loop of the range read. -/
def copyLoop (s : Storage) : ℕ → ℕ → ℤ → (ℕ → Element) → Logged ℤ (ℕ → Element)
  | 0, _, _, elements => pure elements
  | remaining + 1, i, browser, elements => do
      let element ← elementAt s.heap browser
      copyLoop s remaining (i + 1) (ascending s.handler browser)
        (Function.update elements i element)

/-- `RAM_STORAGE_read_elements_between_two_dates`. -/
def readElementsBetweenTwoDates (s : Storage) (elements : ℕ → Element)
    (maxElementToRead readNumber : ℕ) (startTime endTime : UInt32) : Logged ℤ ReadReply := do
  match ← searchElementStartTime s startTime with
  | none => pure ⟨-1, readNumber, elements⟩
  | some firstElement =>
      match ← searchElementEndTime s endTime firstElement with
      | none => pure ⟨-2, readNumber, elements⟩
      | some lastElement =>
          let readNumber :=
            getNumberOfElementsBetweenPositions s.handler firstElement lastElement
          if readNumber = 0 then pure ⟨1, readNumber, elements⟩
          else if readNumber > maxElementToRead then pure ⟨-3, readNumber, elements⟩
          else do
            let elements ← copyLoop s readNumber 0 firstElement elements
            pure ⟨0, readNumber, elements⟩

/-- Search loop of `RAM_STORAGE_delete_up_to_time`. -/
def searchDeleteLoop (s : Storage) (time : UInt32) :
    ℕ → ℕ → ℤ → Option ℤ → Logged ℤ (Option (ℤ × ℤ))
  | 0, _, _, _ => pure none
  | remaining + 1, counter, browser, endDelete => do
      let previous := updateDescendingBrowser s.handler browser
      let here ← timeAt s.heap browser
      if here ≤ time then
        let endDelete := endDelete.getD browser
        if counter + 1 = s.handler.numberOfElements then pure (some (browser, endDelete))
        else do
          let before ← timeAt s.heap previous
          if before ≤ time then
            searchDeleteLoop s time remaining (counter + 1) previous (some endDelete)
          else pure (some (browser, endDelete))
      else searchDeleteLoop s time remaining (counter + 1) previous endDelete

/-- Delete loop of `RAM_STORAGE_delete_up_to_time`. The element is printed before it is cleared. -/
def deleteLoop : ℕ → ℤ → Storage → Logged ℤ Storage
  | 0, _, s => pure s
  | remaining + 1, browser, s => do
      let _printed ← elementAt s.heap browser
      let heap ← clearElement s.heap browser
      deleteLoop remaining (ascending s.handler browser)
        { handler :=
            { s.handler with
              numberOfElements := toUnsignedInt ((s.handler.numberOfElements : ℤ) - 1) }
          heap := heap }

/-- `RAM_STORAGE_delete_up_to_time`. -/
def deleteUpToTime (s : Storage) (time : UInt32) : Logged ℤ (ℤ × Storage) := do
  match ← searchDeleteLoop s time s.handler.numberOfElements 0
      (updateDescendingBrowser s.handler s.handler.writeTo) none with
  | none => pure (-1, s)
  | some (browser, endDelete) => do
      let s ← deleteLoop (getNumberOfElementsBetweenPositions s.handler browser endDelete) browser s
      pure (0, s)

/-- Loop of `get_oldest_time`. -/
def oldestTimeLoop (s : Storage) : ℕ → ℤ → UInt32 → Logged ℤ UInt32
  | 0, _, oldestTime => pure oldestTime
  | remaining + 1, browser, oldestTime => do
      let browser := updateDescendingBrowser s.handler browser
      let here ← timeAt s.heap browser
      oldestTimeLoop s remaining browser (if here ≤ oldestTime then here else oldestTime)

/-- `RAM_STORAGE_update_with_oldest_time`. -/
def updateWithOldestTime (s : Storage) : Logged ℤ UInt32 := do
  let browser := updateDescendingBrowser s.handler s.handler.writeTo
  let oldestTime ← timeAt s.heap browser
  oldestTimeLoop s (s.handler.numberOfElements - 1) browser oldestTime

/-- `RAM_STORAGE_update_with_newest_time`. -/
def updateWithNewestTime (s : Storage) : Logged ℤ UInt32 :=
  timeAt s.heap (updateDescendingBrowser s.handler s.handler.writeTo)

/-- A call after the initialization. -/
inductive Use where
  | operate (op : Op)
  | updateWithOldestTime
  | updateWithNewestTime

/-- One of the two calls that report a time. -/
def Use.isUpdate : Use → Bool
  | .operate _ => false
  | .updateWithOldestTime => true
  | .updateWithNewestTime => true

/-- The call as one that may change the storage. -/
def Use.op? : Use → Option Op
  | .operate op => some op
  | .updateWithOldestTime => none
  | .updateWithNewestTime => none

/-- One call: the storage after it. -/
def step (s : Storage) : Use → Logged ℤ Storage
  | .operate (.writeElement element) => do
      let r ← writeElement s element
      pure r.2
  | .operate (.readElementsBetweenTwoDates elements maxElementToRead readNumber startTime
      endTime) => do
      let _reply ←
        readElementsBetweenTwoDates s elements maxElementToRead readNumber startTime endTime
      pure s
  | .operate (.deleteUpToTime time) => do
      let r ← deleteUpToTime s time
      pure r.2
  | .updateWithOldestTime => do
      let _oldestTime ← updateWithOldestTime s
      pure s
  | .updateWithNewestTime => do
      let _newestTime ← updateWithNewestTime s
      pure s

/-- A sequence of calls. -/
def run (s : Storage) (uses : List Use) : Logged ℤ Storage := uses.foldlM step s

/-! ## The values are those of the model -/

theorem value_searchStartLoop (s : Storage) (time : UInt32) (remaining : ℕ) :
    ∀ counter browser, (searchStartLoop s time remaining counter browser).value =
      RamStorage.searchStartLoop s time remaining counter browser := by
  induction remaining with
  | zero => exact fun _ _ => rfl
  | succ remaining ih =>
    intro counter browser
    simp only [searchStartLoop, RamStorage.searchStartLoop, timeAt, value_bind, value_pure,
      value_ite, ih]

theorem value_searchEndLoop (s : Storage) (time : UInt32) (startElem : ℤ) (maxReadable : ℕ)
    (remaining : ℕ) :
    ∀ counter browser,
      (searchEndLoop s time startElem maxReadable remaining counter browser).value =
        RamStorage.searchEndLoop s time startElem maxReadable remaining counter browser := by
  induction remaining with
  | zero => exact fun _ _ => rfl
  | succ remaining ih =>
    intro counter browser
    simp only [searchEndLoop, RamStorage.searchEndLoop, timeAt, value_bind, value_pure,
      value_ite, ih, ite_and]

theorem value_copyLoop (s : Storage) (remaining : ℕ) :
    ∀ i browser elements, (copyLoop s remaining i browser elements).value =
      RamStorage.copyLoop s remaining i browser elements := by
  induction remaining with
  | zero => exact fun _ _ _ => rfl
  | succ remaining ih => exact fun _ _ _ => ih _ _ _

theorem value_searchDeleteLoop (s : Storage) (time : UInt32) (remaining : ℕ) :
    ∀ counter browser endDelete,
      (searchDeleteLoop s time remaining counter browser endDelete).value =
        RamStorage.searchDeleteLoop s time remaining counter browser endDelete := by
  induction remaining with
  | zero => exact fun _ _ _ => rfl
  | succ remaining ih =>
    intro counter browser endDelete
    simp only [searchDeleteLoop, RamStorage.searchDeleteLoop, timeAt, value_bind, value_pure,
      value_ite, ih]

theorem value_deleteLoop (remaining : ℕ) :
    ∀ browser s, (deleteLoop remaining browser s).value =
      RamStorage.deleteLoop remaining browser s := by
  induction remaining with
  | zero => exact fun _ _ => rfl
  | succ remaining ih => exact fun _ _ => ih _ _

theorem value_oldestTimeLoop (s : Storage) (remaining : ℕ) :
    ∀ browser oldestTime, (oldestTimeLoop s remaining browser oldestTime).value =
      RamStorage.oldestTimeLoop s remaining browser oldestTime := by
  induction remaining with
  | zero => exact fun _ _ => rfl
  | succ remaining ih => exact fun _ _ => ih _ _

theorem value_writeElement (s : Storage) (element : Element) :
    (writeElement s element).value = RamStorage.writeElement s element := by
  rw [writeElement, RamStorage.writeElement, value_ite]
  rfl

theorem value_readElementsBetweenTwoDates (s : Storage) (elements : ℕ → Element)
    (maxElementToRead readNumber : ℕ) (startTime endTime : UInt32) :
    (readElementsBetweenTwoDates s elements maxElementToRead readNumber startTime endTime).value =
      RamStorage.readElementsBetweenTwoDates s elements maxElementToRead readNumber startTime
        endTime := by
  have hstart : (searchElementStartTime s startTime).value =
      RamStorage.searchElementStartTime s startTime := value_searchStartLoop s _ _ _ _
  simp only [readElementsBetweenTwoDates, RamStorage.readElementsBetweenTwoDates, value_bind,
    hstart]
  cases RamStorage.searchElementStartTime s startTime with
  | none => rfl
  | some firstElement =>
    have hend : (searchElementEndTime s endTime firstElement).value =
        RamStorage.searchElementEndTime s endTime firstElement := value_searchEndLoop s _ _ _ _ _ _
    simp only [value_bind, hend]
    cases RamStorage.searchElementEndTime s endTime firstElement with
    | none => rfl
    | some lastElement =>
      simp only [value_ite, value_bind, value_pure, value_copyLoop]

theorem value_deleteUpToTime (s : Storage) (time : UInt32) :
    (deleteUpToTime s time).value = RamStorage.deleteUpToTime s time := by
  simp only [deleteUpToTime, RamStorage.deleteUpToTime, value_bind, value_searchDeleteLoop]
  cases RamStorage.searchDeleteLoop s time s.handler.numberOfElements 0
      (updateDescendingBrowser s.handler s.handler.writeTo) none with
  | none => rfl
  | some found =>
    obtain ⟨browser, endDelete⟩ := found
    simp only [value_bind, value_pure, value_deleteLoop]

theorem value_updateWithOldestTime (s : Storage) :
    (updateWithOldestTime s).value = RamStorage.updateWithOldestTime s :=
  value_oldestTimeLoop s _ _ _

theorem value_updateWithNewestTime (s : Storage) :
    (updateWithNewestTime s).value = RamStorage.updateWithNewestTime s := rfl

theorem value_step (s : Storage) (op : Op) :
    (step s (.operate op)).value = (system.step s op).1 := by
  cases op with
  | writeElement element => exact congrArg Prod.snd (value_writeElement s element)
  | readElementsBetweenTwoDates => rfl
  | deleteUpToTime time => exact congrArg Prod.snd (value_deleteUpToTime s time)

/-- A sequence of calls ends in the state that the model reaches by those that change it. -/
theorem value_run (uses : List Use) :
    ∀ s, (run s uses).value = system.after s (uses.filterMap Use.op?) := by
  induction uses with
  | nil => exact fun _ => rfl
  | cons use uses ih =>
    intro s
    rw [run, List.foldlM_cons, value_bind]
    cases use with
    | operate op =>
      rw [value_step]
      exact ih _
    | updateWithOldestTime => exact ih s
    | updateWithNewestTime => exact ih s

/-! ## In a ring all accesses are slots -/

/-- An element slot of the ring. -/
def Slot (L : ℕ+) (a : ℤ) : Prop := ∃ i, a = (ring L).addr i

section Ring

variable {L : ℕ+} {s : Storage}

theorem slot_ascending (h : Shape L s.handler) {browser : ℤ} (hb : Slot L browser) :
    Slot L (ascending s.handler browser) := by
  obtain ⟨i, rfl⟩ := hb
  exact ⟨i + 1, h.ascending i⟩

theorem slot_descending (h : Shape L s.handler) {browser : ℤ} (hb : Slot L browser) :
    Slot L (updateDescendingBrowser s.handler browser) := by
  obtain ⟨i, rfl⟩ := hb
  refine ⟨i + ((L : ℕ) - 1), ?_⟩
  -- one turn further on, the slot before is a lower number
  have hL := L.pos
  have hturn : (ring L).addr (i + ((L : ℕ) - 1) + 1) = (ring L).addr i := ring_addr_turn (by omega)
  rw [← hturn, h.descending]

theorem within_timeAt (m : Memory) {a : ℤ} (ha : Slot L a) : Within (Slot L) (timeAt m a) :=
  (within_access.2 ha).bind (within_pure _)

theorem within_elementAt (m : Memory) {a : ℤ} (ha : Slot L a) :
    Within (Slot L) (elementAt m a) := (within_access.2 ha).bind (within_pure _)

theorem within_storeElement (m : Memory) {a : ℤ} (ha : Slot L a) (e : Element) :
    Within (Slot L) (storeElement m a e) := (within_access.2 ha).bind (within_pure _)

theorem within_clearElement (m : Memory) {a : ℤ} (ha : Slot L a) :
    Within (Slot L) (clearElement m a) := (within_access.2 ha).bind (within_pure _)

theorem within_searchStartLoop (h : Shape L s.handler) (time : UInt32) (remaining : ℕ) :
    ∀ counter browser, Slot L browser →
      Within (Slot L) (searchStartLoop s time remaining counter browser) := by
  induction remaining with
  | zero => exact fun _ _ _ => within_pure _
  | succ remaining ih =>
    intro counter browser hb
    have hprevious := slot_descending h hb
    rw [searchStartLoop]
    apply (within_timeAt s.heap hb).bind
    split
    · split
      · exact within_pure _
      · apply (within_timeAt s.heap hprevious).bind
        split
        · exact ih _ _ hprevious
        · exact within_pure _
    · exact ih _ _ hprevious

theorem slot_of_searchStartLoop (h : Shape L s.handler) (time : UInt32) {a : ℤ} (remaining : ℕ) :
    ∀ counter browser, Slot L browser →
      RamStorage.searchStartLoop s time remaining counter browser = some a → Slot L a := by
  induction remaining with
  | zero => exact fun _ _ _ hnone => nomatch hnone
  | succ remaining ih =>
    intro counter browser hb hsome
    rw [RamStorage.searchStartLoop] at hsome
    split_ifs at hsome
    · cases hsome
      exact hb
    · exact ih _ _ (slot_descending h hb) hsome
    · cases hsome
      exact hb
    · exact ih _ _ (slot_descending h hb) hsome

theorem within_searchEndLoop (h : Shape L s.handler) (time : UInt32) {startElem : ℤ}
    (hstart : Slot L startElem) (maxReadable remaining : ℕ) :
    ∀ counter browser, Slot L browser →
      Within (Slot L) (searchEndLoop s time startElem maxReadable remaining counter browser) := by
  induction remaining with
  | zero => exact fun _ _ _ => within_pure _
  | succ remaining ih =>
    intro counter browser hb
    have hnext := slot_ascending h hb
    rw [searchEndLoop]
    apply (within_timeAt s.heap hb).bind
    split
    · apply (within_timeAt s.heap hstart).bind
      split
      · split
        · exact within_pure _
        · apply (within_timeAt s.heap hnext).bind
          split
          · exact ih _ _ hnext
          · exact within_pure _
      · exact ih _ _ hnext
    · exact ih _ _ hnext

theorem within_copyLoop (h : Shape L s.handler) (remaining : ℕ) :
    ∀ i browser elements, Slot L browser →
      Within (Slot L) (copyLoop s remaining i browser elements) := by
  induction remaining with
  | zero => exact fun _ _ _ _ => within_pure _
  | succ remaining ih =>
    intro i browser elements hb
    rw [copyLoop]
    exact (within_elementAt s.heap hb).bind (ih _ _ _ (slot_ascending h hb))

theorem within_searchDeleteLoop (h : Shape L s.handler) (time : UInt32) (remaining : ℕ) :
    ∀ counter browser endDelete, Slot L browser →
      Within (Slot L) (searchDeleteLoop s time remaining counter browser endDelete) := by
  induction remaining with
  | zero => exact fun _ _ _ _ => within_pure _
  | succ remaining ih =>
    intro counter browser endDelete hb
    have hprevious := slot_descending h hb
    rw [searchDeleteLoop]
    apply (within_timeAt s.heap hb).bind
    split
    · split
      · exact within_pure _
      · apply (within_timeAt s.heap hprevious).bind
        split
        · exact ih _ _ _ hprevious
        · exact within_pure _
    · exact ih _ _ _ hprevious

theorem within_deleteLoop (remaining : ℕ) :
    ∀ (browser : ℤ) (s : Storage), Shape L s.handler → Slot L browser →
      Within (Slot L) (deleteLoop remaining browser s) := by
  induction remaining with
  | zero => exact fun _ _ _ _ => within_pure _
  | succ remaining ih =>
    intro browser s h hb
    rw [deleteLoop]
    apply (within_elementAt s.heap hb).bind
    apply (within_clearElement s.heap hb).bind
    exact ih _ _ ⟨h.capacity, h.head, h.tail⟩ (slot_ascending h hb)

theorem within_oldestTimeLoop (h : Shape L s.handler) (remaining : ℕ) :
    ∀ browser oldestTime, Slot L browser →
      Within (Slot L) (oldestTimeLoop s remaining browser oldestTime) := by
  induction remaining with
  | zero => exact fun _ _ _ => within_pure _
  | succ remaining ih =>
    intro browser oldestTime hb
    have hprevious := slot_descending h hb
    rw [oldestTimeLoop]
    exact (within_timeAt s.heap hprevious).bind (ih _ _ hprevious)

/-- A call on a ring accesses slots only. -/
theorem within_step (h : InRing L s.handler) (use : Use) : Within (Slot L) (step s use) := by
  have hwriteTo : Slot L s.handler.writeTo := h.writeTo
  have hnewest := slot_descending h.shape hwriteTo
  cases use with
  | operate op =>
    cases op with
    | writeElement element =>
      refine Within.bind ?_ (within_pure _)
      rw [writeElement]
      split
      · exact (within_storeElement s.heap hwriteTo element).bind (within_pure _)
      · exact within_pure _
    | readElementsBetweenTwoDates elements maxElementToRead readNumber startTime endTime =>
      refine Within.bind ?_ (within_pure _)
      apply (within_searchStartLoop h.shape startTime _ _ _ hnewest).bind
      rw [value_searchStartLoop]
      split
      · exact within_pure _
      · next first hfirst =>
        have hslot := slot_of_searchStartLoop h.shape startTime _ _ _ hnewest hfirst
        apply (within_searchEndLoop h.shape endTime hslot _ _ _ _ hslot).bind
        split
        · exact within_pure _
        · dsimp only
          split
          · exact within_pure _
          · split
            · exact within_pure _
            · exact (within_copyLoop h.shape _ _ _ _ hslot).bind (within_pure _)
    | deleteUpToTime time =>
      refine Within.bind ?_ (within_pure _)
      apply (within_searchDeleteLoop h.shape time _ _ _ _ hnewest).bind
      rw [value_searchDeleteLoop]
      split
      · exact within_pure _
      · next first last hfound =>
        obtain ⟨o, ho⟩ := h.exists_oldest
        rw [ho] at hfound
        obtain ⟨b, -, -, -, hfirst, -⟩ := h.shape.searchDeleteLoop_bounds _ 0 none le_rfl
          (fun _ ha => absurd ha (Option.not_mem_none _)) hfound
        exact (within_deleteLoop _ _ _ h.shape ⟨o + b, hfirst⟩).bind (within_pure _)
  | updateWithOldestTime =>
    refine Within.bind ?_ (within_pure _)
    exact (within_timeAt s.heap hnewest).bind (within_oldestTimeLoop h.shape _ _ _ hnewest)
  | updateWithNewestTime => exact (within_timeAt s.heap hnewest).bind (within_pure _)

theorem inRing_step (h : InRing L s.handler) (use : Use) : InRing L (step s use).value.handler := by
  cases use with
  | operate op =>
    rw [value_step]
    exact h.step op
  | updateWithOldestTime => exact h
  | updateWithNewestTime => exact h

end Ring

/-! ## Without capacity -/

/-- The address is that of one of the elements of the heap. -/
def InHeap (a : ℤ) : Prop := ∃ i < maxElementsToStore, a = heapElement i

theorem Slot.inHeap {L : ℕ+} {m : MemoryStorage} (h : Shape L m) {a : ℤ} (ha : Slot L a) :
    InHeap a := by
  obtain ⟨i, rfl⟩ := ha
  exact ⟨i % L, (Nat.mod_lt i L.pos).trans_le h.capacity, ring_addr L i⟩

/-- The index `length-1` of the tail is 2^32 - 1 for length 0. -/
theorem not_inHeap_underflow : ¬ InHeap (heapElement ((0 : UInt32) - 1).toNat) := by
  rintro ⟨i, hi, heq⟩
  have htail : heapElement 4294967295 = heapElement i := heq
  rw [heapElement, heapElement, sizeofElement] at htail
  rw [maxElementsToStore] at hi
  omega

/-- Without capacity a write, a read or a delete accesses nothing and changes nothing. -/
theorem step_of_idle {s : Storage} (h : Idle s.handler) (op : Op) :
    (step s (.operate op)).log = [] ∧ (step s (.operate op)).value = s := by
  refine ⟨?_, by rw [value_step, h.step]⟩
  cases op with
  | writeElement element =>
    have hfull : ¬ s.handler.numberOfElements < s.handler.maxNumberOfElements := by
      rw [h.numberOfElements, h.maxNumberOfElements]
      exact lt_irrefl 0
    simp only [step, writeElement, if_neg hfull, log_bind, log_pure, List.append_nil]
  | readElementsBetweenTwoDates =>
    simp only [step, readElementsBetweenTwoDates, searchElementStartTime, h.numberOfElements,
      searchStartLoop, log_bind, log_pure, value_pure, List.append_nil]
  | deleteUpToTime time =>
    simp only [step, deleteUpToTime, h.numberOfElements, searchDeleteLoop, log_bind, log_pure,
      value_pure, List.append_nil]

/-- Where the slot before `write_to` is not in the heap, calls without capacity stay in the heap if
and only if none of them reports a time. -/
theorem within_run_of_idle {s : Storage} (h : Idle s.handler)
    (hout : ¬ InHeap (updateDescendingBrowser s.handler s.handler.writeTo)) (uses : List Use) :
    Within InHeap (run s uses) ↔ ∀ use ∈ uses, use.isUpdate = false := by
  induction uses with
  | nil => exact iff_of_true (within_pure s) fun _ hno => absurd hno List.not_mem_nil
  | cons use uses ih =>
    rw [run, List.foldlM_cons, within_bind, List.forall_mem_cons]
    cases use with
    | operate op =>
      obtain ⟨hlog, hvalue⟩ := step_of_idle h op
      have hwithin : Within InHeap (step s (.operate op)) := by
        rw [Within, hlog]
        exact fun _ hno => absurd hno List.not_mem_nil
      rw [hvalue]
      exact and_congr (iff_of_true hwithin rfl) ih
    | updateWithOldestTime =>
      refine iff_of_false (fun hin => ?_) fun hno => Bool.noConfusion hno.1
      exact hout (hin.1 _ List.mem_cons_self)
    | updateWithNewestTime =>
      refine iff_of_false (fun hin => ?_) fun hno => Bool.noConfusion hno.1
      exact hout (hin.1 _ List.mem_cons_self)

end Accessed

open Accessed

/-- After every accepted initialization and for every sequence of writes, reads, deletes and reports
of the oldest or the newest time, with any times: all element addresses that are read or written are
elements of the heap if and only if the length is at least 1 or no time is reported. -/
theorem accesses_in_heap_iff (s₀ : Storage) (length : UInt32)
    (hinit : (initRamMemoryStorage s₀ length).1 = 0) (uses : List Use) :
    Within InHeap (run (initRamMemoryStorage s₀ length).2 uses) ↔
      1 ≤ length ∨ ∀ use ∈ uses, use.isUpdate = false := by
  by_cases hempty : length = 0
  · subst hempty
    rw [or_iff_right (show ¬ 1 ≤ (0 : UInt32) by decide)]
    exact within_run_of_idle (s := (initRamMemoryStorage s₀ 0).2) ⟨rfl, rfl⟩ not_inHeap_underflow
      uses
  · have hlength : 1 ≤ length := one_le_of_ne_zero hempty
    refine iff_of_true ?_ (Or.inl hlength)
    obtain ⟨L, -, h⟩ := represents_init s₀ hlength hinit
    intro a ha
    have hslot := within_foldlM (P := Slot L) (I := fun s => InRing L s.handler)
      (fun s use hs => ⟨within_step hs use, inRing_step hs use⟩) uses _ h.inRing a ha
    exact hslot.inHeap h.shape

/-- Five slots, times in any order, and a report. -/
theorem accesses_in_heap_iff_any_order :
    Within InHeap (run (initRamMemoryStorage zeroStorage 5).2
      [.operate (writeAt 7), .operate (writeAt 2), .operate (.deleteUpToTime 2),
        .updateWithOldestTime]) :=
  (accesses_in_heap_iff zeroStorage 5 (by decide) _).2 (Or.inl (by decide))

/-- Length 0 is accepted, and the newest time is then read from the element number 2^32 - 1. -/
theorem empty_storage_reads_outside :
    (initRamMemoryStorage zeroStorage 0).1 = 0 ∧
      ¬ Within InHeap (run (initRamMemoryStorage zeroStorage 0).2 [.updateWithNewestTime]) := by
  exact ⟨by decide, fun hin => not_inHeap_underflow (hin _ List.mem_cons_self)⟩

end CComplete.RamStorage
