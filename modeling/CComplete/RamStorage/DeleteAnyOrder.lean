import CComplete.Library.LastRun
import CComplete.RamStorage.Invariant

/-!
# What a delete loses when the times are in any order

`RAM_STORAGE_write_element` does not look at the time, so the elements up to a time may lie anywhere
among the live ones. A delete clears the newest run of them, but the counter then takes as many
elements off the old end. So it keeps all newer elements if and only if the newest run is not longer
than the run of elements up to the time at the old end (`delete_keeps_newer_iff`).
-/

set_option autoImplicit false

namespace CComplete.RamStorage

open CComplete.Library

/-- Is the time of the element at most `time`? -/
def isUpTo (time : UInt32) (e : Element) : Bool := decide (e.time ≤ time)

/-- After a delete every element with a time above `time` is still one of the live elements, at its
address and unchanged. -/
def KeepsNewer (s : Storage) (time : UInt32) : Prop :=
  let s' := (deleteUpToTime s time).2
  ∀ i, i < s.handler.numberOfElements →
    time < (elementAt s.heap (liveAddress s.handler i)).time →
      ∃ j, j < s'.handler.numberOfElements ∧
        liveAddress s'.handler j = liveAddress s.handler i ∧
        elementAt s'.heap (liveAddress s.handler i) = elementAt s.heap (liveAddress s.handler i)

/-- The newest run of live elements up to `time` is not longer than the run of such elements with
which the live elements begin. -/
def NewestRunFits (s : Storage) (time : UInt32) : Prop :=
  (lastRun (isUpTo time) (liveElements s)).length ≤
    ((liveElements s).takeWhile (isUpTo time)).length

instance (s : Storage) (time : UInt32) : Decidable (NewestRunFits s time) :=
  inferInstanceAs (Decidable (_ ≤ _))

theorem isUpTo_eq_false_iff {time : UInt32} {e : Element} :
    isUpTo time e = false ↔ time < e.time := by
  rw [isUpTo, decide_eq_false_iff_not, UInt32.not_le]

/-! ## The delete loop -/

/-- The delete loop lowers the counter by the number of slots it clears and keeps what the other
slots hold. -/
theorem Shape.deleteLoop_spec {L : ℕ+} (k : ℕ) :
    ∀ {s : Storage} {n : ℕ} (b : ℕ), Shape L s.handler → s.handler.numberOfElements = n + k →
      n + k ≤ L →
      (deleteLoop k ((ring L).addr b) s).handler = { s.handler with numberOfElements := n } ∧
        ∀ (j : ℕ) (e : Element), (∀ i, i < k → (b + i) % L ≠ j % L) →
          elementCodec.Stored s.heap ((ring L).addr j) e →
          elementCodec.Stored (deleteLoop k ((ring L).addr b) s).heap ((ring L).addr j) e := by
  induction k with
  | zero =>
    intro s n b _ hnumber _
    refine ⟨?_, fun _ _ _ he => he⟩
    rw [deleteLoop, ← Nat.add_zero n, ← hnumber]
  | succ k ih =>
    intro s n b h hnumber hbound
    have hcap := h.capacity
    have hdecrement : toUnsignedInt ((s.handler.numberOfElements : ℤ) - 1) = n + k := by
      rw [hnumber, ← Nat.add_assoc]
      exact decremented (by omega)
    rw [deleteLoop, h.ascending]
    obtain ⟨hhandler, hkept⟩ := ih
      (s := ⟨{ s.handler with
        numberOfElements := toUnsignedInt ((s.handler.numberOfElements : ℤ) - 1) },
        clearElement s.heap ((ring L).addr b)⟩)
      (b + 1) ⟨h.capacity, h.head, h.tail⟩ hdecrement (by omega)
    refine ⟨hhandler, fun j e hother he => hkept j e (fun i hi => ?_) ?_⟩
    · rw [Nat.add_right_comm, Nat.add_assoc]
      exact hother (i + 1) (Nat.succ_lt_succ hi)
    · show elementCodec.Stored (clearElement s.heap ((ring L).addr b)) ((ring L).addr j) e
      exact he.copyIn_of_disjoint ((ring L).addr_disjoint (hother 0 (Nat.zero_lt_succ k)))

/-- Between slots that do not wrap the count is right. -/
theorem Shape.count_of_flat {L : ℕ+} {m : MemoryStorage} (h : Shape L m) {b k : ℕ} (hpos : 0 < k)
    (hbound : b + k ≤ L) :
    getNumberOfElementsBetweenPositions m ((ring L).addr (0 + b))
      ((ring L).addr (0 + (b + k - 1))) = k := by
  have hcount := h.count_eq 0 (show b ≤ b + k - 1 by omega) (show b + k - 1 < (L : ℕ) by omega)
  rw [Nat.mod_eq_of_lt (show 0 + b < (L : ℕ) by omega),
    Nat.mod_eq_of_lt (show 0 + (b + k - 1) < (L : ℕ) by omega), if_pos (by omega)] at hcount
  omega

namespace Holds

variable {L : ℕ+} {o : ℕ} {s : Storage} {es : List Element} {time : UInt32} {b k : ℕ}

/-! ## The search -/

theorem lt_timeAt (h : Holds L o s es) {i : ℕ} (hi : i < es.length)
    (hfalse : isUpTo time es[i] = false) : time < timeAt s.heap ((ring L).addr (o + i)) := by
  rw [h.timeAt_live hi]
  exact isUpTo_eq_false_iff.1 hfalse

theorem timeAt_le (h : Holds L o s es) {i : ℕ} (hi : i < es.length)
    (htrue : isUpTo time es[i] = true) : timeAt s.heap ((ring L).addr (o + i)) ≤ time := by
  rw [h.timeAt_live hi]
  exact of_decide_eq_true htrue

/-- The delete search finds the newest run of elements up to the time, the `k` elements from number
`b` on. -/
theorem searchDeleteLoop_lastRun (h : Holds L o s es) (hrun : LastRunAt (isUpTo time) es b k) :
    searchDeleteLoop s time s.handler.numberOfElements 0
        (updateDescendingBrowser s.handler s.handler.writeTo) none =
      if 0 < k then some ((ring L).addr (o + b), (ring L).addr (o + (b + k - 1))) else none := by
  have hbounded := hrun.bounded
  have hnumber := h.numberOfElements
  have hwriteTo : s.handler.writeTo = (ring L).addr (o + s.handler.numberOfElements) := by
    rw [h.writeTo, hnumber]
  -- the elements after the run
  have hafter : ∀ i, b + k ≤ i → i < s.handler.numberOfElements →
      time < timeAt s.heap ((ring L).addr (o + i)) := by
    intro i hle hi
    rw [hnumber] at hi
    exact h.lt_timeAt hi (hrun.after i hi hle)
  rcases Nat.eq_zero_or_pos k with rfl | hpos
  · obtain rfl := hrun.empty rfl
    rw [if_neg (Nat.lt_irrefl 0)]
    exact h.shape.searchDeleteLoop_none hwriteTo fun i hi => hafter i (Nat.zero_le i) hi
  · rw [if_pos hpos]
    apply h.shape.searchDeleteLoop_run hwriteTo
    · omega
    · omega
    · exact fun i hei hi => hafter i (by omega) hi
    · intro i hbi hie
      have hi : i < es.length := by omega
      exact h.timeAt_le hi (hrun.inside i hi hbi (by omega))
    · rcases Nat.eq_zero_or_pos b with hzero | hbpos
      · exact Or.inl hzero
      · -- the element before the run
        have hi : b - 1 < es.length := by omega
        exact Or.inr (h.lt_timeAt hi (hrun.before (b - 1) hi (Nat.sub_add_cancel hbpos)))

/-! ## The delete -/

/-- A delete in a storage that never wrapped clears the newest run of elements up to the time and
lowers the counter by the length of the run. -/
theorem deleteUpToTime_spec (h : Holds L 0 s es) (hrun : LastRunAt (isUpTo time) es b k) :
    (deleteUpToTime s time).2.handler = { s.handler with numberOfElements := es.length - k } ∧
      ∀ i (hi : i < es.length), isUpTo time es[i] = false →
        elementCodec.Stored (deleteUpToTime s time).2.heap ((ring L).addr (0 + i)) es[i] := by
  have hbounded := hrun.bounded
  have hL := h.bounded
  have hsearch := h.searchDeleteLoop_lastRun hrun
  rcases Nat.eq_zero_or_pos k with rfl | hpos
  · -- no element up to the time
    rw [if_neg (Nat.lt_irrefl 0)] at hsearch
    rw [deleteUpToTime, hsearch]
    refine ⟨?_, fun i hi _ => h.elements i hi⟩
    rw [Nat.sub_zero, ← h.numberOfElements]
  · rw [if_pos hpos] at hsearch
    have hcount := h.shape.count_of_flat hpos (show b + k ≤ (L : ℕ) by omega)
    have hnumber : s.handler.numberOfElements = es.length - k + k := by
      rw [h.numberOfElements]
      omega
    obtain ⟨hhandler, hkept⟩ := Shape.deleteLoop_spec k (0 + b) h.shape hnumber (by omega)
    rw [deleteUpToTime, hsearch]
    simp only [hcount]
    refine ⟨hhandler, fun i hi hfalse => hkept (0 + i) _ (fun d hd heq => ?_) (h.elements i hi)⟩
    -- a cleared slot holds an element up to the time
    rw [Nat.mod_eq_of_lt (by omega), Nat.mod_eq_of_lt (by omega)] at heq
    have htrue := hrun.inside i hi (by omega) (by omega)
    exact absurd (htrue.symm.trans hfalse) (by decide)

/-- After the delete of a run of `k` elements the live elements are those from number `k` on. -/
theorem liveAddress_deleteUpToTime (h : Holds L 0 s es)
    (hrun : LastRunAt (isUpTo time) es b k) {j : ℕ} (hj : j ≤ es.length - k) :
    liveAddress (deleteUpToTime s time).2.handler j = (ring L).addr (k + j) := by
  have hbounded := hrun.bounded
  rw [(h.deleteUpToTime_spec hrun).1]
  have hshape : Shape L { s.handler with numberOfElements := es.length - k } :=
    ⟨h.shape.capacity, h.shape.head, h.shape.tail⟩
  apply hshape.liveAddress_eq
  · show s.handler.writeTo = (ring L).addr (k + (es.length - k))
    rw [h.writeTo, show 0 + es.length = k + (es.length - k) by omega]
  · exact hj

theorem keepsNewer_iff (h : Holds L 0 s es) (time : UInt32) :
    KeepsNewer s time ↔ NewestRunFits s time := by
  obtain ⟨b, hrun⟩ := exists_lastRunAt (isUpTo time) es
  rw [NewestRunFits, h.liveElements_eq]
  generalize (lastRun (isUpTo time) es).length = k at hrun
  have hbounded := hrun.bounded
  have hL := h.bounded
  obtain ⟨hhandler, hkept⟩ := h.deleteUpToTime_spec hrun
  have hnumber : (deleteUpToTime s time).2.handler.numberOfElements = es.length - k := by
    rw [hhandler]
  rw [le_length_takeWhile_iff _ (show k ≤ es.length by omega), KeepsNewer]
  simp only [hnumber, h.numberOfElements]
  constructor
  · intro hkeeps i hi hfalse
    have htime : time < (elementAt s.heap (liveAddress s.handler i)).time := by
      rw [h.liveAddress_eq hi.le, h.elementAt_live hi]
      exact isUpTo_eq_false_iff.1 hfalse
    obtain ⟨j, hj, haddr, -⟩ := hkeeps i hi htime
    -- the address is that of number `k + j`
    rw [h.liveAddress_deleteUpToTime hrun hj.le, h.liveAddress_eq hi.le,
      (ring L).addr_inj_of_lt (show k + j < (L : ℕ) by omega)
        (show 0 + i < (L : ℕ) by omega)] at haddr
    omega
  · intro hfits i hi htime
    rw [h.liveAddress_eq hi.le, h.elementAt_live hi] at htime ⊢
    have hfalse := isUpTo_eq_false_iff.2 htime
    have hki := hfits i hi hfalse
    refine ⟨i - k, by omega, ?_, (hkept i hi hfalse).decode_block⟩
    rw [h.liveAddress_deleteUpToTime hrun (by omega), show k + (i - k) = 0 + i by omega]

/-! ## Runs of writes -/

/-- A write appends the element or is refused. -/
theorem step_writeElement (h : Holds L 0 s es) (e : Element) :
    ∃ es', Holds L 0 (system.step s (.writeElement e)).1 es' := by
  have hstep : (system.step s (.writeElement e)).1 = (writeElement s e).2 := rfl
  rw [hstep]
  rcases Nat.lt_or_eq_of_le h.bounded with hroom | hfull
  · exact ⟨_, (h.writeElement_accepted hroom e).2⟩
  · rw [h.writeElement_refused hfull]
    exact ⟨es, h⟩

theorem run_writeElement (h : Holds L 0 s es) (elements : List Element) :
    ∃ es', Holds L 0 (system.after s (elements.map .writeElement)) es' := by
  induction elements generalizing s es with
  | nil => exact ⟨es, h⟩
  | cons e elements ih =>
    obtain ⟨es', h'⟩ := h.step_writeElement e
    exact ih h'

end Holds

/-- In every state reached from an accepted `init` by writes of any times, a delete keeps all newer
elements if and only if the newest run of elements up to the time is not longer than the run of such
elements at the old end. A refused write changes nothing, so the states are those that the accepted
writes reach. -/
theorem delete_keeps_newer_iff (s₀ : Storage) (length : UInt32) (hlength : 1 ≤ length)
    (hinit : (initRamMemoryStorage s₀ length).1 = 0) (elements : List Element) (time : UInt32) :
    let s := system.after (initRamMemoryStorage s₀ length).2 (elements.map .writeElement)
    KeepsNewer s time ↔ NewestRunFits s time := by
  intro s
  obtain ⟨L, -, h₀⟩ := represents_init s₀ hlength hinit
  obtain ⟨es, h⟩ := h₀.holds.run_writeElement elements
  exact h.keepsNewer_iff time

/-- Times 1, 9, 2, 8: a delete up to 3 clears the element of time 2 and takes the one of time 1 off
the old end, so 9 and 8 stay. -/
theorem delete_keeps_newer_iff_balanced :
    KeepsNewer
      (system.after (initRamMemoryStorage zeroStorage 5).2
        [writeAt 1, writeAt 9, writeAt 2, writeAt 8]) 3 :=
  (delete_keeps_newer_iff zeroStorage 5 (by decide) (by decide)
    ([1, 9, 2, 8].map fun time => ⟨time, 4, Vector.replicate maxBufferLength 1⟩) 3).2
    (by decide +kernel)

/-- Times 5, 2, 9, all accepted: a delete up to 2 takes the element of time 5 off the old end. -/
theorem delete_loses_newer :
    let s := system.after (initRamMemoryStorage zeroStorage 5).2 [writeAt 5, writeAt 2, writeAt 9]
    s.handler.numberOfElements = 3 ∧ ¬ KeepsNewer s 2 := by
  intro s
  refine ⟨by decide +kernel, fun hkeeps => ?_⟩
  obtain ⟨j, hj, haddr, -⟩ := hkeeps 0 (by decide +kernel) (by decide +kernel)
  -- neither of the two slots that stay live is that of the first element
  have hgone : ∀ j, j < (deleteUpToTime s 2).2.handler.numberOfElements →
      liveAddress (deleteUpToTime s 2).2.handler j ≠ liveAddress s.handler 0 := by
    decide +kernel
  exact hgone j hj haddr

end CComplete.RamStorage
