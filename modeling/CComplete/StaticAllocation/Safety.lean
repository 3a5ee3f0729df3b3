import CComplete.StaticAllocation.Model
import Mathlib.Algebra.Order.Group.Int

/-!
# Safety of the static allocator

As long as no size is negative, the blocks that were handed out lie one after the other from the
start of the pool to the next free address. A negative size passes the only check of
`STATIC__malloc` and moves the next free address back into a block that was handed out, or before
the pool. From then on a call of any kind breaks the accounting or overlaps a block, or leaves the
address where it overlaps one. Hence a run is safe when no size is negative, and otherwise it breaks
at the latest when one more byte is allocated (`malloc_safe_of_nonneg`).
-/

set_option autoImplicit false

namespace CComplete.StaticAllocation

open CComplete.Library

/-! ## Safe runs -/

/-- The address `a` is one of the block. -/
def Block.Has (b : Block) (a : ℤ) : Prop := b.address ≤ a ∧ a < b.address + b.size

/-- All blocks lie in the pool, no two of them have an address in common, and the remaining space
and the offset of the next free address are the two parts of the pool. -/
structure Pool.Safe (p : Pool) : Prop where
  inside : ∀ b ∈ p.blocks, 0 ≤ b.address ∧ b.address + b.size ≤ staticPoolSize
  disjoint : p.blocks.Pairwise fun b b' => ∀ a, ¬ (b.Has a ∧ b'.Has a)
  accounted : p.heap.remainingSpace + p.heap.nextFreeSpaceAddress = staticPoolSize
  remaining : 0 ≤ p.heap.remainingSpace ∧ p.heap.remainingSpace ≤ staticPoolSize
  next : 0 ≤ p.heap.nextFreeSpaceAddress ∧ p.heap.nextFreeSpaceAddress ≤ staticPoolSize

/-- The call has a result, it leaves a safe pool, and it changes nothing if it returns `NULL`. -/
def SafeCall (p : Option Pool) (size : Int32) : Prop :=
  ∃ q address q', p = some q ∧ q.malloc size = some (address, q') ∧ q'.Safe ∧
    (address = none → q' = q)

/-- Every call of the run is safe. -/
def SafeRun (sizes : List Int32) : Prop := calls.Guarded SafeCall (some Pool.initial) sizes

variable {p p' : Pool} {size : Int32}

/-! ## One call -/

/-- A call on a heap with the two parts of the pool has three outcomes: none in C, `NULL`, or a
block at the next free address. -/
theorem malloc_cases (haccount : p.heap.remainingSpace + p.heap.nextFreeSpaceAddress =
      staticPoolSize) (size : Int32) :
    p.malloc size = none ∨
      (p.malloc size = some (none, p) ∧
        staticPoolSize < p.heap.nextFreeSpaceAddress + size.toInt) ∨
      (p.heap.nextFreeSpaceAddress + size.toInt ≤ staticPoolSize ∧
        p.malloc size = some (some p.heap.nextFreeSpaceAddress,
          { heap :=
              { nextFreeSpaceAddress := p.heap.nextFreeSpaceAddress + size.toInt
                remainingSpace := p.heap.remainingSpace - size.toInt }
            blocks := p.blocks ++ [⟨p.heap.nextFreeSpaceAddress, size.toInt⟩] })) := by
  rw [Pool.malloc, malloc, subInt]
  split
  · by_cases hneg : p.heap.remainingSpace - size.toInt < 0
    · refine Or.inr (Or.inl ⟨?_, by omega⟩)
      simp [hneg]
    · refine Or.inr (Or.inr ⟨by omega, ?_⟩)
      simp [hneg]
  · exact Or.inl rfl

/-- A size that is not negative has a result. -/
theorem malloc_ne_none (hremaining : 0 ≤ p.heap.remainingSpace ∧
      p.heap.remainingSpace ≤ staticPoolSize) (hsize : 0 ≤ size.toInt) : p.malloc size ≠ none := by
  have hmax := size.toInt_lt
  have hpool : staticPoolSize = 64 := rfl
  rw [Pool.malloc, malloc, subInt, if_pos (by omega)]
  exact Option.some_ne_none _

/-! ## Sizes that are not negative -/

/-- The blocks fill the pool up to the next free address and do not overlap. -/
structure Filled (p : Pool) : Prop where
  accounted : p.heap.remainingSpace + p.heap.nextFreeSpaceAddress = staticPoolSize
  next : 0 ≤ p.heap.nextFreeSpaceAddress ∧ p.heap.nextFreeSpaceAddress ≤ staticPoolSize
  below : ∀ b ∈ p.blocks, 0 ≤ b.address ∧ b.address + b.size ≤ p.heap.nextFreeSpaceAddress
  disjoint : p.blocks.Pairwise fun b b' => ∀ a, ¬ (b.Has a ∧ b'.Has a)
  covered : ∀ a, 0 ≤ a → a < p.heap.nextFreeSpaceAddress → ∃ b ∈ p.blocks, b.Has a

theorem filled_initial : Filled Pool.initial where
  accounted := rfl
  next := by decide
  below := fun _ hb => absurd hb List.not_mem_nil
  disjoint := List.Pairwise.nil
  covered := fun _ hle hlt => absurd hlt (not_lt.2 hle)

theorem Filled.remaining (h : Filled p) :
    0 ≤ p.heap.remainingSpace ∧ p.heap.remainingSpace ≤ staticPoolSize := by
  have haccount := h.accounted
  have hnext := h.next
  omega

theorem Filled.safe (h : Filled p) : p.Safe where
  inside := fun b hb => ⟨(h.below b hb).1, (h.below b hb).2.trans h.next.2⟩
  disjoint := h.disjoint
  accounted := h.accounted
  remaining := h.remaining
  next := h.next

/-- A new block at the next free address, which is moved on by its size. -/
theorem Filled.snoc (h : Filled p) {n : ℤ} (hn : 0 ≤ n)
    (hfits : p.heap.nextFreeSpaceAddress + n ≤ staticPoolSize) :
    Filled
      { heap :=
          { nextFreeSpaceAddress := p.heap.nextFreeSpaceAddress + n
            remainingSpace := p.heap.remainingSpace - n }
        blocks := p.blocks ++ [⟨p.heap.nextFreeSpaceAddress, n⟩] } where
  accounted := by
    have haccount := h.accounted
    show p.heap.remainingSpace - n + (p.heap.nextFreeSpaceAddress + n) = staticPoolSize
    omega
  next := ⟨add_nonneg h.next.1 hn, hfits⟩
  below := by
    intro b hb
    rcases List.mem_append.1 hb with hb | hb
    · exact ⟨(h.below b hb).1, (h.below b hb).2.trans (le_add_of_nonneg_right hn)⟩
    · obtain rfl := List.mem_singleton.1 hb
      exact ⟨h.next.1, le_rfl⟩
  disjoint := by
    refine List.pairwise_append.2 ⟨h.disjoint, List.pairwise_singleton _ _, ?_⟩
    intro b hb b' hb' a hboth
    -- the blocks before end where the new one starts
    obtain rfl := List.mem_singleton.1 hb'
    exact absurd (hboth.1.2.trans_le (h.below b hb).2) (not_lt.2 hboth.2.1)
  covered := by
    intro a hnonneg hlt
    rcases lt_or_ge a p.heap.nextFreeSpaceAddress with hold | hnew
    · obtain ⟨b, hb, ha⟩ := h.covered a hnonneg hold
      exact ⟨b, List.mem_append_left _ hb, ha⟩
    · exact ⟨_, List.mem_append_right _ (List.mem_singleton_self _), hnew, hlt⟩

/-- A call with a size that is not negative is safe and keeps the blocks one after the other. -/
theorem Filled.call (h : Filled p) (hsize : 0 ≤ size.toInt) :
    SafeCall (some p) size ∧ ∃ p', (calls.step (some p) size).1 = some p' ∧ Filled p' := by
  rcases malloc_cases h.accounted size with hnone | ⟨hnull, -⟩ | ⟨hfits, hblock⟩
  · exact absurd hnone (malloc_ne_none h.remaining hsize)
  · refine ⟨⟨p, none, p, rfl, hnull, h.safe, fun _ => rfl⟩, p, ?_, h⟩
    simp [calls, hnull]
  · have hnext := h.snoc hsize hfits
    refine ⟨⟨p, _, _, rfl, hblock, hnext.safe, fun hno => by cases hno⟩, _, ?_, hnext⟩
    simp [calls, hblock]

/-- A run without negative sizes is safe. -/
theorem Filled.guarded (h : Filled p) {sizes : List Int32}
    (hsizes : ∀ size ∈ sizes, 0 ≤ size.toInt) : calls.Guarded SafeCall (some p) sizes := by
  induction sizes generalizing p with
  | nil => exact trivial
  | cons size sizes ih =>
    obtain ⟨hsize, hrest⟩ := List.forall_mem_cons.1 hsizes
    obtain ⟨hcall, p', hstep, hnext⟩ := h.call hsize
    refine ⟨hcall, ?_⟩
    rw [hstep]
    exact ih hnext hrest

/-! ## After a negative size -/

/-- The next free address is one of a block that was handed out. -/
structure Overlapping (p : Pool) : Prop where
  safe : p.Safe
  inBlock : ∀ a, 0 ≤ a → a ≤ p.heap.nextFreeSpaceAddress → ∃ b ∈ p.blocks, b.Has a

/-- A block at an address that is in use breaks the safety of the pool. -/
theorem Overlapping.not_safe_of_pos (h : Overlapping p) {n : ℤ} (hn : 0 < n) (heap : Heap) :
    ¬ Pool.Safe ⟨heap, p.blocks ++ [⟨p.heap.nextFreeSpaceAddress, n⟩]⟩ := by
  intro hsafe
  obtain ⟨b, hb, ha⟩ := h.inBlock _ h.safe.next.1 le_rfl
  obtain ⟨-, -, hdisjoint⟩ := List.pairwise_append.1 hsafe.disjoint
  exact hdisjoint b hb _ (List.mem_singleton_self _) _ ⟨ha, le_rfl, lt_add_of_pos_right _ hn⟩

/-- A safe call leaves the next free address in a block that was handed out. -/
theorem Overlapping.call (h : Overlapping p) (hcall : SafeCall (some p) size) :
    ∃ p', (calls.step (some p) size).1 = some p' ∧ Overlapping p' := by
  obtain ⟨_, address, p', ⟨⟩, hmalloc, hsafe, -⟩ := hcall
  refine ⟨p', by simp [calls, hmalloc], hsafe, ?_⟩
  rcases malloc_cases h.safe.accounted size with hnone | ⟨hnull, -⟩ | ⟨-, hblock⟩
  · rw [hnone] at hmalloc
    cases hmalloc
  · rw [hnull] at hmalloc
    cases hmalloc
    exact h.inBlock
  · rw [hblock] at hmalloc
    cases hmalloc
    have hback : size.toInt ≤ 0 := not_lt.1 fun hpos => h.not_safe_of_pos hpos _ hsafe
    intro a hnonneg hle
    obtain ⟨b, hb, ha⟩ := h.inBlock a hnonneg (hle.trans (add_le_of_nonpos_right hback))
    exact ⟨b, List.mem_append_left _ hb, ha⟩

/-- From such a pool, no run that ends with the allocation of one byte is safe. -/
theorem Overlapping.not_guarded (h : Overlapping p) (sizes : List Int32) :
    ¬ calls.Guarded SafeCall (some p) (sizes ++ [1]) := by
  induction sizes generalizing p with
  | nil =>
    rintro ⟨hcall, -⟩
    obtain ⟨_, address, p', ⟨⟩, hmalloc, hsafe, -⟩ := hcall
    have hone : (1 : Int32).toInt = 1 := by decide
    obtain ⟨b, hb, ha⟩ := h.inBlock _ h.safe.next.1 le_rfl
    have hinside := (h.safe.inside b hb).2
    rcases malloc_cases h.safe.accounted 1 with hnone | ⟨-, hfull⟩ | ⟨-, hblock⟩
    · rw [hnone] at hmalloc
      cases hmalloc
    · -- the byte at the next free address is one of the pool
      rw [hone] at hfull
      have := ha.2
      omega
    · rw [hblock] at hmalloc
      cases hmalloc
      exact h.not_safe_of_pos (by decide) _ hsafe
  | cons size sizes ih =>
    rintro ⟨hcall, hrest⟩
    obtain ⟨p', hstep, hnext⟩ := h.call hcall
    rw [hstep] at hrest
    exact ih hnext hrest

/-- A safe call with a negative size moves the next free address back into a block. -/
theorem Filled.overlapping (h : Filled p) (hsize : size.toInt < 0)
    (hcall : SafeCall (some p) size) :
    ∃ p', (calls.step (some p) size).1 = some p' ∧ Overlapping p' := by
  obtain ⟨_, address, p', ⟨⟩, hmalloc, hsafe, -⟩ := hcall
  refine ⟨p', by simp [calls, hmalloc], hsafe, ?_⟩
  rcases malloc_cases h.accounted size with hnone | ⟨-, hfull⟩ | ⟨-, hblock⟩
  · rw [hnone] at hmalloc
    cases hmalloc
  · have hnext := h.next.2
    omega
  · rw [hblock] at hmalloc
    cases hmalloc
    intro a hnonneg hle
    obtain ⟨b, hb, ha⟩ := h.covered a hnonneg (hle.trans_lt (add_lt_of_neg_right _ hsize))
    exact ⟨b, List.mem_append_left _ hb, ha⟩

theorem Filled.not_guarded (h : Filled p) {sizes : List Int32}
    (hneg : ∃ size ∈ sizes, size.toInt < 0) :
    ¬ calls.Guarded SafeCall (some p) (sizes ++ [1]) := by
  induction sizes generalizing p with
  | nil =>
    obtain ⟨size, hmem, -⟩ := hneg
    exact absurd hmem List.not_mem_nil
  | cons size sizes ih =>
    rintro ⟨hcall, hrest⟩
    rcases lt_or_ge size.toInt 0 with hback | hsize
    · obtain ⟨p', hstep, hnext⟩ := h.overlapping hback hcall
      rw [hstep] at hrest
      exact hnext.not_guarded sizes hrest
    · -- the negative size comes later
      obtain ⟨-, p', hstep, hnext⟩ := h.call hsize
      rw [hstep] at hrest
      obtain ⟨size', hmem, hneg⟩ := hneg
      rcases List.mem_cons.1 hmem with rfl | hmem
      · exact absurd hneg (not_lt.2 hsize)
      · exact ih hnext ⟨size', hmem, hneg⟩ hrest

/-! ## Whole runs -/

/-- A run from the initialized heap is safe if no size is negative. If one is, the run is not safe
any more when one more byte is allocated at its end. -/
theorem malloc_safe_of_nonneg (sizes : List Int32) :
    ((∀ size ∈ sizes, 0 ≤ size.toInt) → SafeRun sizes) ∧
      ((∃ size ∈ sizes, size.toInt < 0) → ¬ SafeRun (sizes ++ [1])) :=
  ⟨fun hsizes => filled_initial.guarded hsizes, fun hneg => filled_initial.not_guarded hneg⟩

/-- The whole pool, as in the test of the module, and then no byte more. -/
theorem malloc_safe_of_nonneg_whole_pool : SafeRun [64, 1] := by
  apply (malloc_safe_of_nonneg [64, 1]).1
  intro size hmem
  rcases List.mem_cons.1 hmem with rfl | hmem
  · decide
  · rw [List.mem_singleton.1 hmem]
    decide

/-- A block of size -1 is handed out from the fresh heap: the next free address is before the
pool. -/
theorem malloc_unsafe_negative : ¬ SafeRun [-1] := by
  rintro ⟨⟨p, address, p', hp, hmalloc, hsafe, -⟩, -⟩
  obtain rfl := Option.some.inj hp
  have hresult : Pool.initial.malloc (-1) = some (some 0, ⟨⟨-1, 65⟩, [⟨0, -1⟩]⟩) := by decide
  rw [hresult] at hmalloc
  obtain ⟨-, rfl⟩ := Prod.mk.inj (Option.some.inj hmalloc)
  exact absurd hsafe.next.1 (by decide)

end CComplete.StaticAllocation
