import CComplete.StaticAllocation.Safety

/-!
# Initialization of the static allocator

`STATIC__malloc` works on whatever its two statics hold. At the start of a process the remaining
space is already the whole pool, but the next free address is `NULL`; and every `STATIC__init_heap`
gives the whole pool away once more. As before an address is a number, `NULL` plus an offset too.
Whether the blocks of a run can be used together depends on where its calls of `STATIC__init_heap`
stand: they can if and only if the pool is requested within one initialization
(`handed_out_sound_iff`).
-/

set_option autoImplicit false

namespace CComplete.StaticAllocation

open CComplete.Library

/-! ## Calls in any order -/

/-- A call of the allocator. -/
inductive Call where
  | initHeap
  | malloc (size : Int32)
deriving DecidableEq

/-- The number of bytes that the call asks for. -/
def Call.size : Call → ℤ
  | .initHeap => 0
  | .malloc size => size.toInt

/-- The statics of a process with the pool at `poolAddress`: the next free address is `NULL`. -/
def heapAtStart (poolAddress : ℕ) : Heap := ⟨-poolAddress, staticPoolSize⟩

/-- The process before its first call. -/
def Pool.atStart (poolAddress : ℕ) : Pool := ⟨heapAtStart poolAddress, []⟩

/-- A call in a process with the pool at `poolAddress`. An address that is `NULL` is no block for
the caller; the blocks that were handed out before an `STATIC__init_heap` stay with their
callers. -/
def Pool.call (poolAddress : ℕ) (p : Pool) : Call → Option (Option ℤ × Pool)
  | .initHeap => some (none, ⟨initHeap, p.blocks⟩)
  | .malloc size =>
      (StaticAllocation.malloc p.heap size).map fun r =>
        let address := r.1.filter (· ≠ -poolAddress)
        (address, ⟨r.2, p.blocks ++ (address.map fun address => ⟨address, size.toInt⟩).toList⟩)

/-- The calls of the allocator. After a call without result in C, there is no pool. -/
def allCalls (poolAddress : ℕ) : Machine (Option Pool) Call (Option ℤ) where
  step p c :=
    match p.bind fun p => p.call poolAddress c with
    | some (address, p') => (some p', address)
    | none => (none, none)

/-- Every byte of a block is one of the pool and of no other block. -/
structure Sound (blocks : List Block) : Prop where
  inside : ∀ b ∈ blocks, ∀ a, b.Has a → 0 ≤ a ∧ a < staticPoolSize
  disjoint : blocks.Pairwise fun b b' => ∀ a, ¬ (b.Has a ∧ b'.Has a)

/-! ## The condition on the calls -/

/-- The call asks for bytes that a pool with all its space has. -/
def Call.Requests (c : Call) : Prop := 0 < c.size ∧ c.size ≤ staticPoolSize

instance (c : Call) : Decidable c.Requests := inferInstanceAs (Decidable (_ ∧ _))

/-- The calls before the first `STATIC__init_heap`. -/
def beforeInit (cs : List Call) : List Call := cs.takeWhile (· ≠ .initHeap)

/-- The calls from the first `STATIC__init_heap` on. -/
def fromInit (cs : List Call) : List Call := cs.dropWhile (· ≠ .initHeap)

/-- The calls from the first request on. -/
def fromRequest (cs : List Call) : List Call := cs.dropWhile fun c => ¬ c.Requests

/-- No later size fits into what the first request leaves. -/
def OneFits (cs : List Call) : Prop :=
  ∀ c ∈ (fromRequest cs).head?, ∀ c' ∈ (fromRequest cs).tail,
    0 < c'.size → staticPoolSize < c.size + c'.size

/-- Before the first `STATIC__init_heap` only one size fits, and after the first request that
follows it, the pool is not requested again once it is initialized again. -/
def RequestedOnce (cs : List Call) : Prop :=
  OneFits (beforeInit cs) ∧ ∀ c ∈ fromInit (fromRequest (fromInit cs)), ¬ c.Requests

instance (cs : List Call) : Decidable (RequestedOnce cs) :=
  inferInstanceAs (Decidable ((∀ _ ∈ _, ∀ _ ∈ _, _) ∧ ∀ _ ∈ _, _))

/-! ## Phases of the pool -/

/-- Who has the pool: nobody yet, with `charged` bytes taken off for a caller that got `NULL`; the
callers since an `STATIC__init_heap`, if there are any; still callers from before the last one; or
there are blocks that cannot be used together. -/
inductive Phase where
  | uninitialized (charged : ℤ)
  | initialized (used : Bool)
  | reinitialized
  | broken
deriving DecidableEq

/-- The phase after a call. -/
def Phase.next : Phase → Call → Phase
  | .uninitialized _, .initHeap => .initialized false
  | .uninitialized charged, .malloc size =>
      if 0 < size.toInt ∧ charged + size.toInt ≤ staticPoolSize then
        -- the first one gets `NULL`, the next one an address near it
        if charged = 0 then .uninitialized size.toInt else .broken
      else .uninitialized charged
  | .initialized used, .initHeap => if used then .reinitialized else .initialized false
  | .initialized used, c => .initialized (used || c.Requests)
  | .reinitialized, c => if c.Requests then .broken else .reinitialized
  | .broken, _ => .broken

/-- The phases of a run. -/
def phases : Machine Phase Call Unit where
  step phase c := (phase.next c, ())

variable {poolAddress : ℕ} {p : Pool} {size : Int32} {blocks : List Block} {cs : List Call}

/-! ## Blocks in use -/

/-- The blocks that have a byte. -/
def inUse (blocks : List Block) : List Block := blocks.filter fun b => 0 < b.size

theorem inUse_append (blocks blocks' : List Block) :
    inUse (blocks ++ blocks') = inUse blocks ++ inUse blocks' := List.filter_append _ _

theorem inUse_singleton_of_pos {b : Block} (h : 0 < b.size) : inUse [b] = [b] :=
  List.filter_cons_of_pos (decide_eq_true h)

theorem inUse_singleton_of_nonpos {b : Block} (h : b.size ≤ 0) : inUse [b] = [] :=
  List.filter_cons_of_neg (mt of_decide_eq_true (not_lt.2 h))

theorem Block.Has.pos {b : Block} {a : ℤ} (h : b.Has a) : 0 < b.size :=
  pos_of_lt_add_right (h.1.trans_lt h.2)

/-- Blocks without a byte do not matter. -/
theorem sound_inUse : Sound (inUse blocks) ↔ Sound blocks := by
  have hpos : ∀ {b : Block} {a : ℤ}, b.Has a → decide (0 < b.size) = true :=
    fun ha => decide_eq_true ha.pos
  constructor
  · intro h
    refine ⟨fun b hb a ha => h.inside b (List.mem_filter.2 ⟨hb, hpos ha⟩) a ha, ?_⟩
    refine (List.pairwise_filter.1 h.disjoint).imp ?_
    intro b b' hdisjoint a hboth
    exact hdisjoint (hpos hboth.1) (hpos hboth.2) a hboth
  · intro h
    exact ⟨fun b hb => h.inside b (List.mem_filter.1 hb).1, h.disjoint.filter _⟩

theorem Sound.of_append {blocks' : List Block} (h : Sound (blocks ++ blocks')) : Sound blocks where
  inside := fun b hb => h.inside b (List.mem_append_left _ hb)
  disjoint := (List.pairwise_append.1 h.disjoint).1

theorem Filled.sound (h : Filled p) : Sound p.blocks where
  inside := by
    intro b hb a ha
    obtain ⟨hlow, hhigh⟩ := h.below b hb
    exact ⟨hlow.trans ha.1, ha.2.trans_le (hhigh.trans h.next.2)⟩
  disjoint := h.disjoint

/-! ## One call -/

/-- The call of `STATIC__malloc` either leaves everything as it is or takes the size off the heap;
the caller then has a block if its address is not `NULL`. -/
theorem step_malloc_cases (poolAddress : ℕ)
    (hremaining : 0 ≤ p.heap.remainingSpace ∧ p.heap.remainingSpace ≤ staticPoolSize)
    (hsize : 0 ≤ size.toInt) :
    (p.heap.remainingSpace < size.toInt ∧
        ((allCalls poolAddress).step (some p) (.malloc size)).1 = some p) ∨
      (size.toInt ≤ p.heap.remainingSpace ∧
        ((allCalls poolAddress).step (some p) (.malloc size)).1 = some
          { heap :=
              { nextFreeSpaceAddress := p.heap.nextFreeSpaceAddress + size.toInt
                remainingSpace := p.heap.remainingSpace - size.toInt }
            blocks := p.blocks ++
              if p.heap.nextFreeSpaceAddress = -poolAddress then []
              else [⟨p.heap.nextFreeSpaceAddress, size.toInt⟩] }) := by
  have hmax := size.toInt_lt
  have hpool : staticPoolSize = 64 := rfl
  have hsub : subInt p.heap.remainingSpace size.toInt =
      some (p.heap.remainingSpace - size.toInt) := if_pos (by omega)
  rcases lt_or_ge p.heap.remainingSpace size.toInt with hfull | hfits
  · have hmalloc : malloc p.heap size = some (none, p.heap) := by
      rw [malloc, hsub, Option.map_some, if_pos (by omega)]
    refine Or.inl ⟨hfull, ?_⟩
    simp [allCalls, Pool.call, hmalloc]
  · have hmalloc : malloc p.heap size = some (some p.heap.nextFreeSpaceAddress,
        ⟨p.heap.nextFreeSpaceAddress + size.toInt, p.heap.remainingSpace - size.toInt⟩) := by
      rw [malloc, hsub, Option.map_some, if_neg (by omega)]
    refine Or.inr ⟨hfits, ?_⟩
    by_cases hnull : p.heap.nextFreeSpaceAddress = -poolAddress
    · simp [allCalls, Pool.call, hmalloc, hnull]
    · simp [allCalls, Pool.call, hmalloc, hnull]

/-! ## The phase that the pool is in -/

/-- What holds of the process in the phase. -/
def Phase.Describes (poolAddress : ℕ) : Phase → Pool → Prop
  | .uninitialized charged, p =>
      p.heap = ⟨-poolAddress + charged, staticPoolSize - charged⟩ ∧
        (0 ≤ charged ∧ charged ≤ staticPoolSize) ∧ inUse p.blocks = []
  | .initialized used, p =>
      Filled ⟨p.heap, inUse p.blocks⟩ ∧ (used = true ↔ 0 < p.heap.nextFreeSpaceAddress)
  | .reinitialized, p => p.heap = initHeap ∧ Sound p.blocks ∧ ∃ b ∈ p.blocks, b.Has 0
  | .broken, p =>
      (0 ≤ p.heap.remainingSpace ∧ p.heap.remainingSpace ≤ staticPoolSize) ∧ ¬ Sound p.blocks

theorem sound_nil : Sound [] where
  inside := fun _ hb => absurd hb List.not_mem_nil
  disjoint := List.Pairwise.nil

theorem Phase.Describes.sound_iff {phase : Phase} (h : phase.Describes poolAddress p) :
    Sound p.blocks ↔ phase ≠ .broken := by
  cases phase with
  | uninitialized charged =>
    refine iff_of_true (sound_inUse.1 ?_) nofun
    rw [h.2.2]
    exact sound_nil
  | initialized used => exact iff_of_true (sound_inUse.1 h.1.sound) nofun
  | reinitialized => exact iff_of_true h.2.1 nofun
  | broken => exact iff_of_false h.2 fun hne => hne rfl

theorem Filled.inUse_snoc (h : Filled ⟨p.heap, inUse p.blocks⟩) {n : ℤ} (hn : 0 ≤ n)
    (hfits : p.heap.nextFreeSpaceAddress + n ≤ staticPoolSize) :
    Filled
      { heap :=
          { nextFreeSpaceAddress := p.heap.nextFreeSpaceAddress + n
            remainingSpace := p.heap.remainingSpace - n }
        blocks := inUse (p.blocks ++ [⟨p.heap.nextFreeSpaceAddress, n⟩]) } := by
  rw [inUse_append]
  rcases hn.lt_or_eq with hpos | rfl
  · rw [inUse_singleton_of_pos hpos]
    exact h.snoc hn hfits
  · rw [inUse_singleton_of_nonpos le_rfl, List.append_nil, add_zero, sub_zero]
    exact h

/-- A block without a byte, or none, does not change what is in use. -/
theorem inUse_append_ite_of_nonpos {q : Prop} [Decidable q] {b : Block} (h : b.size ≤ 0) :
    inUse (blocks ++ if q then [] else [b]) = inUse blocks := by
  rw [inUse_append]
  split
  · exact List.append_nil _
  · rw [inUse_singleton_of_nonpos h, List.append_nil]

/-- Before the first `STATIC__init_heap`, one caller gets `NULL` for its bytes, and the next one an
address that is not in the pool. -/
theorem describes_uninitialized_malloc (hpool : staticPoolSize ≤ poolAddress) {charged : ℤ}
    (h : (Phase.uninitialized charged).Describes poolAddress p) (hsize : 0 ≤ size.toInt) :
    ∃ p', ((allCalls poolAddress).step (some p) (.malloc size)).1 = some p' ∧
      ((Phase.uninitialized charged).next (.malloc size)).Describes poolAddress p' := by
  obtain ⟨hheap, hcharged, hunused⟩ := h
  have haddress : p.heap.nextFreeSpaceAddress = -poolAddress + charged := congrArg _ hheap
  have hspace : p.heap.remainingSpace = staticPoolSize - charged := congrArg _ hheap
  have hremaining : 0 ≤ p.heap.remainingSpace ∧ p.heap.remainingSpace ≤ staticPoolSize := by omega
  rcases step_malloc_cases poolAddress hremaining hsize with ⟨hfull, hstep⟩ | ⟨hfits, hstep⟩
  · refine ⟨p, hstep, ?_⟩
    rw [Phase.next, if_neg (by omega)]
    exact ⟨hheap, hcharged, hunused⟩
  · refine ⟨_, hstep, ?_⟩
    rw [Phase.next, haddress, hspace]
    rcases hsize.lt_or_eq with hpos | hzero
    · rw [if_pos ⟨hpos, by omega⟩]
      by_cases hfirst : charged = 0
      · subst hfirst
        rw [if_pos rfl, if_pos (add_zero _), List.append_nil, add_zero, sub_zero]
        exact ⟨rfl, ⟨hsize, by omega⟩, hunused⟩
      · rw [if_neg hfirst, if_neg (by omega)]
        refine ⟨⟨by dsimp only; omega, by dsimp only; omega⟩, fun hsound => ?_⟩
        have hinside := hsound.inside _ (List.mem_append_right _ (List.mem_singleton_self _)) _
          ⟨le_rfl, lt_add_of_pos_right _ hpos⟩
        dsimp only at hinside
        omega
    · rw [← hzero, if_neg (fun hno => lt_irrefl _ hno.1), add_zero, sub_zero]
      exact ⟨rfl, hcharged, (inUse_append_ite_of_nonpos le_rfl).trans hunused⟩

/-- After an `STATIC__init_heap` the blocks fill the pool from its start. -/
theorem describes_initialized_malloc (hpool : staticPoolSize ≤ poolAddress) {used : Bool}
    (h : (Phase.initialized used).Describes poolAddress p) (hsize : 0 ≤ size.toInt) :
    ∃ p', ((allCalls poolAddress).step (some p) (.malloc size)).1 = some p' ∧
      ((Phase.initialized used).next (.malloc size)).Describes poolAddress p' := by
  obtain ⟨hfilled, hused⟩ := h
  have hpos : 0 < staticPoolSize := by decide
  have hnext := hfilled.next
  have haccount := hfilled.accounted
  have hrequests : (Call.malloc size).Requests ↔ 0 < size.toInt ∧ size.toInt ≤ staticPoolSize :=
    Iff.rfl
  dsimp only at hnext haccount
  rcases step_malloc_cases (p := p) poolAddress hfilled.remaining hsize with
    ⟨hfull, hstep⟩ | ⟨hfits, hstep⟩
  · refine ⟨p, hstep, hfilled, ?_⟩
    -- only a size above the whole pool is refused by a pool without blocks
    rw [Bool.or_eq_true, decide_eq_true_eq, hused, hrequests]
    omega
  · refine ⟨_, hstep, ?_⟩
    rw [if_neg (by omega)]
    refine ⟨hfilled.inUse_snoc hsize (by omega), ?_⟩
    rw [Bool.or_eq_true, decide_eq_true_eq, hused, hrequests]
    dsimp only
    omega

/-- A second `STATIC__init_heap` leaves the blocks, if there are any, with their callers. -/
theorem describes_initialized_initHeap {used : Bool}
    (h : (Phase.initialized used).Describes poolAddress p) :
    ((Phase.initialized used).next .initHeap).Describes poolAddress ⟨initHeap, p.blocks⟩ := by
  obtain ⟨hfilled, hused⟩ := h
  cases used with
  | true =>
    obtain ⟨b, hb, hzero⟩ := hfilled.covered 0 le_rfl (hused.1 rfl)
    exact ⟨rfl, sound_inUse.1 hfilled.sound, b, (List.mem_filter.1 hb).1, hzero⟩
  | false =>
    have hempty : ¬ 0 < p.heap.nextFreeSpaceAddress := fun hpos => nomatch hused.2 hpos
    have hnone : inUse p.blocks = [] := by
      refine List.eq_nil_iff_forall_not_mem.2 fun b hb => ?_
      have hsize : 0 < b.size := of_decide_eq_true (List.mem_filter.1 hb).2
      have hbelow := hfilled.below b hb
      dsimp only at hbelow
      omega
    refine ⟨?_, iff_of_false nofun (lt_irrefl _)⟩
    rw [hnone]
    exact filled_initial

/-- While the start of the pool is in use from before, the first request is given it again. -/
theorem describes_reinitialized_malloc (hpool : staticPoolSize ≤ poolAddress)
    (h : Phase.reinitialized.Describes poolAddress p) (hsize : 0 ≤ size.toInt) :
    ∃ p', ((allCalls poolAddress).step (some p) (.malloc size)).1 = some p' ∧
      (Phase.reinitialized.next (.malloc size)).Describes poolAddress p' := by
  obtain ⟨hheap, hsound, b, hb, hzero⟩ := h
  have hpos : 0 < staticPoolSize := by decide
  have haddress : p.heap.nextFreeSpaceAddress = 0 := congrArg _ hheap
  have hspace : p.heap.remainingSpace = staticPoolSize := congrArg _ hheap
  have hremaining : 0 ≤ p.heap.remainingSpace ∧ p.heap.remainingSpace ≤ staticPoolSize := by omega
  rcases step_malloc_cases poolAddress hremaining hsize with ⟨hfull, hstep⟩ | ⟨hfits, hstep⟩
  · refine ⟨p, hstep, ?_⟩
    rw [Phase.next, if_neg fun hrequests => absurd hrequests.2 (by rw [Call.size]; omega)]
    exact ⟨hheap, hsound, b, hb, hzero⟩
  · refine ⟨_, hstep, ?_⟩
    rw [haddress, hspace, if_neg (by omega)]
    rcases hsize.lt_or_eq with hbyte | hnone
    · rw [Phase.next, if_pos ⟨hbyte, hspace ▸ hfits⟩]
      refine ⟨⟨by dsimp only; omega, by dsimp only; omega⟩, fun hboth => ?_⟩
      obtain ⟨-, -, hdisjoint⟩ := List.pairwise_append.1 hboth.disjoint
      exact hdisjoint b hb _ (List.mem_singleton_self _) 0
        ⟨hzero, le_rfl, hbyte.trans_eq (zero_add _).symm⟩
    · rw [Phase.next, if_neg fun hrequests => absurd hrequests.1 (by rw [Call.size]; omega)]
      rw [← hnone]
      refine ⟨rfl, sound_inUse.1 ?_, b, List.mem_append_left _ hb, hzero⟩
      rw [inUse_append, inUse_singleton_of_nonpos le_rfl, List.append_nil]
      exact sound_inUse.2 hsound

/-- Blocks that cannot be used together stay so. -/
theorem describes_broken_malloc (h : Phase.broken.Describes poolAddress p)
    (hsize : 0 ≤ size.toInt) :
    ∃ p', ((allCalls poolAddress).step (some p) (.malloc size)).1 = some p' ∧
      Phase.broken.Describes poolAddress p' := by
  obtain ⟨hremaining, hbroken⟩ := h
  rcases step_malloc_cases poolAddress hremaining hsize with ⟨-, hstep⟩ | ⟨hfits, hstep⟩
  · exact ⟨p, hstep, hremaining, hbroken⟩
  · refine ⟨_, hstep, ⟨by dsimp only; omega, by dsimp only; omega⟩, fun hsound => ?_⟩
    exact hbroken hsound.of_append

/-- A call leads to the next phase. -/
theorem Phase.Describes.step (hpool : staticPoolSize ≤ poolAddress) {phase : Phase}
    (h : phase.Describes poolAddress p) {c : Call} (hsize : 0 ≤ c.size) :
    ∃ p', ((allCalls poolAddress).step (some p) c).1 = some p' ∧
      (phase.next c).Describes poolAddress p' := by
  cases c with
  | initHeap =>
    refine ⟨⟨initHeap, p.blocks⟩, rfl, ?_⟩
    cases phase with
    | uninitialized charged =>
      refine ⟨?_, iff_of_false nofun (lt_irrefl _)⟩
      rw [h.2.2]
      exact filled_initial
    | initialized used => exact describes_initialized_initHeap h
    | reinitialized => exact ⟨rfl, h.2⟩
    | broken => exact ⟨filled_initial.remaining, h.2⟩
  | malloc size =>
    cases phase with
    | uninitialized charged => exact describes_uninitialized_malloc hpool h hsize
    | initialized used => exact describes_initialized_malloc hpool h hsize
    | reinitialized => exact describes_reinitialized_malloc hpool h hsize
    | broken => exact describes_broken_malloc h hsize

/-- The phases simulate the calls that ask for no negative size. -/
def phaseSimulation (hpool : staticPoolSize ≤ poolAddress) :
    Simulation (allCalls poolAddress) phases fun _ c => 0 ≤ c.size where
  rel p phase := ∃ q, p = some q ∧ phase.Describes poolAddress q
  input := id
  output _ := ()
  rel_step := by
    rintro _ phase c ⟨p, rfl, h⟩ hsize
    exact h.step hpool hsize
  output_step _ _ _ _ _ := rfl

/-! ## The runs without a broken phase -/

theorem not_requests_initHeap : ¬ Call.initHeap.Requests := fun h => lt_irrefl _ h.1

theorem fromInit_initHeap (cs : List Call) : fromInit (.initHeap :: cs) = .initHeap :: cs := rfl

theorem fromInit_malloc (size : Int32) (cs : List Call) :
    fromInit (.malloc size :: cs) = fromInit cs := rfl

theorem beforeInit_malloc (size : Int32) (cs : List Call) :
    beforeInit (.malloc size :: cs) = .malloc size :: beforeInit cs := rfl

theorem fromRequest_of_requests {c : Call} (h : c.Requests) (cs : List Call) :
    fromRequest (c :: cs) = c :: cs :=
  List.dropWhile_cons_of_neg fun hno => of_decide_eq_true hno h

theorem fromRequest_of_not_requests {c : Call} (h : ¬ c.Requests) (cs : List Call) :
    fromRequest (c :: cs) = fromRequest cs := List.dropWhile_cons_of_pos (decide_eq_true h)

theorem phases_cons (phase : Phase) (c : Call) (cs : List Call) :
    phases.after phase (c :: cs) = phases.after (phase.next c) cs := rfl

theorem phases_broken (cs : List Call) : phases.after .broken cs = .broken := by
  induction cs with
  | nil => rfl
  | cons c cs ih => exact ih

theorem phases_reinitialized_iff :
    phases.after .reinitialized cs ≠ .broken ↔ ∀ c ∈ cs, ¬ c.Requests := by
  induction cs with
  | nil => exact iff_of_true nofun (List.forall_mem_nil _)
  | cons c cs ih =>
    rw [List.forall_mem_cons, phases_cons, Phase.next]
    split
    · rename_i hrequests
      exact iff_of_false (not_not.2 (phases_broken cs)) fun hno => hno.1 hrequests
    · rename_i hno
      rw [ih, and_iff_right hno]

theorem phases_used_iff :
    phases.after (.initialized true) cs ≠ .broken ↔ ∀ c ∈ fromInit cs, ¬ c.Requests := by
  induction cs with
  | nil => exact iff_of_true nofun (List.forall_mem_nil _)
  | cons c cs ih =>
    cases c with
    | initHeap =>
      rw [fromInit_initHeap, List.forall_mem_cons, and_iff_right not_requests_initHeap]
      exact phases_reinitialized_iff
    | malloc size => exact ih

theorem phases_unused_iff :
    phases.after (.initialized false) cs ≠ .broken ↔
      ∀ c ∈ fromInit (fromRequest cs), ¬ c.Requests := by
  induction cs with
  | nil => exact iff_of_true nofun (List.forall_mem_nil _)
  | cons c cs ih =>
    cases c with
    | initHeap =>
      rw [fromRequest_of_not_requests not_requests_initHeap]
      exact ih
    | malloc size =>
      by_cases hrequests : (Call.malloc size).Requests
      · rw [phases_cons, Phase.next, decide_eq_true hrequests, Bool.or_true,
          fromRequest_of_requests hrequests, fromInit_malloc]
        · exact phases_used_iff
        · nofun
      · rw [phases_cons, Phase.next, decide_eq_false hrequests, Bool.or_false,
          fromRequest_of_not_requests hrequests]
        · exact ih
        · nofun

/-- After a first caller got `NULL` for `charged` bytes. -/
theorem phases_charged_iff {charged : ℤ} (hcharged : charged ≠ 0) :
    phases.after (.uninitialized charged) cs ≠ .broken ↔
      (∀ c ∈ beforeInit cs, 0 < c.size → staticPoolSize < charged + c.size) ∧
        ∀ c ∈ fromInit (fromRequest (fromInit cs)), ¬ c.Requests := by
  induction cs with
  | nil =>
    exact iff_of_true nofun ⟨List.forall_mem_nil _, List.forall_mem_nil _⟩
  | cons c cs ih =>
    cases c with
    | initHeap =>
      rw [fromInit_initHeap, fromRequest_of_not_requests not_requests_initHeap]
      exact phases_unused_iff.trans (and_iff_right (List.forall_mem_nil _)).symm
    | malloc size =>
      rw [beforeInit_malloc, List.forall_mem_cons, fromInit_malloc, phases_cons, Phase.next,
        if_neg hcharged]
      split
      · rename_i hfits
        exact iff_of_false (not_not.2 (phases_broken cs)) fun hno =>
          absurd (hno.1.1 hfits.1) (not_lt.2 hfits.2)
      · rename_i hno
        have hfull : 0 < (Call.malloc size).size →
            staticPoolSize < charged + (Call.malloc size).size :=
          fun hpos => not_le.1 fun hle => hno ⟨hpos, hle⟩
        rw [ih, and_iff_right hfull]

theorem phases_iff :
    phases.after (.uninitialized 0) cs ≠ .broken ↔ RequestedOnce cs := by
  induction cs with
  | nil => exact iff_of_true nofun (by decide)
  | cons c cs ih =>
    cases c with
    | initHeap =>
      rw [RequestedOnce, fromInit_initHeap, fromRequest_of_not_requests not_requests_initHeap]
      exact phases_unused_iff.trans (and_iff_right fun c hc => nomatch hc).symm
    | malloc size =>
      rw [RequestedOnce, beforeInit_malloc, fromInit_malloc, OneFits, phases_cons, Phase.next,
        zero_add, if_pos rfl]
      have hsize : (Call.malloc size).Requests ↔ 0 < size.toInt ∧ size.toInt ≤ staticPoolSize :=
        Iff.rfl
      by_cases hrequests : (Call.malloc size).Requests
      · rw [fromRequest_of_requests hrequests, if_pos (hsize.1 hrequests),
          phases_charged_iff (hsize.1 hrequests).1.ne', List.head?_cons, List.tail_cons]
        refine and_congr_left fun _ => ⟨fun hfull c hc => ?_, fun hfull => hfull _ rfl⟩
        obtain rfl := Option.mem_some_iff.1 hc
        exact hfull
      · rw [fromRequest_of_not_requests hrequests, if_neg (mt hsize.2 hrequests), ih]
        rfl

/-- Whatever the calls of the two functions in a process, if no size is negative: every call has a
result, and every byte handed out is one of the pool that no other caller has, if and only if the
pool is requested within one initialization. -/
theorem handed_out_sound_iff (poolAddress : ℕ) (hpool : staticPoolSize ≤ poolAddress)
    (cs : List Call) (hcs : ∀ c ∈ cs, 0 ≤ c.size) :
    ∃ p, (allCalls poolAddress).after (some (Pool.atStart poolAddress)) cs = some p ∧
      (Sound p.blocks ↔ RequestedOnce cs) := by
  have hguard := (allCalls poolAddress).guarded_of_forall
    (some (Pool.atStart poolAddress)) hcs
  obtain ⟨p, hp, h⟩ := (phaseSimulation hpool).rel_after (t := .uninitialized 0)
    ⟨_, rfl, by rw [add_zero, sub_zero]; rfl, ⟨le_rfl, by decide⟩, rfl⟩ cs hguard
  have hinput : (phaseSimulation hpool).input = id := rfl
  rw [hinput, List.map_id] at h
  exact ⟨p, hp, h.sound_iff.trans phases_iff⟩

/-- A pool that is requested before it is initialized, and again after it is. -/
theorem handed_out_sound_iff_null_first :
    ∃ p, (allCalls 4096).after (some (Pool.atStart 4096))
        [.malloc 40, .malloc 30, .initHeap, .malloc 64] = some p ∧ Sound p.blocks := by
  obtain ⟨p, hp, hsound⟩ := handed_out_sound_iff 4096 (by decide)
    [.malloc 40, .malloc 30, .initHeap, .malloc 64] (by decide)
  exact ⟨p, hp, hsound.2 (by decide)⟩

end CComplete.StaticAllocation
