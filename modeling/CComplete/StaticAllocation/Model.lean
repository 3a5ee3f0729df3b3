import CComplete.Library.Machine
import Mathlib.Algebra.Order.Ring.Int

/-!
# The static allocator

Model of `static_allocation.c`. Addresses are offsets from the start of `G_STATIC_pool`, sizes are
32-bit `int`s, and the remaining space is the value of an `int`. The one subtraction is a signed
one: C gives it no result when it overflows.
-/

set_option autoImplicit false

namespace CComplete.StaticAllocation

open CComplete.Library

/-- `C_STATIC_POOL_SIZE`. -/
def staticPoolSize : ℤ := 64

/-- `G_STATIC_next_free_space_address` and `G_STATIC_remaining_space`. -/
structure Heap where
  nextFreeSpaceAddress : ℤ
  remainingSpace : ℤ
deriving DecidableEq

/-- The heap after `STATIC__init_heap`. -/
def initHeap : Heap := ⟨0, staticPoolSize⟩

/-- A signed 32-bit subtraction, without result when it overflows. -/
def subInt (a b : ℤ) : Option ℤ :=
  if -2 ^ 31 ≤ a - b ∧ a - b < 2 ^ 31 then some (a - b) else none

/-- `STATIC__malloc`: the address, if it is not `NULL`, and the heap. -/
def malloc (h : Heap) (size : Int32) : Option (Option ℤ × Heap) :=
  (subInt h.remainingSpace size.toInt).map fun rest =>
    if rest < 0 then (none, h)
    else
      -- a negative size moves the address back
      (some h.nextFreeSpaceAddress, ⟨h.nextFreeSpaceAddress + size.toInt, rest⟩)

/-! ## Runs -/

/-- The `size` bytes from `address` on. -/
structure Block where
  address : ℤ
  size : ℤ
deriving DecidableEq

/-- A heap with the blocks handed out so far. -/
structure Pool where
  heap : Heap
  blocks : List Block
deriving DecidableEq

/-- The pool before the first call. -/
def Pool.initial : Pool := ⟨initHeap, []⟩

/-- A call on the pool: the address and the pool. -/
def Pool.malloc (p : Pool) (size : Int32) : Option (Option ℤ × Pool) :=
  (StaticAllocation.malloc p.heap size).map fun r =>
    (r.1, ⟨r.2, p.blocks ++ (r.1.map fun address => ⟨address, size.toInt⟩).toList⟩)

/-- The calls of `STATIC__malloc`. After a call without result in C, there is no pool. -/
def calls : Machine (Option Pool) Int32 (Option ℤ) where
  step p size :=
    match p.bind fun p => p.malloc size with
    | some (address, p') => (some p', address)
    | none => (none, none)

end CComplete.StaticAllocation
