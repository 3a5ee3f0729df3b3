import CComplete.Library.Memory

/-!
# The binary search

Model of `binary_search.c`. Addresses are natural numbers with 0 as the null pointer; indexes and
the byte offsets of `BIN_SEARCH_search` are 32-bit `unsigned int`s. The comparator is a callback:
its answer may depend on how often it was called before. The loop runs on fuel, and there is no
result when the fuel does not suffice.
-/

set_option autoImplicit false

namespace CComplete.BinarySearch

open CComplete.Library

/-- `BIN__T_COMPARATOR_CALLBACK`: the answer to the call number `calls` on two addresses. -/
abbrev ComparatorCallback := (calls : ℕ) → (a b : ℕ) → ℤ

/-- A comparator whose answer depends on the two addresses only. -/
def pureComparator (compare : ℕ → ℕ → ℤ) : ComparatorCallback := fun _ a b => compare a b

/-- The `UINT32_T` at the address `a`. -/
def uint32At (mem : Memory) (a : ℕ) : UInt32 := ofLe32 (mem.block a 4)

/-- `compare_UINT32` in the memory `mem`. -/
def compareUint32 (mem : Memory) (a b : ℕ) : ℤ :=
  if uint32At mem a > uint32At mem b then 1
  else if uint32At mem a < uint32At mem b then -1
  else 0

/-- The local variables of `BIN_SEARCH_search`, with the indexes probed so far. -/
structure Search where
  lowIndex : UInt32
  highIndex : UInt32
  returnAddress : ℕ
  probes : List UInt32
deriving DecidableEq

/-- `mid_index` of the next turn. -/
def Search.midIndex (s : Search) : UInt32 := s.lowIndex + (s.highIndex - s.lowIndex) / 2

/-- `array + (mid_index*elm_size)`. The product is a 32-bit one. -/
def elementAddress (array : ℕ) (elmSize midIndex : UInt32) : ℕ :=
  array + (midIndex * elmSize).toNat

/-- The condition of the loop of `BIN_SEARCH_search`. -/
def Search.running (s : Search) : Bool := s.highIndex > s.lowIndex && s.returnAddress == 0

/-- One turn of the loop of `BIN_SEARCH_search`. -/
def Search.turn (s : Search) (searchItemAddress array : ℕ) (elmSize : UInt32)
    (comparatorCallback : ComparatorCallback) : Search :=
  let midIndex := s.midIndex
  let comparisonResult := comparatorCallback s.probes.length searchItemAddress
    (elementAddress array elmSize midIndex)
  let s := { s with probes := s.probes ++ [midIndex] }
  if comparisonResult < 0 then { s with highIndex := midIndex }
  else if comparisonResult > 0 then { s with lowIndex := midIndex + 1 }
  else { s with returnAddress := elementAddress array elmSize midIndex }

/-- Loop of `BIN_SEARCH_search`, for at most `fuel` turns. -/
def searchLoop (searchItemAddress array : ℕ) (elmSize : UInt32)
    (comparatorCallback : ComparatorCallback) : ℕ → Search → Option Search
  | 0, s => if s.running then none else some s
  | fuel + 1, s =>
      if s.running then
        searchLoop searchItemAddress array elmSize comparatorCallback fuel
          (s.turn searchItemAddress array elmSize comparatorCallback)
      else some s

/-- The local variables of `BIN_SEARCH_search` before its loop. -/
def Search.initial (arraySize : UInt32) : Search := ⟨0, arraySize, 0, []⟩

/-- `BIN_SEARCH_search`, for at most `fuel` turns: the address it returns. -/
def binSearchSearch (fuel searchItemAddress array : ℕ) (arraySize elmSize : UInt32)
    (comparatorCallback : ComparatorCallback) : Option ℕ :=
  (searchLoop searchItemAddress array elmSize comparatorCallback fuel
    (Search.initial arraySize)).map Search.returnAddress

end CComplete.BinarySearch
