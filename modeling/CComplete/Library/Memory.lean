import CComplete.Library.Bytes
import Mathlib.Logic.Function.Basic

/-!
# Byte memory with an access record

A memory maps addresses to bytes and records every address that was read or written. `copyIn` and
`copyOut` are the two directions of `memcpy` between a block of this memory and a caller's buffer,
which is a function from offsets to bytes; `copied` is such a buffer of records after a copy.
`block` is the contents of a block as a list of bytes, and `Codec.Stored` says which record a block
holds.
-/

set_option autoImplicit false

namespace CComplete.Library

/-- The first `n` bytes of a caller's buffer. -/
def bufferBytes (buf : ℕ → UInt8) (n : ℕ) : Bytes := (List.range n).map buf

@[simp] theorem length_bufferBytes (buf : ℕ → UInt8) (n : ℕ) : (bufferBytes buf n).length = n := by
  simp [bufferBytes]

theorem bufferBytes_congr {buf buf' : ℕ → UInt8} {n : ℕ} (h : ∀ i, i < n → buf i = buf' i) :
    bufferBytes buf n = bufferBytes buf' n :=
  List.map_congr_left fun i hi => h i (List.mem_range.1 hi)

/-- A buffer in two parts. -/
theorem bufferBytes_add (buf : ℕ → UInt8) (j k : ℕ) :
    bufferBytes buf (j + k) = bufferBytes buf j ++ bufferBytes (fun i => buf (j + i)) k := by
  rw [bufferBytes, List.range_add, List.map_append, List.map_map]
  rfl

/-- The next byte is put into a buffer. -/
theorem bufferBytes_update (buf : ℕ → UInt8) (n : ℕ) (b : UInt8) :
    bufferBytes (Function.update buf n b) (n + 1) = bufferBytes buf n ++ [b] := by
  have hbefore : bufferBytes (Function.update buf n b) n = bufferBytes buf n :=
    bufferBytes_congr fun i hi => Function.update_of_ne (Nat.ne_of_lt hi) b buf
  rw [bufferBytes_add, hbefore]
  simp [bufferBytes]

/-! ## Buffers of records -/

section Copied

universe u

variable {α : Type u}

/-- A caller's buffer once `xs` was copied to it, from index `i` on. -/
def copied (buf : ℕ → α) (i : ℕ) (xs : List α) : ℕ → α :=
  fun k => if k < i then buf k else xs.getD (k - i) (buf k)

theorem copied_nil (buf : ℕ → α) (i : ℕ) : copied buf i [] = buf := by
  funext k
  simp [copied]

theorem map_copied (buf : ℕ → α) (xs : List α) :
    (List.range xs.length).map (copied buf 0 xs) = xs := by
  apply List.ext_getElem
  · rw [List.length_map, List.length_range]
  · intro i hi hi'
    simp [copied, hi']

theorem copied_cons (buf : ℕ → α) (i : ℕ) (x : α) (xs : List α) :
    copied buf i (x :: xs) = copied (Function.update buf i x) (i + 1) xs := by
  funext k
  -- before index `i`, at it, or in the rest of the list
  rcases Nat.lt_trichotomy k i with hlt | rfl | hgt
  · simp [copied, hlt, Nat.lt_succ_of_lt hlt, Function.update_of_ne (Nat.ne_of_lt hlt)]
  · simp [copied]
  · obtain ⟨j, rfl⟩ := Nat.exists_eq_add_of_lt hgt
    have hsub : i + j + 1 - i = j + 1 := by omega
    have hsub' : i + j + 1 - (i + 1) = j := by omega
    have hne : i + j + 1 ≠ i := by omega
    simp only [copied, hsub, hsub', Function.update_of_ne hne, List.getD_cons_succ]
    rw [if_neg (by omega), if_neg (by omega)]

end Copied

/-! ## Memory -/

/-- Bytes by address, with the addresses read or written so far. -/
structure Memory where
  byte : ℤ → UInt8
  accessed : List ℤ

namespace Memory

/-- The addresses of a block of `n` bytes. -/
def blockAddresses (a : ℤ) (n : ℕ) : List ℤ := (List.range n).map fun i : ℕ => a + (i : ℤ)

theorem mem_blockAddresses {a b : ℤ} {n : ℕ} :
    b ∈ blockAddresses a n ↔ a ≤ b ∧ b < a + n := by
  simp only [blockAddresses, List.mem_map, List.mem_range]
  constructor
  · rintro ⟨i, hi, rfl⟩
    omega
  · intro h
    exact ⟨(b - a).toNat, by omega, by omega⟩

/-- `memcpy` of `n` bytes from a caller's buffer to address `dst`. -/
def copyIn (m : Memory) (dst : ℤ) (src : ℕ → UInt8) (n : ℕ) : Memory where
  byte := fun a => if dst ≤ a ∧ a < dst + n then src (a - dst).toNat else m.byte a
  accessed := m.accessed ++ blockAddresses dst n

/-- `memcpy` of `n` bytes from address `src` to a caller's buffer. -/
def copyOut (m : Memory) (src : ℤ) (dst : ℕ → UInt8) (n : ℕ) : Memory × (ℕ → UInt8) :=
  ({ m with accessed := m.accessed ++ blockAddresses src n },
    fun i => if i < n then m.byte (src + i) else dst i)

/-- Contents of the block of `n` bytes at `a`. -/
def block (m : Memory) (a : ℤ) (n : ℕ) : Bytes := bufferBytes (fun i => m.byte (a + i)) n

theorem block_take (m : Memory) (a : ℤ) {k n : ℕ} (h : k ≤ n) :
    m.block a k = (m.block a n).take k := by
  rw [block, block, bufferBytes, bufferBytes, ← List.map_take, List.take_range,
    Nat.min_eq_left h]

theorem byte_copyIn (m : Memory) (dst : ℤ) (src : ℕ → UInt8) (n : ℕ) (a : ℤ) :
    (m.copyIn dst src n).byte a =
      if dst ≤ a ∧ a < dst + n then src (a - dst).toNat else m.byte a := rfl

@[simp] theorem length_block (m : Memory) (a : ℤ) (n : ℕ) : (m.block a n).length = n :=
  length_bufferBytes _ n

theorem getElem_block (m : Memory) (a : ℤ) (n : ℕ) {i : ℕ} (h : i < (m.block a n).length) :
    (m.block a n)[i] = m.byte (a + i) := by
  simp [block, bufferBytes]

theorem block_congr {m m' : Memory} {a : ℤ} {n : ℕ}
    (h : ∀ i : ℕ, i < n → m.byte (a + i) = m'.byte (a + i)) : m.block a n = m'.block a n :=
  bufferBytes_congr h

/-- A block in two parts. -/
theorem block_add (m : Memory) (a : ℤ) (j k : ℕ) :
    m.block a (j + k) = m.block a j ++ m.block (a + j) k := by
  rw [block, bufferBytes_add, block, block]
  refine congrArg (bufferBytes _ j ++ ·) (bufferBytes_congr fun i _ => ?_)
  rw [Nat.cast_add, add_assoc]

/-- A read from a file that was written from a block. -/
theorem pread_block (m : Memory) (a : ℤ) {n off k : ℕ} (h : off + k ≤ n) :
    pread (m.block a n) off k = m.block (a + off) k := by
  obtain ⟨rest, rfl⟩ := Nat.exists_eq_add_of_le h
  rw [pread, block_add, block_add, List.append_assoc, List.drop_left' (length_block m a off),
    List.take_left' (length_block m _ k)]

theorem block_copyIn (m : Memory) (dst : ℤ) (src : ℕ → UInt8) (n : ℕ) :
    (m.copyIn dst src n).block dst n = bufferBytes src n := by
  apply bufferBytes_congr
  intro i hi
  have hin : dst ≤ dst + (i : ℤ) ∧ dst + (i : ℤ) < dst + n := by omega
  simp [copyIn, hin]

theorem blockAddresses_add (a : ℤ) (j k : ℕ) :
    blockAddresses a (j + k) = blockAddresses a j ++ blockAddresses (a + j) k := by
  rw [blockAddresses, List.range_add, List.map_append, List.map_map]
  refine congrArg (blockAddresses a j ++ ·) (List.map_congr_left fun i _ => ?_)
  rw [Function.comp_apply, Nat.cast_add, add_assoc]

theorem copyIn_zero (m : Memory) (dst : ℤ) (src : ℕ → UInt8) : m.copyIn dst src 0 = m := by
  rw [copyIn, blockAddresses, List.range_zero, List.map_nil, List.append_nil]
  congr 1
  funext a
  rw [if_neg]
  omega

/-- A copy in two parts. -/
theorem copyIn_add (m : Memory) (dst : ℤ) (src : ℕ → UInt8) (j k : ℕ) :
    (m.copyIn dst src j).copyIn (dst + j) (fun i => src (j + i)) k = m.copyIn dst src (j + k) := by
  rw [copyIn, copyIn, copyIn, blockAddresses_add, List.append_assoc]
  congr 1
  funext a
  -- in the second part, in the first one, or in none
  by_cases hsecond : dst + j ≤ a ∧ a < dst + j + k
  · have hboth : dst ≤ a ∧ a < dst + (j + k : ℕ) := by omega
    have hindex : j + (a - (dst + j)).toNat = (a - dst).toNat := by omega
    rw [if_pos hsecond, if_pos hboth, hindex]
  · rw [if_neg hsecond]
    refine if_congr ?_ rfl rfl
    omega

/-- A block keeps its contents under a copy that writes none of its bytes, or only bytes equal to
those it has. -/
theorem block_copyIn_of_agree {m : Memory} {dst a : ℤ} {src : ℕ → UInt8} {n k : ℕ}
    (h : ∀ i, i < n → ∀ j, j < k → dst + (i : ℤ) = a + (j : ℤ) → src i = m.byte (a + j)) :
    (m.copyIn dst src n).block a k = m.block a k := by
  apply bufferBytes_congr
  intro j hj
  -- a byte of the block that the copy writes, or another one
  by_cases hin : dst ≤ a + (j : ℤ) ∧ a + (j : ℤ) < dst + n
  · have := h (a + j - dst).toNat (by omega) j hj (by omega)
    simpa [copyIn, hin] using this
  · simp [copyIn, hin]

theorem block_copyIn_of_disjoint {m : Memory} {dst a : ℤ} {src : ℕ → UInt8} {n k : ℕ}
    (h : dst + n ≤ a ∨ a + k ≤ dst) : (m.copyIn dst src n).block a k = m.block a k :=
  block_copyIn_of_agree fun i hi j hj hij => by omega

theorem copyOut_zero (m : Memory) (src : ℤ) (dst : ℕ → UInt8) : m.copyOut src dst 0 = (m, dst) := by
  simp [copyOut, blockAddresses]

/-- One byte more of a copy to a caller's buffer. -/
theorem copyOut_succ (m : Memory) (src : ℤ) (dst : ℕ → UInt8) (k : ℕ) :
    m.copyOut src dst (k + 1) =
      ({ m with accessed := (m.copyOut src dst k).1.accessed ++ [src + k] },
        Function.update (m.copyOut src dst k).2 k (m.byte (src + k))) := by
  have hlast : blockAddresses (src + k) 1 = [src + k] := by simp [blockAddresses]
  have hbuffer : (m.copyOut src dst (k + 1)).2 =
      Function.update (m.copyOut src dst k).2 k (m.byte (src + k)) := by
    funext i
    rcases Nat.lt_trichotomy i k with hlt | rfl | hgt
    · rw [Function.update_of_ne (Nat.ne_of_lt hlt)]
      exact (if_pos (Nat.lt_succ_of_lt hlt)).trans (if_pos hlt).symm
    · rw [Function.update_self]
      exact if_pos (Nat.lt_succ_self i)
    · rw [Function.update_of_ne (Nat.ne_of_gt hgt)]
      exact (if_neg (Nat.not_lt.2 (Nat.succ_le_of_lt hgt))).trans
        (if_neg (Nat.not_lt_of_gt hgt)).symm
  rw [← hbuffer, copyOut, copyOut, blockAddresses_add, hlast, ← List.append_assoc]

/-- A copy to a caller's buffer delivers the block. -/
theorem bufferBytes_copyOut (m : Memory) (src : ℤ) (dst : ℕ → UInt8) (n : ℕ) :
    bufferBytes (m.copyOut src dst n).2 n = m.block src n := by
  apply bufferBytes_congr
  intro i hi
  simp [copyOut, hi]

end Memory

/-! ## Records in memory -/

namespace Codec

universe u

variable {α : Type u} (c : Codec α)

/-- The memory holds the record `x` at address `a`. -/
def Stored (m : Memory) (a : ℤ) (x : α) : Prop := m.block a c.size = c.encode x

variable {c} {m : Memory} {a : ℤ} {x : α}

theorem Stored.decode_block (h : c.Stored m a x) : c.decode (m.block a c.size) = x := by
  rw [show m.block a c.size = c.encode x from h, c.decode_encode]

theorem Stored.block_prefix (h : c.Stored m a x) {k : ℕ} (hk : k ≤ c.size) :
    m.block a k = (c.encode x).take k := by
  rw [m.block_take a hk, show m.block a c.size = c.encode x from h]

theorem stored_copyIn {src : ℕ → UInt8} (h : bufferBytes src c.size = c.encode x) :
    c.Stored (m.copyIn a src c.size) a x := by
  rw [Stored, Memory.block_copyIn, h]

theorem Stored.copyIn_of_disjoint (h : c.Stored m a x) {dst : ℤ} {src : ℕ → UInt8} {n : ℕ}
    (hd : dst + n ≤ a ∨ a + c.size ≤ dst) : c.Stored (m.copyIn dst src n) a x := by
  rw [Stored, Memory.block_copyIn_of_disjoint hd]
  exact h

/-- The bytes of a record, read as a buffer. -/
theorem bufferBytes_encode (c : Codec α) (x : α) :
    bufferBytes (fun i => (c.encode x).getD i 0) c.size = c.encode x := by
  apply List.ext_getElem
  · rw [length_bufferBytes, c.length_encode]
  · intro i hi hi'
    simp [bufferBytes, hi']

end Codec

end CComplete.Library
