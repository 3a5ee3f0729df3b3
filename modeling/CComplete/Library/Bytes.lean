import Mathlib.Data.List.Basic
import Mathlib.Data.UInt

/-!
# Byte files and record layouts

`pread` and `pwrite` are the reads and writes of a C stream at a position set by `fseek`: a read
past the end of the file is short, a write past the end first fills the gap with zeros. A `Codec`
lays a record out as a fixed number of bytes and carries the proof that the layout can be read
back. `Codec.Holds c f a x` says that the file `f` has the whole image of `x` at position `a`; a
write of another record that does not overlap it keeps it.

The module also has the two conversions of C integer arithmetic that wrap: to `unsigned int` and
to `unsigned long`.
-/

set_option autoImplicit false

namespace CComplete.Library

/-- Contents of a file or of a block of memory. -/
abbrev Bytes := List UInt8

/-- Conversion of an integer to the 32-bit `unsigned int`. -/
def toUnsignedInt (x : ℤ) : ℕ := (x % 2 ^ 32).toNat

/-- Conversion of an integer to the 64-bit `unsigned long`. -/
def toUnsignedLong (x : ℤ) : ℕ := (x % 2 ^ 64).toNat

theorem toUnsignedInt_of_lt {n : ℕ} (h : n < 2 ^ 32) : toUnsignedInt n = n := by
  unfold toUnsignedInt
  omega

theorem toUnsignedLong_of_lt {n : ℕ} (h : n < 2 ^ 64) : toUnsignedLong n = n := by
  unfold toUnsignedLong
  omega

theorem toUnsignedLong_of_neg {x : ℤ} (hneg : x < 0) (hle : -2 ^ 64 ≤ x) :
    toUnsignedLong x = (x + 2 ^ 64).toNat := by
  rw [toUnsignedLong, ← Int.add_emod_right, Int.emod_eq_of_lt (by omega) (by omega)]

theorem toUnsignedInt_lt (x : ℤ) : toUnsignedInt x < 2 ^ 32 := by
  unfold toUnsignedInt
  omega

theorem toUnsignedLong_lt (x : ℤ) : toUnsignedLong x < 2 ^ 64 := by
  unfold toUnsignedLong
  omega

theorem toUnsignedInt_le (n : ℕ) : toUnsignedInt n ≤ n := by
  unfold toUnsignedInt
  omega

theorem toUnsignedLong_le (n : ℕ) : toUnsignedLong n ≤ n := by
  unfold toUnsignedLong
  omega

/-! ## Reads and writes at a position -/

/-- The at most `n` bytes of `f` from position `off` on. -/
def pread (f : Bytes) (off n : ℕ) : Bytes := (f.drop off).take n

/-- `f` with the bytes `d` written at position `off`. Writing no byte changes nothing; a gap
between the end of the file and `off` is filled with zeros. -/
def pwrite (f : Bytes) (off : ℕ) (d : Bytes) : Bytes :=
  if d = [] then f
  else f.take off ++ List.replicate (off - f.length) 0 ++ d ++ f.drop (off + d.length)

/-- The bytes of a buffer holding `old` after a read that delivered `d`. -/
def overlay (d old : Bytes) : Bytes := d ++ old.drop d.length

@[simp] theorem overlay_of_length_eq {d old : Bytes} (h : d.length = old.length) :
    overlay d old = d := by
  simp [overlay, h]

/-- A read that delivers the beginning of what the buffer holds changes nothing. -/
theorem overlay_take (b : Bytes) (k : ℕ) : overlay (b.take k) b = b := by
  have hdrop : b.drop (b.take k).length = b.drop k := by
    rw [List.length_take]
    rcases Nat.le_total k b.length with hle | hle
    · rw [Nat.min_eq_left hle]
    · rw [Nat.min_eq_right hle, List.drop_eq_nil_of_le hle, List.drop_eq_nil_of_le le_rfl]
  rw [overlay, hdrop, List.take_append_drop]

theorem length_overlay (d old : Bytes) : (overlay d old).length = max d.length old.length := by
  rw [overlay, List.length_append, List.length_drop]
  omega

/-- The bytes that a read delivered, from number `j` on. -/
theorem take_drop_overlay (d old : Bytes) {j n : ℕ} (h : j + n = d.length) :
    ((overlay d old).drop j).take n = d.drop j := by
  have hj : j ≤ d.length := by omega
  have hn : (d.drop j).length = n := by
    rw [List.length_drop]
    omega
  rw [overlay, List.drop_append_of_le_length hj, List.take_left' hn]

theorem length_pread (f : Bytes) (off n : ℕ) : (pread f off n).length = min n (f.length - off) := by
  simp [pread]

theorem pread_take (f : Bytes) (off : ℕ) {m n : ℕ} (h : m ≤ n) :
    pread f off m = (pread f off n).take m := by
  rw [pread, pread, List.take_take, Nat.min_eq_left h]

/-- A read in two parts. -/
theorem pread_add (f : Bytes) (off m n : ℕ) :
    pread f off (m + n) = pread f off m ++ pread f (off + m) n := by
  rw [pread, pread, pread, List.take_add, List.drop_drop]

theorem getElem?_pread (f : Bytes) (off n i : ℕ) :
    (pread f off n)[i]? = if i < n then f[off + i]? else none := by
  simp [pread, List.getElem?_take]

theorem getElem?_pwrite (f : Bytes) (off : ℕ) {d : Bytes} (hd : d ≠ []) (i : ℕ) :
    (pwrite f off d)[i]? =
      if i < off then (if i < f.length then f[i]? else some 0)
      else if i < off + d.length then d[i - off]? else f[i]? := by
  have hlen : (f.take off ++ List.replicate (off - f.length) (0 : UInt8)).length = off := by
    simp only [List.length_append, List.length_take, List.length_replicate]
    omega
  rw [pwrite, if_neg hd, List.append_assoc, List.getElem?_append, hlen]
  by_cases hi : i < off
  -- before the write: a byte of the file or of the gap
  · rw [if_pos hi, if_pos hi, List.getElem?_append, List.length_take]
    by_cases hf : i < f.length
    · rw [if_pos (by omega), if_pos hf, List.getElem?_take_of_lt hi]
    · rw [if_neg (by omega), if_neg hf, List.getElem?_replicate, if_pos (by omega)]
  -- a written byte, or a byte after the write
  · rw [if_neg hi, if_neg hi, List.getElem?_append]
    by_cases hd' : i < off + d.length
    · rw [if_pos (by omega), if_pos hd']
    · rw [if_neg (by omega), if_neg hd', List.getElem?_drop]
      congr 1
      omega

theorem length_pwrite (f : Bytes) (off : ℕ) {d : Bytes} (hd : d ≠ []) :
    (pwrite f off d).length = max f.length (off + d.length) := by
  rw [pwrite, if_neg hd]
  simp only [List.length_append, List.length_take, List.length_replicate, List.length_drop]
  omega

/-- What was written is read back. -/
theorem pread_pwrite (f : Bytes) (off : ℕ) (d : Bytes) :
    pread (pwrite f off d) off d.length = d := by
  by_cases hd : d = []
  · simp [hd, pread]
  · apply List.ext_getElem?
    intro i
    rw [getElem?_pread, getElem?_pwrite f off hd]
    by_cases hi : i < d.length
    · rw [if_pos hi, if_neg (by omega), if_pos (by omega)]
      congr 1
      omega
    · rw [if_neg hi, List.getElem?_eq_none (by omega)]

/-- A write keeps the bytes of the file that it does not overlap. -/
theorem pread_pwrite_of_disjoint {f : Bytes} {off off' n : ℕ} {d : Bytes}
    (hn : off + n ≤ f.length) (h : off + n ≤ off' ∨ off' + d.length ≤ off) :
    pread (pwrite f off' d) off n = pread f off n := by
  by_cases hd : d = []
  · simp [hd, pwrite]
  · apply List.ext_getElem?
    intro i
    rw [getElem?_pread, getElem?_pread]
    by_cases hi : i < n
    · rw [if_pos hi, if_pos hi, getElem?_pwrite f off' hd]
      rcases h with h | h
      · rw [if_pos (by omega), if_pos (by omega)]
      · rw [if_neg (by omega), if_neg (by omega)]
    · rw [if_neg hi, if_neg hi]

/-- A write into an empty file fills the bytes before it with zeros. -/
theorem pread_pwrite_nil {off off' n : ℕ} {d : Bytes} (hd : d ≠ []) (h : off + n ≤ off') :
    pread (pwrite [] off' d) off n = List.replicate n 0 := by
  apply List.ext_getElem?
  intro i
  rw [getElem?_pread, List.getElem?_replicate]
  by_cases hi : i < n
  · rw [if_pos hi, if_pos hi, getElem?_pwrite [] off' hd, if_pos (by omega), if_neg (by simp)]
  · rw [if_neg hi, if_neg hi]

theorem pread_eq_nil {f : Bytes} {off : ℕ} (h : f.length ≤ off) (n : ℕ) : pread f off n = [] := by
  rw [pread, List.drop_eq_nil_of_le h, List.take_nil]

/-! ## Record layouts -/

universe u

/-- A layout of records of type `α` as `size` bytes that can be read back. -/
structure Codec (α : Type u) where
  size : ℕ
  encode : α → Bytes
  decode : Bytes → α
  size_pos : 0 < size
  length_encode : ∀ x, (encode x).length = size
  decode_encode : ∀ x, decode (encode x) = x

namespace Codec

variable {α : Type u} (c : Codec α)

/-- The record a buffer holding `old` contains after `fread` of one record at position `a`. -/
def readAt (f : Bytes) (a : ℤ) (old : α) : α :=
  c.decode (overlay (pread f a.toNat c.size) (c.encode old))

/-- The file with the record `x` written at position `a`. -/
def writeAt (f : Bytes) (a : ℤ) (x : α) : Bytes := pwrite f a.toNat (c.encode x)

/-- The record at position `a`, if the file has all its bytes. -/
def read? (f : Bytes) (a : ℤ) : Option α :=
  if (pread f a.toNat c.size).length = c.size then some (c.decode (pread f a.toNat c.size)) else none

/-- The file has the whole image of `x` at position `a`. -/
def Holds (f : Bytes) (a : ℤ) (x : α) : Prop := pread f a.toNat c.size = c.encode x

theorem encode_ne_nil (x : α) : c.encode x ≠ [] := by
  intro h
  have := c.length_encode x
  rw [h] at this
  exact absurd this.symm c.size_pos.ne'

variable {c} {f : Bytes} {a b : ℤ} {x : α}

theorem Holds.le_length (h : c.Holds f a x) : a.toNat + c.size ≤ f.length := by
  have hlen := congrArg List.length h
  rw [length_pread, c.length_encode] at hlen
  have := c.size_pos
  omega

theorem Holds.readAt_eq (h : c.Holds f a x) (old : α) : c.readAt f a old = x := by
  have hlen : (c.encode x).length = (c.encode old).length := by
    rw [c.length_encode, c.length_encode]
  rw [readAt, h, overlay_of_length_eq hlen, c.decode_encode]

theorem Holds.read?_eq (h : c.Holds f a x) : c.read? f a = some x := by
  rw [read?, h, if_pos (c.length_encode x), c.decode_encode]

theorem holds_writeAt (f : Bytes) (a : ℤ) (x : α) : c.Holds (c.writeAt f a x) a x := by
  have h := pread_pwrite f a.toNat (c.encode x)
  rwa [c.length_encode] at h

/-- A record that another write does not overlap stays. -/
theorem Holds.writeAt_of_disjoint (h : c.Holds f a x) (ha : 0 ≤ a) (hb : 0 ≤ b)
    (hab : a + c.size ≤ b ∨ b + c.size ≤ a) (y : α) : c.Holds (c.writeAt f b y) a x := by
  have hdis : a.toNat + c.size ≤ b.toNat ∨ b.toNat + (c.encode y).length ≤ a.toNat := by
    rw [c.length_encode]
    omega
  rw [Holds, writeAt, pread_pwrite_of_disjoint h.le_length hdis]
  exact h

/-- In an empty file, a write leaves the record of zeros in the slots before it. -/
theorem holds_writeAt_nil {z : α} (hz : c.encode z = List.replicate c.size 0) (ha : 0 ≤ a)
    (hab : a + c.size ≤ b) (y : α) : c.Holds (c.writeAt [] b y) a z := by
  rw [Holds, hz, writeAt, pread_pwrite_nil (c.encode_ne_nil y) (by omega)]

/-- In an empty file, a write leaves no record in the slots after it. -/
theorem read?_writeAt_nil (hb : 0 ≤ b) (hab : b + c.size ≤ a) (y : α) :
    c.read? (c.writeAt [] b y) a = none := by
  -- the new file ends with the record just written
  have hlen : (c.writeAt [] b y).length ≤ a.toNat := by
    rw [writeAt, length_pwrite _ _ (c.encode_ne_nil y), c.length_encode, List.length_nil]
    omega
  rw [read?, pread_eq_nil hlen, if_neg]
  exact fun h0 => absurd h0.symm c.size_pos.ne'

end Codec

/-! ## Little-endian 32-bit words -/

/-- The four bytes of a 32-bit word, low byte first. -/
def le32 (x : UInt32) : Bytes :=
  [UInt8.ofNat x.toNat, UInt8.ofNat (x.toNat / 2 ^ 8), UInt8.ofNat (x.toNat / 2 ^ 16),
    UInt8.ofNat (x.toNat / 2 ^ 24)]

/-- The 32-bit word with the given bytes, low byte first. -/
def ofLe32 : Bytes → UInt32
  | b₀ :: b₁ :: b₂ :: b₃ :: _ =>
      UInt32.ofNat (b₀.toNat + 2 ^ 8 * b₁.toNat + 2 ^ 16 * b₂.toNat + 2 ^ 24 * b₃.toNat)
  | _ => 0

@[simp] theorem length_le32 (x : UInt32) : (le32 x).length = 4 := rfl

theorem ofLe32_le32_append (x : UInt32) (rest : Bytes) : ofLe32 (le32 x ++ rest) = x := by
  -- a number below 2 ^ 32 is the sum of its four digits to the base 256
  have hx := x.toNat_lt
  apply UInt32.toNat_inj.1
  simp only [le32, List.cons_append, List.nil_append, ofLe32, UInt8.toNat_ofNat',
    UInt32.toNat_ofNat']
  omega

/-- Layout of an `unsigned int`. -/
def wordCodec : Codec UInt32 where
  size := 4
  encode := le32
  decode := ofLe32
  size_pos := by decide
  length_encode := length_le32
  decode_encode x := by
    have h := ofLe32_le32_append x []
    rwa [List.append_nil] at h

end CComplete.Library
