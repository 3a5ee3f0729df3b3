import CComplete.Library.Bytes

/-!
# Little-endian integers and packed fields

The bytes of a natural number, low byte first, and of a signed 64-bit integer in two's complement.
Both readings are inverse to the writing: a number is read back up to the width, and the bytes are
those of the number that they are read as. A packed record is the concatenation of its fields;
`splitFields` cuts it at their widths.
-/

set_option autoImplicit false

namespace CComplete.Library

/-- The `n` low bytes of a number, low byte first. -/
def leNat : ℕ → ℕ → Bytes
  | 0, _ => []
  | n + 1, x => UInt8.ofNat x :: leNat n (x / 256)

/-- The number with the given bytes, low byte first. -/
def ofLeNat : Bytes → ℕ
  | [] => 0
  | b :: bs => b.toNat + 256 * ofLeNat bs

@[simp] theorem length_leNat (n : ℕ) : ∀ x, (leNat n x).length = n := by
  induction n with
  | zero => exact fun _ => rfl
  | succ n ih => exact fun x => congrArg (· + 1) (ih (x / 256))

theorem ofLeNat_leNat (n : ℕ) : ∀ x, ofLeNat (leNat n x) = x % 256 ^ n := by
  induction n with
  | zero =>
    intro x
    rw [pow_zero, Nat.mod_one]
    rfl
  | succ n ih =>
    intro x
    have hbyte : (UInt8.ofNat x).toNat = x % 256 := UInt8.toNat_ofNat'
    rw [leNat, ofLeNat, ih, hbyte, pow_succ', Nat.mod_mul]

theorem ofLeNat_lt (b : Bytes) : ofLeNat b < 256 ^ b.length := by
  induction b with
  | nil => exact Nat.one_pos
  | cons x b ih =>
    have hx : x.toNat < 256 := x.toNat_lt
    rw [ofLeNat, List.length_cons, pow_succ']
    omega

theorem leNat_ofLeNat (b : Bytes) : leNat b.length (ofLeNat b) = b := by
  induction b with
  | nil => rfl
  | cons x b ih =>
    have hx : x.toNat < 256 := x.toNat_lt
    have hlow : UInt8.ofNat (x.toNat + 256 * ofLeNat b) = x := by
      apply UInt8.toNat_inj.1
      rw [UInt8.toNat_ofNat']
      omega
    have hhigh : (x.toNat + 256 * ofLeNat b) / 256 = ofLeNat b := by omega
    rw [ofLeNat, List.length_cons, leNat, hlow, hhigh, ih]

/-! ## Signed 64-bit integers -/

/-- The image of a `long`: two's complement in eight bytes. -/
def leLong (x : ℤ) : Bytes := leNat 8 (toUnsignedLong x)

/-- The `long` with the given eight bytes. -/
def ofLeLong (b : Bytes) : ℤ :=
  if ofLeNat b < 2 ^ 63 then ofLeNat b else ofLeNat b - 2 ^ 64

@[simp] theorem length_leLong (x : ℤ) : (leLong x).length = 8 := length_leNat 8 _

theorem ofLeLong_leLong {x : ℤ} (hlow : -2 ^ 63 ≤ x) (hhigh : x < 2 ^ 63) :
    ofLeLong (leLong x) = x := by
  have hread : ofLeNat (leLong x) = toUnsignedLong x := by
    rw [leLong, ofLeNat_leNat, Nat.mod_eq_of_lt]
    exact toUnsignedLong_lt x
  rw [ofLeLong, hread, toUnsignedLong]
  split <;> omega

theorem leLong_ofLeLong {b : Bytes} (hb : b.length = 8) : leLong (ofLeLong b) = b := by
  have hlt : ofLeNat b < 256 ^ 8 := hb ▸ ofLeNat_lt b
  have hsame : toUnsignedLong (ofLeLong b) = ofLeNat b := by
    rw [toUnsignedLong, ofLeLong]
    split <;> omega
  rw [leLong, hsame, ← hb]
  exact leNat_ofLeNat b

/-! ## Packed fields -/

/-- The fields of the given widths that a string begins with. -/
def splitFields : List ℕ → Bytes → List Bytes
  | [], _ => []
  | w :: ws, b => b.take w :: splitFields ws (b.drop w)

/-- The fields of a packed record are found again. -/
theorem splitFields_flatten (fields : List Bytes) :
    splitFields (fields.map List.length) fields.flatten = fields := by
  induction fields with
  | nil => rfl
  | cons x fields ih =>
    rw [List.map_cons, List.flatten_cons, splitFields, List.take_left, List.drop_left, ih]

/-- A string of the size of all fields consists of them. -/
theorem flatten_splitFields (ws : List ℕ) :
    ∀ b : Bytes, b.length = ws.sum → (splitFields ws b).flatten = b := by
  induction ws with
  | nil =>
    intro b hb
    exact (List.length_eq_zero_iff.1 hb).symm
  | cons w ws ih =>
    intro b hb
    rw [List.sum_cons] at hb
    have hrest : (b.drop w).length = ws.sum := by
      rw [List.length_drop]
      omega
    rw [splitFields, List.flatten_cons, ih _ hrest, List.take_append_drop]

end CComplete.Library
