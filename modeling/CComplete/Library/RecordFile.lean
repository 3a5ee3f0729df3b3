import CComplete.Library.Bytes

/-!
# Files of whole records

A file that is the images of a list of records, one after the other. A read at the start of a slot
delivers the record of that slot, or nothing past the end; a write of a record at the start of a
slot replaces the record there and fills a gap before it with the record of zeros. So a file that
is only written at the starts of slots stays a file of whole records.
-/

set_option autoImplicit false

namespace CComplete.Library

universe u

variable {α : Type u}

/-- The list with `x` in place of entry `m`, and with `z` in the places missing before it. -/
def putAt (z : α) (m : ℕ) (x : α) (xs : List α) : List α :=
  xs.take m ++ (List.replicate (m - xs.length) z ++ x :: xs.drop (m + 1))

theorem mem_putAt {z x y : α} {m : ℕ} {xs : List α} (h : y ∈ putAt z m x xs) :
    y = z ∨ y = x ∨ y ∈ xs := by
  simp only [putAt, List.mem_append, List.mem_cons] at h
  rcases h with h | h | rfl | h
  · exact Or.inr (Or.inr (List.mem_of_mem_take h))
  · exact Or.inl (List.eq_of_mem_replicate h)
  · exact Or.inr (Or.inl rfl)
  · exact Or.inr (Or.inr (List.mem_of_mem_drop h))

theorem length_putAt (z : α) (m : ℕ) (x : α) (xs : List α) :
    (putAt z m x xs).length = max xs.length (m + 1) := by
  simp only [putAt, List.length_append, List.length_take, List.length_replicate, List.length_cons,
    List.length_drop]
  omega

namespace Codec

variable (c : Codec α)

/-- The file with the records `xs`. -/
def file (xs : List α) : Bytes := xs.flatMap c.encode

@[simp] theorem file_nil : c.file [] = [] := rfl

theorem file_cons (x : α) (xs : List α) : c.file (x :: xs) = c.encode x ++ c.file xs :=
  List.flatMap_cons

theorem file_append (xs ys : List α) : c.file (xs ++ ys) = c.file xs ++ c.file ys :=
  List.flatMap_append

theorem length_file (xs : List α) : (c.file xs).length = c.size * xs.length := by
  induction xs with
  | nil => rfl
  | cons x xs ih =>
    rw [file_cons, List.length_append, c.length_encode, ih, List.length_cons, Nat.mul_succ,
      Nat.add_comm]

/-- The file from the start of a slot on. -/
theorem drop_file (xs : List α) (m : ℕ) : (c.file xs).drop (c.size * m) = c.file (xs.drop m) := by
  rcases Nat.le_total m xs.length with hle | hle
  · have hlen : (c.file (xs.take m)).length = c.size * m := by
      rw [length_file, List.length_take, Nat.min_eq_left hle]
    nth_rewrite 1 [← List.take_append_drop m xs]
    rw [file_append, List.drop_left' hlen]
  · rw [List.drop_eq_nil_of_le hle, List.drop_eq_nil_of_le, file_nil]
    rw [length_file]
    exact Nat.mul_le_mul_left _ hle

/-- The file up to the start of a slot. -/
theorem take_file (xs : List α) (m : ℕ) : (c.file xs).take (c.size * m) = c.file (xs.take m) := by
  rcases Nat.le_total m xs.length with hle | hle
  · have hlen : (c.file (xs.take m)).length = c.size * m := by
      rw [length_file, List.length_take, Nat.min_eq_left hle]
    nth_rewrite 1 [← List.take_append_drop m xs]
    rw [file_append, List.take_left' hlen]
  · rw [List.take_of_length_le hle, List.take_of_length_le]
    rw [length_file]
    exact Nat.mul_le_mul_left _ hle

/-- A read at the start of a slot delivers its record, or nothing past the end of the file. -/
theorem readAt_file (xs : List α) (m : ℕ) (old : α) :
    c.readAt (c.file xs) ((c.size * m : ℕ) : ℤ) old = xs.getD m old := by
  rw [readAt, Int.toNat_natCast, pread, drop_file, List.getD_eq_getElem?_getD]
  rcases Nat.lt_or_ge m xs.length with hlt | hge
  · rw [List.drop_eq_getElem_cons hlt, file_cons, List.take_left' (c.length_encode _),
      overlay_of_length_eq (by rw [c.length_encode, c.length_encode]), c.decode_encode,
      List.getElem?_eq_getElem hlt, Option.getD_some]
  · rw [List.drop_eq_nil_of_le hge, file_nil, List.take_nil, overlay, List.length_nil,
      List.drop_zero, List.nil_append, c.decode_encode, List.getElem?_eq_none hge, Option.getD_none]

theorem file_replicate {z : α} (hz : c.encode z = List.replicate c.size 0) (n : ℕ) :
    c.file (List.replicate n z) = List.replicate (c.size * n) 0 := by
  induction n with
  | zero => rfl
  | succ n ih =>
    rw [List.replicate_succ, file_cons, ih, hz, List.replicate_append_replicate, Nat.mul_succ,
      Nat.add_comm]

/-- A write at the start of a slot puts the record there. -/
theorem writeAt_file {z : α} (hz : c.encode z = List.replicate c.size 0) (xs : List α) (m : ℕ)
    (x : α) : c.writeAt (c.file xs) ((c.size * m : ℕ) : ℤ) x = c.file (putAt z m x xs) := by
  have hend : c.size * m + c.size = c.size * (m + 1) := (Nat.mul_succ _ _).symm
  rw [writeAt, Int.toNat_natCast, pwrite, if_neg (c.encode_ne_nil x), c.length_encode, hend,
    take_file, drop_file, length_file, ← Nat.mul_sub, ← c.file_replicate hz, putAt, file_append,
    file_append, file_cons, List.append_assoc, List.append_assoc]

end Codec

end CComplete.Library
