import Mathlib.Algebra.Order.Group.Int
import Mathlib.Data.Int.ModEq
import Mathlib.Tactic.Linarith
import Mathlib.Tactic.Ring

/-!
# Rings of equally spaced slots

A ring is a block of `slots` records, `stride` address units apart, that a cursor walks with
wrap-around from the last slot to the first. Slot number `i` may be any natural number: it stands
for the slot `i % slots`, so a run of consecutive slots is a run of consecutive numbers also where
it crosses the wrap. `Segment P o xs` says that the slots from number `o` on hold the list `xs`,
and `Visits step stop a k` that a walk from `a` to `stop` passes `k` places, both ends among them.
-/

set_option autoImplicit false

namespace CComplete.Library

universe u

/-! ## Walks -/

/-- The walk that goes on by `step` until it is at `stop` passes so many places, the first one and
the last one among them. -/
inductive Visits {α : Type u} (step : α → α) (stop : α) : α → ℕ → Prop
  | arrived : Visits step stop stop 1
  | onward {a : α} {k : ℕ} :
      a ≠ stop → Visits step stop (step a) k → Visits step stop a (k + 1)

/-- A walk has one length. -/
theorem Visits.unique {α : Type u} {step : α → α} {stop a : α} {k l : ℕ}
    (hk : Visits step stop a k) (hl : Visits step stop a l) : k = l := by
  induction hk generalizing l with
  | arrived =>
    cases hl with
    | arrived => rfl
    | onward hne _ => exact absurd rfl hne
  | onward hne _ ih =>
    cases hl with
    | arrived => exact absurd rfl hne
    | onward _ hrest => rw [ih hrest]

/-! ## The ring -/

/-- A ring of `slots` records at the addresses `base`, `base + stride`, and so on. -/
structure Ring where
  base : ℤ
  stride : ℤ
  slots : ℕ
  stride_pos : 0 < stride
  slots_pos : 0 < slots

namespace Ring

variable (r : Ring)

/-- Address of the slot number `i`, counted with wrap-around. -/
def addr (i : ℕ) : ℤ := r.base + r.stride * ((i % r.slots : ℕ) : ℤ)

/-- Address of the last slot. -/
def last : ℤ := r.base + r.stride * ((r.slots : ℤ) - 1)

/-- The cursor one slot on, from the last slot to the first. -/
def next (a : ℤ) : ℤ := if a + r.stride > r.last then r.base else a + r.stride

/-- The cursor one slot back, from the first slot to the last. -/
def prev (a : ℤ) : ℤ := if a - r.stride < r.base then r.last else a - r.stride

theorem mod_slots_lt (i : ℕ) : i % r.slots < r.slots := Nat.mod_lt i r.slots_pos

theorem mod_add_one (i : ℕ) :
    (i % r.slots + 1 < r.slots ∧ (i + 1) % r.slots = i % r.slots + 1) ∨
      (i % r.slots + 1 = r.slots ∧ (i + 1) % r.slots = 0) := by
  have hlt := r.mod_slots_lt i
  have hmod : (i + 1) % r.slots = (i % r.slots + 1) % r.slots := by
    rw [Nat.mod_add_mod]
  rcases Nat.lt_or_eq_of_le (Nat.succ_le_of_lt hlt) with h | h
  · exact Or.inl ⟨h, hmod.trans (Nat.mod_eq_of_lt h)⟩
  · have h' : i % r.slots + 1 = r.slots := h
    refine Or.inr ⟨h', ?_⟩
    rw [hmod, h', Nat.mod_self]

theorem addr_of_lt {i : ℕ} (h : i < r.slots) : r.addr i = r.base + r.stride * (i : ℤ) := by
  rw [addr, Nat.mod_eq_of_lt h]

@[simp] theorem addr_zero : r.addr 0 = r.base := by
  simp [addr]

@[simp] theorem addr_add_slots (i : ℕ) : r.addr (i + r.slots) = r.addr i := by
  simp [addr]

@[simp] theorem addr_mod (i : ℕ) : r.addr (i % r.slots) = r.addr i := by
  simp [addr]

theorem addr_mod_add (o i : ℕ) : r.addr (o % r.slots + i) = r.addr (o + i) := by
  simp [addr]

theorem base_le_addr (i : ℕ) : r.base ≤ r.addr i := by
  have h : 0 ≤ r.stride * ((i % r.slots : ℕ) : ℤ) :=
    mul_nonneg r.stride_pos.le (Int.natCast_nonneg _)
  rw [addr]
  omega

theorem addr_le_last (i : ℕ) : r.addr i ≤ r.last := by
  have hlt : ((i % r.slots : ℕ) : ℤ) ≤ (r.slots : ℤ) - 1 := by
    have := r.mod_slots_lt i
    omega
  have := mul_le_mul_of_nonneg_left hlt r.stride_pos.le
  rw [addr, last]
  omega

theorem addr_lt_iff (i j : ℕ) : r.addr i < r.addr j ↔ i % r.slots < j % r.slots := by
  rw [addr, addr, add_lt_add_iff_left, mul_lt_mul_iff_right₀ r.stride_pos]
  exact Int.ofNat_lt

theorem addr_le_iff (i j : ℕ) : r.addr i ≤ r.addr j ↔ i % r.slots ≤ j % r.slots := by
  rw [← not_lt, addr_lt_iff, not_lt]

theorem addr_inj (i j : ℕ) : r.addr i = r.addr j ↔ i % r.slots = j % r.slots := by
  rw [le_antisymm_iff, addr_le_iff, addr_le_iff, le_antisymm_iff]

theorem addr_inj_of_lt {i j : ℕ} (hi : i < r.slots) (hj : j < r.slots) :
    r.addr i = r.addr j ↔ i = j := by
  rw [addr_inj, Nat.mod_eq_of_lt hi, Nat.mod_eq_of_lt hj]

theorem addr_eq_base_iff (i : ℕ) : r.addr i = r.base ↔ i % r.slots = 0 := by
  rw [← r.addr_zero, addr_inj, Nat.zero_mod]

theorem addr_eq_last_iff (i : ℕ) : r.addr i = r.last ↔ i % r.slots = r.slots - 1 := by
  have hpos := r.slots_pos
  have hmod : (r.slots - 1) % r.slots = r.slots - 1 := Nat.mod_eq_of_lt (Nat.sub_one_lt_of_lt hpos)
  have hlast : r.addr (r.slots - 1) = r.last := by
    rw [addr, last, hmod, Nat.cast_pred hpos]
  rw [← hlast, addr_inj, hmod]

/-- Two different slots are at least one record apart. -/
theorem addr_disjoint {i j : ℕ} (h : i % r.slots ≠ j % r.slots) :
    r.addr i + r.stride ≤ r.addr j ∨ r.addr j + r.stride ≤ r.addr i := by
  have step : ∀ {m n : ℕ}, m < n →
      r.base + r.stride * (m : ℤ) + r.stride ≤ r.base + r.stride * (n : ℤ) := by
    intro m n hmn
    have hmn' : (m : ℤ) + 1 ≤ (n : ℤ) := by omega
    have := mul_le_mul_of_nonneg_left hmn' r.stride_pos.le
    linarith
  rcases Nat.lt_or_gt_of_ne h with h | h
  · exact Or.inl (step h)
  · exact Or.inr (step h)

/-- Slot numbers less than one turn apart are different slots. -/
theorem mod_ne_of_lt {o i j : ℕ} (hij : i ≠ j) (hi : i < r.slots) (hj : j < r.slots) :
    (o + i) % r.slots ≠ (o + j) % r.slots := by
  intro h
  have : i ≡ j [MOD r.slots] := Nat.ModEq.add_left_cancel' o h
  rw [Nat.ModEq, Nat.mod_eq_of_lt hi, Nat.mod_eq_of_lt hj] at this
  exact hij this

/-- Slots less than one turn apart are at least one record apart. -/
theorem addr_add_disjoint (o : ℕ) {i j : ℕ} (hij : i ≠ j) (hi : i < r.slots) (hj : j < r.slots) :
    r.addr (o + i) + r.stride ≤ r.addr (o + j) ∨ r.addr (o + j) + r.stride ≤ r.addr (o + i) :=
  r.addr_disjoint (r.mod_ne_of_lt hij hi hj)

/-- Counted from any slot `o` on, one turn reaches every slot. -/
theorem exists_addr_add_eq (o i : ℕ) : ∃ j, j < r.slots ∧ r.addr (o + j) = r.addr i := by
  have hlt := r.mod_slots_lt o
  -- back from `o` to the first slot, then on to `i`
  refine ⟨(i + (r.slots - o % r.slots)) % r.slots, r.mod_slots_lt _, ?_⟩
  rw [addr_inj, Nat.add_mod_mod]
  have hsum : o + (i + (r.slots - o % r.slots)) = i + r.slots * (o / r.slots + 1) := by
    have hdiv := Nat.mod_add_div o r.slots
    rw [Nat.mul_add, Nat.mul_one]
    omega
  rw [hsum, Nat.add_mul_mod_self_left]

/-- Slot numbers `d` apart, with `d` less than one turn: the later one is `d` slots on, or it is
past the wrap and below the earlier one. -/
theorem mod_add_cases (i : ℕ) {d : ℕ} (hd : d < r.slots) :
    (i % r.slots + d < r.slots ∧ (i + d) % r.slots = i % r.slots + d) ∨
      (r.slots ≤ i % r.slots + d ∧ (i + d) % r.slots + r.slots = i % r.slots + d) := by
  have hmod : (i + d) % r.slots = (i % r.slots + d) % r.slots := by
    rw [Nat.mod_add_mod]
  have hi := r.mod_slots_lt i
  rcases Nat.lt_or_ge (i % r.slots + d) r.slots with h | h
  · exact Or.inl ⟨h, hmod.trans (Nat.mod_eq_of_lt h)⟩
  · refine Or.inr ⟨h, ?_⟩
    rw [hmod, Nat.mod_eq_sub_mod h, Nat.mod_eq_of_lt (by omega)]
    omega

theorem addr_sub_addr (i j : ℕ) :
    r.addr j - r.addr i = r.stride * ((j % r.slots : ℕ) - (i % r.slots : ℕ) : ℤ) := by
  rw [addr, addr]
  ring

/-- The way from slot number `i` to slot number `i + d`, less than one turn: straight on, or to the
last slot and on from the first, which leaves out the step from the last slot to the first. -/
theorem addr_add_cases (i : ℕ) {d : ℕ} (hd : d < r.slots) :
    (r.addr i ≤ r.addr (i + d) ∧ r.addr (i + d) - r.addr i = r.stride * (d : ℤ)) ∨
      (r.addr (i + d) < r.addr i ∧
        (r.last - r.addr i) + (r.addr (i + d) - r.base) = r.stride * ((d : ℤ) - 1)) := by
  rcases r.mod_add_cases i hd with ⟨-, hmod⟩ | ⟨hge, hmod⟩
  · refine Or.inl ⟨(r.addr_le_iff _ _).2 (by omega), ?_⟩
    rw [addr_sub_addr, hmod, Nat.cast_add, add_sub_cancel_left]
  · refine Or.inr ⟨(r.addr_lt_iff _ _).2 (by omega), ?_⟩
    have hslot : (((i + d) % r.slots : ℕ) : ℤ) = ((i % r.slots : ℕ) : ℤ) + d - r.slots := by
      omega
    rw [last, addr, addr, hslot]
    ring

@[simp] theorem next_addr (i : ℕ) : r.next (r.addr i) = r.addr (i + 1) := by
  have hs := r.stride_pos
  -- not the last slot, or the last one
  rcases r.mod_add_one i with ⟨h, hm⟩ | ⟨h, hm⟩
  · have hle : ((i % r.slots : ℕ) : ℤ) + 1 ≤ (r.slots : ℤ) - 1 := by omega
    have := mul_le_mul_of_nonneg_left hle hs.le
    rw [next, if_neg (by rw [addr, last]; linarith), addr, addr, hm]
    push_cast
    ring
  · have heq : (r.slots : ℤ) - 1 = ((i % r.slots : ℕ) : ℤ) := by omega
    rw [next, if_pos (by rw [addr, last, heq]; omega), addr, hm]
    simp

@[simp] theorem prev_addr_succ (i : ℕ) : r.prev (r.addr (i + 1)) = r.addr i := by
  have hs := r.stride_pos
  rcases r.mod_add_one i with ⟨h, hm⟩ | ⟨h, hm⟩
  · have hnn : 0 ≤ r.stride * ((i % r.slots : ℕ) : ℤ) :=
      mul_nonneg hs.le (Int.natCast_nonneg _)
    have heq : r.addr (i + 1) - r.stride = r.addr i := by
      rw [addr, addr, hm]
      push_cast
      ring
    rw [prev, heq, if_neg (not_lt.2 (r.base_le_addr i))]
  · have heq : (r.slots : ℤ) - 1 = ((i % r.slots : ℕ) : ℤ) := by omega
    rw [prev, addr, hm, if_pos (by simp [hs]), last, heq, addr]

/-- The cursor passes `d + 1` slots on its way to the slot `d` further on. -/
theorem visits_addr {d : ℕ} :
    ∀ i, d < r.slots → Visits r.next (r.addr (i + d)) (r.addr i) (d + 1) := by
  induction d with
  | zero => exact fun i _ => Visits.arrived
  | succ d ih =>
    intro i hd
    -- not there yet: the two slots are less than one turn apart
    have hne : r.addr i ≠ r.addr (i + (d + 1)) := by
      rw [Ne, addr_inj]
      exact r.mod_ne_of_lt (Nat.succ_ne_zero d).symm r.slots_pos hd
    have hrest := ih (i + 1) (Nat.lt_of_succ_lt hd)
    rw [Nat.add_assoc, Nat.add_comm 1 d, ← r.next_addr i] at hrest
    exact Visits.onward hne hrest

/-! ## The exclusive end -/

/-- Address just after the last slot. -/
def limit : ℤ := r.base + r.stride * (r.slots : ℤ)

theorem addr_add_stride_le_limit (i : ℕ) : r.addr i + r.stride ≤ r.limit := by
  have h := r.addr_le_last i
  rw [last, mul_sub, mul_one] at h
  rw [limit]
  omega

/-- A cursor that wraps when it reaches the exclusive end moves like `next`. -/
theorem wrap_at_limit (i : ℕ) :
    (if r.addr i + r.stride ≥ r.limit then r.base else r.addr i + r.stride) = r.addr (i + 1) := by
  rw [← next_addr, next]
  have hlast : r.last = r.limit - r.stride := by
    rw [last, limit]
    ring
  rcases lt_or_ge r.last (r.addr i + r.stride) with h | h
  · -- beyond the last slot by a whole record, so at the end
    have hnext : r.addr (i + 1) = r.base := by
      rw [← next_addr, next, if_pos h]
    have hi : i % r.slots + 1 = r.slots := by
      rcases r.mod_add_one i with ⟨hlt, hm⟩ | ⟨he, -⟩
      · rw [addr, hm, Nat.cast_add, Nat.cast_one] at hnext
        have := mul_pos r.stride_pos (show (0 : ℤ) < ((i % r.slots : ℕ) : ℤ) + 1 by omega)
        omega
      · exact he
    have hlim : r.addr i + r.stride = r.limit := by
      have hslots : (r.slots : ℤ) = ((i % r.slots : ℕ) : ℤ) + 1 := by omega
      rw [addr, limit, hslots]
      ring
    rw [if_pos (le_of_eq hlim.symm), if_pos h]
  · -- the next slot is still in the ring, so the end is at least a record further
    rw [if_neg (not_lt.2 h), if_neg]
    have := r.stride_pos
    omega

/-! ## Segments -/

section Segment

variable {α : Type u}

/-- The slots from number `o` on hold the entries of `xs`, in order. -/
def Segment (P : ℤ → α → Prop) (o : ℕ) (xs : List α) : Prop :=
  ∀ i (h : i < xs.length), P (r.addr (o + i)) xs[i]

variable {r}
variable {P Q : ℤ → α → Prop} {o : ℕ} {xs : List α}

theorem segment_nil : r.Segment P o [] := fun _ h => absurd h (Nat.not_lt_zero _)

/-- A change of the memory that keeps the held slots keeps the segment. -/
theorem Segment.mono (h : r.Segment P o xs)
    (hPQ : ∀ i, i < xs.length → ∀ a, P (r.addr (o + i)) a → Q (r.addr (o + i)) a) :
    r.Segment Q o xs :=
  fun i hi => hPQ i hi _ (h i hi)

/-- One more slot at the end. -/
theorem Segment.snoc (h : r.Segment P o xs) {x : α} (hx : P (r.addr (o + xs.length)) x) :
    r.Segment P o (xs ++ [x]) := by
  intro i hi
  -- an entry held before, or the new one
  rcases Nat.lt_or_ge i xs.length with hlt | hge
  · rw [List.getElem_append_left hlt]
    exact h i hlt
  · have hie : i = xs.length := by
      simp only [List.length_append, List.length_singleton] at hi
      omega
    subst hie
    simpa using hx

/-- A segment without its first `k` slots. -/
theorem Segment.drop (h : r.Segment P o xs) (k : ℕ) : r.Segment P (o + k) (xs.drop k) := by
  intro i hi
  have hki : k + i < xs.length := by
    simp only [List.length_drop] at hi
    omega
  rw [List.getElem_drop, Nat.add_assoc]
  exact h (k + i) hki

theorem Segment.head {x : α} (h : r.Segment P o (x :: xs)) : P (r.addr o) x :=
  h 0 (Nat.zero_lt_succ _)

theorem Segment.tail {x : α} (h : r.Segment P o (x :: xs)) : r.Segment P (o + 1) xs :=
  h.drop 1

theorem segment_mod_iff : r.Segment P (o % r.slots) xs ↔ r.Segment P o xs := by
  simp only [Segment, addr_mod_add]

end Segment

end Ring

end CComplete.Library
