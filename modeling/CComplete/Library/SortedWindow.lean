import Mathlib.Data.List.Count
import Mathlib.Order.Lattice

/-!
# Windows of an ordered list

In a list ordered by a key, the entries whose key lies in an interval are consecutive. Their first
index is `belowCount key s xs`, the number of entries below the interval, and the index after
their last is `upToCount key e xs`, the number of entries that are not above it. These two counts
are what the linear searches of a time-ordered log compute, from its two ends.
-/

set_option autoImplicit false

namespace CComplete.Library

universe u v

variable {α : Type u}

/-! ## Predicates that hold on a prefix -/

/-- `p` holds of an entry only if it holds of every earlier one. -/
def PrefixClosed (p : α → Bool) (xs : List α) : Prop :=
  xs.Pairwise fun a b => p b = true → p a = true

theorem countP_eq_zero_of_head {p : α → Bool} {x : α} {xs : List α}
    (h : PrefixClosed p (x :: xs)) (hx : p x = false) : (x :: xs).countP p = 0 := by
  rw [List.countP_eq_zero]
  intro a ha hpa
  rcases List.mem_cons.1 ha with rfl | ha
  · rw [hx] at hpa
    exact Bool.noConfusion hpa
  · have := List.rel_of_pairwise_cons h ha hpa
    rw [hx] at this
    exact Bool.noConfusion this

/-- The number of entries with `p` is the index of the first entry without it. -/
theorem getElem_iff_lt_countP {p : α → Bool} :
    ∀ {xs : List α}, PrefixClosed p xs → ∀ i (hi : i < xs.length),
      p xs[i] = true ↔ i < xs.countP p
  | [], _, i, hi => absurd hi (Nat.not_lt_zero i)
  | x :: xs, h, i, hi => by
    cases hx : p x with
    | false =>
      -- no later entry has `p` either
      rw [countP_eq_zero_of_head h hx]
      cases i with
      | zero => simp [hx]
      | succ i =>
        have hmem : (x :: xs)[i + 1] ∈ xs := List.getElem_mem _
        have hne : p (x :: xs)[i + 1] ≠ true := fun hp => by
          rw [List.rel_of_pairwise_cons h hmem hp] at hx
          exact Bool.noConfusion hx
        simpa using hne
    | true =>
      rw [List.countP_cons_of_pos hx]
      cases i with
      | zero => simp [hx]
      | succ i =>
        rw [Nat.add_lt_add_iff_right, List.getElem_cons_succ]
        exact getElem_iff_lt_countP h.of_cons i (Nat.lt_of_succ_lt_succ hi)

/-- Filtering by `p` takes the prefix. -/
theorem filter_eq_take_countP {p : α → Bool} :
    ∀ {xs : List α}, PrefixClosed p xs → xs.filter p = xs.take (xs.countP p)
  | [], _ => rfl
  | x :: xs, h => by
    cases hx : p x with
    | false =>
      have h0 := countP_eq_zero_of_head h hx
      rw [h0, List.take_zero, ← List.length_eq_zero_iff, ← List.countP_eq_length_filter]
      exact h0
    | true =>
      rw [List.filter_cons_of_pos hx, List.countP_cons_of_pos hx, List.take_succ_cons,
        filter_eq_take_countP h.of_cons]

/-- Filtering by the negation of `p` drops the prefix. -/
theorem filter_not_eq_drop_countP {p : α → Bool} :
    ∀ {xs : List α}, PrefixClosed p xs → (xs.filter fun x => !p x) = xs.drop (xs.countP p)
  | [], _ => rfl
  | x :: xs, h => by
    cases hx : p x with
    | false =>
      have h0 := countP_eq_zero_of_head h hx
      rw [h0, List.drop_zero, List.filter_eq_self]
      intro a ha
      rw [List.countP_eq_zero] at h0
      simpa using h0 a ha
    | true =>
      rw [List.filter_cons_of_neg (by simp [hx]), List.countP_cons_of_pos hx, List.drop_succ_cons,
        filter_not_eq_drop_countP h.of_cons]

/-- Dropping entries takes them off the prefix where `p` holds. -/
theorem countP_drop {p : α → Bool} :
    ∀ {xs : List α}, PrefixClosed p xs → ∀ k, (xs.drop k).countP p = xs.countP p - k
  | [], _, k => by simp
  | x :: xs, _, 0 => rfl
  | x :: xs, h, k + 1 => by
    rw [List.drop_succ_cons, countP_drop h.of_cons k]
    cases hx : p x with
    | false =>
      have h0 := countP_eq_zero_of_head h hx
      rw [List.countP_cons_of_neg (by simp [hx])] at h0 ⊢
      omega
    | true =>
      rw [List.countP_cons_of_pos hx]
      omega

/-! ## Ordered lists -/

variable {κ : Type v} [LinearOrder κ] (key : α → κ)

/-- The keys of the list do not decrease. -/
def OrderedBy (xs : List α) : Prop := xs.Pairwise fun a b => key a ≤ key b

/-- Number of entries with a key below `s`. -/
def belowCount (s : κ) (xs : List α) : ℕ := xs.countP fun x => decide (key x < s)

/-- Number of entries with a key up to `e`. -/
def upToCount (e : κ) (xs : List α) : ℕ := xs.countP fun x => decide (key x ≤ e)

variable {key} {xs : List α} {s e : κ}

theorem OrderedBy.snoc (h : OrderedBy key xs) {x : α} (hx : ∀ a ∈ xs, key a ≤ key x) :
    OrderedBy key (xs ++ [x]) := by
  rw [OrderedBy, List.pairwise_append]
  refine ⟨h, List.pairwise_singleton _ _, ?_⟩
  intro a ha b hb
  rw [List.mem_singleton] at hb
  subst hb
  exact hx a ha

theorem OrderedBy.drop (h : OrderedBy key xs) (k : ℕ) : OrderedBy key (xs.drop k) :=
  List.Pairwise.drop h

theorem OrderedBy.getElem_le (h : OrderedBy key xs) {i j : ℕ} (hij : i ≤ j) (hi : i < xs.length)
    (hj : j < xs.length) : key xs[i] ≤ key xs[j] := by
  rcases Nat.lt_or_eq_of_le hij with hlt | rfl
  · exact List.pairwise_iff_getElem.1 h i j hi hj hlt
  · exact le_refl _

theorem OrderedBy.le_getLast (h : OrderedBy key xs) (hne : xs ≠ []) {a : α} (ha : a ∈ xs) :
    key a ≤ key (xs.getLast hne) := by
  obtain ⟨i, hi, rfl⟩ := List.mem_iff_getElem.1 ha
  rw [List.getLast_eq_getElem]
  exact h.getElem_le (by omega) hi _

theorem OrderedBy.prefixClosed_lt (h : OrderedBy key xs) (s : κ) :
    PrefixClosed (fun x => decide (key x < s)) xs := by
  refine List.Pairwise.imp ?_ h
  intro a b hab hb
  simp only [decide_eq_true_eq] at hb ⊢
  exact lt_of_le_of_lt hab hb

theorem OrderedBy.prefixClosed_le (h : OrderedBy key xs) (e : κ) :
    PrefixClosed (fun x => decide (key x ≤ e)) xs := by
  refine List.Pairwise.imp ?_ h
  intro a b hab hb
  simp only [decide_eq_true_eq] at hb ⊢
  exact le_trans hab hb

theorem belowCount_le_length : belowCount key s xs ≤ xs.length := List.countP_le_length

theorem upToCount_le_length : upToCount key e xs ≤ xs.length := List.countP_le_length

theorem upToCount_pos_iff : 0 < upToCount key e xs ↔ ∃ x ∈ xs, key x ≤ e := by
  rw [upToCount, List.countP_pos_iff]
  simp only [decide_eq_true_eq]

theorem belowCount_lt_length_iff_exists :
    belowCount key s xs < xs.length ↔ ∃ x ∈ xs, s ≤ key x := by
  rw [belowCount, lt_iff_le_and_ne, and_iff_right List.countP_le_length, Ne, List.countP_eq_length]
  simp only [decide_eq_true_eq, not_forall, not_lt, exists_prop]

theorem OrderedBy.lt_belowCount_iff (h : OrderedBy key xs) {i : ℕ} (hi : i < xs.length) :
    i < belowCount key s xs ↔ key xs[i] < s := by
  rw [belowCount, ← getElem_iff_lt_countP (h.prefixClosed_lt s) i hi, decide_eq_true_eq]

theorem OrderedBy.lt_upToCount_iff (h : OrderedBy key xs) {i : ℕ} (hi : i < xs.length) :
    i < upToCount key e xs ↔ key xs[i] ≤ e := by
  rw [upToCount, ← getElem_iff_lt_countP (h.prefixClosed_le e) i hi, decide_eq_true_eq]

/-! ## The window of an interval -/

variable {p : α → Bool}

/-- The entries of an ordered list with a key in the interval from `s` to `e` are consecutive. -/
theorem OrderedBy.filter_window (h : OrderedBy key xs)
    (hp : ∀ x, p x = true ↔ s ≤ key x ∧ key x ≤ e) :
    xs.filter p =
      (xs.drop (belowCount key s xs)).take (upToCount key e xs - belowCount key s xs) := by
  -- first drop what is below the interval, then take what is not above it
  have hsplit : xs.filter p =
      (xs.filter fun x => !decide (key x < s)).filter fun x => decide (key x ≤ e) := by
    rw [List.filter_filter]
    apply List.filter_congr
    intro x _
    rw [Bool.eq_iff_iff, hp]
    simp [and_comm]
  rw [hsplit, filter_not_eq_drop_countP (h.prefixClosed_lt s),
    filter_eq_take_countP ((h.drop _).prefixClosed_le e), countP_drop (h.prefixClosed_le e)]
  rfl

/-- The entries of an ordered list above `e` are those after the first `upToCount`. -/
theorem OrderedBy.filter_above (h : OrderedBy key xs) (hp : ∀ x, p x = true ↔ e < key x) :
    xs.filter p = xs.drop (upToCount key e xs) := by
  have hnot : xs.filter p = xs.filter fun x => !decide (key x ≤ e) := by
    apply List.filter_congr
    intro x _
    rw [Bool.eq_iff_iff, hp]
    simp
  rw [hnot, filter_not_eq_drop_countP (h.prefixClosed_le e)]
  rfl

/-- The number of entries of an ordered list strictly between `e` and `s`. -/
theorem OrderedBy.length_filter_between (h : OrderedBy key xs)
    (hp : ∀ x, p x = true ↔ e < key x ∧ key x < s) :
    (xs.filter p).length = belowCount key s xs - upToCount key e xs := by
  have hsplit : xs.filter p =
      (xs.filter fun x => !decide (key x ≤ e)).filter fun x => decide (key x < s) := by
    rw [List.filter_filter]
    apply List.filter_congr
    intro x _
    rw [Bool.eq_iff_iff, hp]
    simp [and_comm]
  rw [hsplit, filter_not_eq_drop_countP (h.prefixClosed_le e), ← List.countP_eq_length_filter,
    countP_drop (h.prefixClosed_lt s)]
  rfl

/-- Some entry lies in the interval exactly when the window is not empty. -/
theorem OrderedBy.filter_window_ne_nil_iff (h : OrderedBy key xs)
    (hp : ∀ x, p x = true ↔ s ≤ key x ∧ key x ≤ e) :
    xs.filter p ≠ [] ↔ belowCount key s xs < upToCount key e xs := by
  have hbound : upToCount key e xs ≤ xs.length := upToCount_le_length
  rw [h.filter_window hp, ← List.length_pos_iff, List.length_take, List.length_drop]
  omega

end CComplete.Library
