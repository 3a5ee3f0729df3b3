import Mathlib.Data.List.DropRight
import Mathlib.Order.Basic

/-!
# The last run of a list

A scan from the end of a list that passes over the entries without a property and then stops at the
first one without it again sees the last run of entries with the property. `LastRunAt p xs b k` says
that this run is the `k` entries from number `b` on; every list has one (`exists_lastRunAt`).
-/

set_option autoImplicit false

namespace CComplete.Library

universe u

variable {α : Type u}

/-- The last run of consecutive entries with `p`. -/
def lastRun (p : α → Bool) (xs : List α) : List α := (xs.rdropWhile fun x => !p x).rtakeWhile p

/-- The last run of entries with `p` is the `k` entries from number `b` on. -/
structure LastRunAt (p : α → Bool) (xs : List α) (b k : ℕ) : Prop where
  bounded : b + k ≤ xs.length
  inside : ∀ i (hi : i < xs.length), b ≤ i → i < b + k → p xs[i] = true
  after : ∀ i (hi : i < xs.length), b + k ≤ i → p xs[i] = false
  before : ∀ i (hi : i < xs.length), i + 1 = b → p xs[i] = false
  empty : k = 0 → b = 0

/-- A list is the entries up to its last run, the run, and the entries after it. -/
theorem lastRunAt_append {p : α → Bool} {xs run ys : List α} (hrun : ∀ x ∈ run, p x = true)
    (hafter : ∀ y ∈ ys, p y = false) (hbefore : ∀ hne : xs ≠ [], p (xs.getLast hne) = false)
    (hempty : run = [] → xs = []) : LastRunAt p (xs ++ (run ++ ys)) xs.length run.length where
  bounded := by
    simp only [List.length_append]
    omega
  inside := by
    intro i hi hle hlt
    have hmem : (xs ++ (run ++ ys))[i] ∈ run := by
      rw [List.getElem_append_right hle, List.getElem_append_left (by omega)]
      exact List.getElem_mem _
    exact hrun _ hmem
  after := by
    intro i hi hle
    have hmem : (xs ++ (run ++ ys))[i] ∈ ys := by
      rw [List.getElem_append_right (by omega), List.getElem_append_right (by omega)]
      exact List.getElem_mem _
    exact hafter _ hmem
  before := by
    intro i hi hlast
    have hne : xs ≠ [] := List.ne_nil_of_length_eq_add_one hlast.symm
    have hget : (xs ++ (run ++ ys))[i] = xs.getLast hne := by
      rw [List.getElem_append_left (by omega), List.getLast_eq_getElem]
      congr 1
      omega
    rw [hget]
    exact hbefore hne
  empty := by
    intro hzero
    rw [hempty (List.length_eq_zero_iff.1 hzero), List.length_nil]

theorem exists_lastRunAt (p : α → Bool) (xs : List α) :
    ∃ b, LastRunAt p xs b (lastRun p xs).length := by
  -- cut off the entries after the run, then the run
  have houter : (xs.rdropWhile fun x => !p x) ++ xs.rtakeWhile (fun x => !p x) = xs :=
    List.rdropWhile_append_rtakeWhile
  have hinner : (xs.rdropWhile fun x => !p x).rdropWhile p ++ lastRun p xs =
      xs.rdropWhile fun x => !p x := List.rdropWhile_append_rtakeWhile
  have hsplit : (xs.rdropWhile fun x => !p x).rdropWhile p ++
      (lastRun p xs ++ xs.rtakeWhile fun x => !p x) = xs := by
    rw [← List.append_assoc, hinner, houter]
  have hbefore : ∀ hne : (xs.rdropWhile fun x => !p x).rdropWhile p ≠ [],
      p (((xs.rdropWhile fun x => !p x).rdropWhile p).getLast hne) = false := by
    intro hne
    simpa using List.rdropWhile_last_not p _ hne
  -- what is left before the entries after the run ends with an entry with `p`
  have hempty : lastRun p xs = [] → (xs.rdropWhile fun x => !p x).rdropWhile p = [] := by
    intro hnil
    have hlast := List.rtakeWhile_eq_nil_iff.1 hnil
    by_contra hne
    rw [hnil, List.append_nil] at hinner
    rw [hinner] at hne
    have hnot := List.rdropWhile_last_not (fun x => !p x) xs hne
    exact hlast hne (by simpa using hnot)
  have hrun := lastRunAt_append (fun _ hx => List.mem_rtakeWhile_imp hx)
    (fun _ hy => by simpa using List.mem_rtakeWhile_imp (p := fun x => !p x) (l := xs) hy)
    hbefore hempty
  rw [hsplit] at hrun
  exact ⟨_, hrun⟩

/-- The first `k` entries have `p` exactly when the list starts with a run that long. -/
theorem le_length_takeWhile_iff (p : α → Bool) :
    ∀ {xs : List α} {k : ℕ}, k ≤ xs.length →
      (k ≤ (xs.takeWhile p).length ↔ ∀ i (hi : i < xs.length), p xs[i] = false → k ≤ i)
  | xs, 0, _ => iff_of_true (Nat.zero_le _) fun i _ _ => Nat.zero_le i
  | [], k + 1, hk => absurd hk (Nat.not_succ_le_zero k)
  | x :: xs, k + 1, hk => by
    cases hx : p x with
    | false =>
      rw [List.takeWhile_cons_of_neg (by simp [hx])]
      refine iff_of_false (Nat.not_succ_le_zero k) fun hall => ?_
      exact Nat.not_succ_le_zero k (hall 0 (Nat.zero_lt_succ _) hx)
    | true =>
      rw [List.takeWhile_cons_of_pos hx, List.length_cons, Nat.succ_le_succ_iff,
        le_length_takeWhile_iff p (Nat.le_of_succ_le_succ hk)]
      constructor
      · intro hall i hi hfalse
        cases i with
        | zero => exact absurd (hx.symm.trans hfalse) (by decide)
        | succ i => exact Nat.succ_le_succ (hall i (Nat.lt_of_succ_lt_succ hi) hfalse)
      · intro hall i hi hfalse
        exact Nat.le_of_succ_le_succ (hall (i + 1) (Nat.succ_lt_succ hi) hfalse)

end CComplete.Library
