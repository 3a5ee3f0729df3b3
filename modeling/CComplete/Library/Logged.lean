import Mathlib.Control.Monad.Writer

/-!
# Computations that log what they access

A logged computation is a value with the list of the places it accessed, in order. The computations
are those of the writer monad over lists; the module gives their value, their log, and the rules for
`Within P`, which says that every place in the log satisfies `P`.
-/

set_option autoImplicit false

namespace CComplete.Library

/-- A computation of an `α` that accesses places of the type `β`. -/
abbrev Logged (β α : Type) : Type := Writer (List β) α

namespace Logged

variable {α β γ σ ι : Type}

/-- What the computation returns. -/
def value (c : Logged β α) : α := (Id.run (WriterT.run c)).1

/-- The places that the computation accesses. -/
def log (c : Logged β α) : List β := (Id.run (WriterT.run c)).2

/-- Access one place. -/
def access (b : β) : Logged β Unit := tell [b]

@[simp] theorem value_pure (a : α) : (pure a : Logged β α).value = a := rfl

@[simp] theorem log_pure (a : α) : (pure a : Logged β α).log = [] := rfl

@[simp] theorem log_access (b : β) : (access b).log = [b] := rfl

@[simp] theorem value_bind (c : Logged β α) (f : α → Logged β γ) :
    (c >>= f).value = (f c.value).value := by
  -- a lemma by `rfl` alone would leave the decision procedure of a rewritten condition behind
  rw [value]
  rfl

@[simp] theorem log_bind (c : Logged β α) (f : α → Logged β γ) :
    (c >>= f).log = c.log ++ (f c.value).log := rfl

@[simp] theorem value_ite (p : Prop) [Decidable p] (c d : Logged β α) :
    (if p then c else d).value = if p then c.value else d.value := apply_ite value p c d

/-- Every place that the computation accesses satisfies `P`. -/
def Within (P : β → Prop) (c : Logged β α) : Prop := ∀ b ∈ c.log, P b

variable {P : β → Prop}

theorem within_pure (a : α) : Within P (pure a : Logged β α) := fun _ hb => nomatch hb

theorem within_access {b : β} : Within P (access b) ↔ P b := by
  rw [Within, log_access]
  exact List.forall_mem_singleton

theorem within_bind {c : Logged β α} {f : α → Logged β γ} :
    Within P (c >>= f) ↔ Within P c ∧ Within P (f c.value) := by
  rw [Within, log_bind]
  exact List.forall_mem_append

theorem Within.bind {c : Logged β α} {f : α → Logged β γ} (hc : Within P c)
    (hf : Within P (f c.value)) : Within P (c >>= f) := within_bind.2 ⟨hc, hf⟩

/-- A loop without a result stays within `P` if and only if every turn does. -/
theorem within_forM (step : ι → Logged β PUnit) (is : List ι) :
    Within P (is.forM step) ↔ ∀ i ∈ is, Within P (step i) := by
  induction is with
  | nil => exact iff_of_true (within_pure _) fun i hi => absurd hi List.not_mem_nil
  | cons i is ih =>
    rw [List.forall_mem_cons, ← ih]
    exact within_bind

/-- A loop over the first `size` indices stays below `n` if and only if `size` does not exceed it. -/
theorem within_range_forM {n size : ℕ} :
    Within (· < n) ((List.range size).forM access) ↔ size ≤ n := by
  rw [within_forM]
  simp only [within_access, List.mem_range]
  constructor
  · intro hall
    by_contra hlt
    exact absurd (hall n (Nat.lt_of_not_le hlt)) (Nat.lt_irrefl n)
  · exact fun hle i hi => Nat.lt_of_lt_of_le hi hle

/-- A loop whose every step keeps the invariant `I` and stays within `P` stays within `P`. -/
theorem within_foldlM {I : σ → Prop} {step : σ → ι → Logged β σ}
    (hstep : ∀ s i, I s → Within P (step s i) ∧ I (step s i).value) (is : List ι) :
    ∀ s, I s → Within P (is.foldlM step s) := by
  induction is with
  | nil => exact fun s _ => within_pure s
  | cons i is ih =>
    intro s hs
    rw [List.foldlM_cons]
    obtain ⟨hwithin, hnext⟩ := hstep s i hs
    exact hwithin.bind (ih _ hnext)

end Logged

end CComplete.Library
