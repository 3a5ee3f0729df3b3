import CComplete.Library.Machine
import CComplete.Library.SortedWindow
import Mathlib.Data.List.Forall2

/-!
# Bounded time logs

The abstract time log: a list of at most `capacity` entries, each with a key, in the order in which
they were appended. An entry is taken if there is room and no entry held has a greater key; a read
gives the entries whose keys lie in an interval; a delete keeps those with a greater key. Two logs
whose entries are related by a relation that respects the keys stay so (`timeLog_related`).
-/

set_option autoImplicit false

namespace CComplete.Library

universe u v u'

/-- Inputs of a time log. -/
inductive LogIn (α : Type u) (κ : Type v) where
  | append (a : α)
  | read (start stop : κ)
  | deleteUpTo (stop : κ)

/-- Outputs of a time log: whether an entry was taken, the entries read, nothing for a delete. -/
inductive LogOut (α : Type u) where
  | appended (accepted : Bool)
  | entries (es : List α)
  | deleted

variable {α : Type u} {κ : Type v} [LinearOrder κ] (key : α → κ) (capacity : ℕ)

/-- The log `xs` takes the entry `a`. -/
def Admits (xs : List α) (a : α) : Prop := xs.length < capacity ∧ ∀ x ∈ xs, key x ≤ key a

instance (xs : List α) (a : α) : Decidable (Admits key capacity xs a) :=
  inferInstanceAs (Decidable (_ ∧ _))

/-- The entries with a key from `start` to `stop`. -/
def entriesBetween (start stop : κ) (xs : List α) : List α :=
  xs.filter fun x => decide (start ≤ key x) && decide (key x ≤ stop)

/-- The entries with a key above `stop`. -/
def entriesAbove (stop : κ) (xs : List α) : List α := xs.filter fun x => decide (stop < key x)

/-- The time log bounded by `capacity`. -/
def timeLog : Machine (List α) (LogIn α κ) (LogOut α) where
  step
    | xs, .append a =>
        if Admits key capacity xs a then (xs ++ [a], .appended true) else (xs, .appended false)
    | xs, .read start stop => (xs, .entries (entriesBetween key start stop xs))
    | xs, .deleteUpTo stop => (entriesAbove key stop xs, .deleted)

variable {key} {capacity} {xs : List α}

theorem timeLog_append_of_admits {a : α} (h : Admits key capacity xs a) :
    (timeLog key capacity).step xs (.append a) = (xs ++ [a], .appended true) := if_pos h

theorem timeLog_append_of_not_admits {a : α} (h : ¬ Admits key capacity xs a) :
    (timeLog key capacity).step xs (.append a) = (xs, .appended false) := if_neg h

/-- In a log ordered by its keys, an entry is taken if there is room and the last key is not
greater. -/
theorem admits_iff_getLast (h : OrderedBy key xs) (a : α) :
    Admits key capacity xs a ↔ xs.length < capacity ∧ ∀ x, xs.getLast? = some x → key x ≤ key a := by
  refine and_congr_right fun _ => ⟨fun hall x hx => hall x (List.mem_of_getLast? hx), ?_⟩
  intro hlast x hx
  have hne : xs ≠ [] := List.ne_nil_of_mem hx
  exact (h.le_getLast hne hx).trans (hlast _ (List.getLast?_eq_some_getLast hne))

/-! ## Logs with related entries -/

variable {β : Type u'} {key' : β → κ} {R : α → β → Prop} {ys : List β}

/-- The same input, but for entries that are related. -/
inductive LogIn.Related (R : α → β → Prop) : LogIn α κ → LogIn β κ → Prop
  | append {a : α} {b : β} (h : R a b) : Related R (.append a) (.append b)
  | read (start stop : κ) : Related R (.read start stop) (.read start stop)
  | deleteUpTo (stop : κ) : Related R (.deleteUpTo stop) (.deleteUpTo stop)

instance [∀ a b, Decidable (R a b)] :
    (i : LogIn α κ) → (j : LogIn β κ) → Decidable (i.Related R j)
  | .append a, .append b => decidable_of_iff (R a b) ⟨.append, fun | .append h => h⟩
  | .read start stop, .read start' stop' =>
      decidable_of_iff (start = start' ∧ stop = stop')
        ⟨fun | ⟨rfl, rfl⟩ => .read start stop, fun | .read _ _ => ⟨rfl, rfl⟩⟩
  | .deleteUpTo stop, .deleteUpTo stop' =>
      decidable_of_iff (stop = stop') ⟨fun | rfl => .deleteUpTo stop, fun | .deleteUpTo _ => rfl⟩
  | .append _, .read _ _ => .isFalse nofun
  | .append _, .deleteUpTo _ => .isFalse nofun
  | .read _ _, .append _ => .isFalse nofun
  | .read _ _, .deleteUpTo _ => .isFalse nofun
  | .deleteUpTo _, .append _ => .isFalse nofun
  | .deleteUpTo _, .read _ _ => .isFalse nofun

/-- The same output, but for entries that are related. -/
inductive LogOut.Related (R : α → β → Prop) : LogOut α → LogOut β → Prop
  | appended (accepted : Bool) : Related R (.appended accepted) (.appended accepted)
  | entries {as : List α} {bs : List β} (h : List.Forall₂ R as bs) :
      Related R (.entries as) (.entries bs)
  | deleted : Related R .deleted .deleted

omit [LinearOrder κ] in
theorem related_filter (hkey : ∀ a b, R a b → key a = key' b) (h : List.Forall₂ R xs ys)
    (q : κ → Bool) :
    List.Forall₂ R (xs.filter fun a => q (key a)) (ys.filter fun b => q (key' b)) := by
  refine List.rel_filter (fun a b hab => ?_) h
  show q (key a) = true ↔ q (key' b) = true
  rw [hkey a b hab]

theorem admits_related (hkey : ∀ a b, R a b → key a = key' b) (h : List.Forall₂ R xs ys) {a : α}
    {b : β} (hab : R a b) : Admits key capacity xs a ↔ Admits key' capacity ys b := by
  rw [Admits, Admits, h.length_eq, hkey a b hab]
  refine and_congr Iff.rfl ?_
  induction h with
  | nil => exact iff_of_true (fun x hx => nomatch hx) fun y hy => nomatch hy
  | cons hxy _ ih => rw [List.forall_mem_cons, List.forall_mem_cons, ih, hkey _ _ hxy]

/-- One step keeps the entries related and answers alike. -/
theorem timeLog_step_related (hkey : ∀ a b, R a b → key a = key' b) (h : List.Forall₂ R xs ys)
    {i : LogIn α κ} {j : LogIn β κ} (hij : i.Related R j) :
    List.Forall₂ R ((timeLog key capacity).step xs i).1 ((timeLog key' capacity).step ys j).1 ∧
      ((timeLog key capacity).step xs i).2.Related R ((timeLog key' capacity).step ys j).2 := by
  cases hij with
  | @append a b hab =>
    by_cases hadmits : Admits key capacity xs a
    · rw [timeLog_append_of_admits hadmits,
        timeLog_append_of_admits ((admits_related hkey h hab).1 hadmits)]
      exact ⟨List.rel_append h (.cons hab .nil), .appended true⟩
    · rw [timeLog_append_of_not_admits hadmits,
        timeLog_append_of_not_admits (mt (admits_related hkey h hab).2 hadmits)]
      exact ⟨h, .appended false⟩
  | read start stop =>
    exact ⟨h, .entries (related_filter hkey h fun k => decide (start ≤ k) && decide (k ≤ stop))⟩
  | deleteUpTo stop => exact ⟨related_filter hkey h fun k => decide (stop < k), .deleted⟩

/-- Two logs of the same capacity that get related inputs give related outputs and stay related. -/
theorem timeLog_related (hkey : ∀ a b, R a b → key a = key' b) (h : List.Forall₂ R xs ys)
    {is : List (LogIn α κ)} {js : List (LogIn β κ)} (hij : List.Forall₂ (LogIn.Related R) is js) :
    List.Forall₂ R ((timeLog key capacity).after xs is) ((timeLog key' capacity).after ys js) ∧
      List.Forall₂ (LogOut.Related R) (((timeLog key capacity).trace xs is).map Prod.snd)
        (((timeLog key' capacity).trace ys js).map Prod.snd) := by
  induction hij generalizing xs ys with
  | nil => exact ⟨h, .nil⟩
  | cons hone _ ih =>
    obtain ⟨hnext, hout⟩ := timeLog_step_related hkey h hone
    obtain ⟨hend, houts⟩ := ih hnext
    exact ⟨hend, .cons hout houts⟩

end CComplete.Library
