import Mathlib.Data.List.Induction
import Mathlib.Data.Sum.Basic

/-!
# Deterministic machines with inputs and outputs

A machine takes one input at a time, changes its state and answers with one output. The module
gives the runs of a machine on a list of inputs, the induction principle for what every run
preserves, the window that a machine keeps of what it accepted, simulations between two machines
and the interleaving of two machines that share nothing. A guard restricts an invariant or a
simulation to the runs whose steps all satisfy it; a weak simulation lets steps pass that the
other machine does not see.
-/

set_option autoImplicit false

namespace CComplete.Library

universe u v w u' v' w'

/-- A deterministic machine with states `σ`, inputs `ι` and outputs `ο`. -/
structure Machine (σ : Type u) (ι : Type v) (ο : Type w) where
  step : σ → ι → σ × ο

namespace Machine

variable {σ : Type u} {ι : Type v} {ο : Type w}

/-- State after the inputs `is`. -/
def after (M : Machine σ ι ο) (s : σ) : List ι → σ
  | [] => s
  | i :: is => after M (M.step s i).1 is

/-- Inputs of a run, each with the output it got. -/
def trace (M : Machine σ ι ο) (s : σ) : List ι → List (ι × ο)
  | [] => []
  | i :: is => (i, (M.step s i).2) :: trace M (M.step s i).1 is

/-- Every step of the run on `is` satisfies the guard `G` in the state it starts from. -/
def Guarded (M : Machine σ ι ο) (G : σ → ι → Prop) (s : σ) : List ι → Prop
  | [] => True
  | i :: is => G s i ∧ Guarded M G (M.step s i).1 is

/-- Whether a run is guarded can be computed if the guard can. -/
instance decidableGuarded (M : Machine σ ι ο) {G : σ → ι → Prop} [∀ s i, Decidable (G s i)] :
    ∀ (s : σ) (is : List ι), Decidable (M.Guarded G s is)
  | _, [] => .isTrue True.intro
  | s, i :: is =>
      have := decidableGuarded M (G := G) (M.step s i).1 is
      inferInstanceAs (Decidable (G s i ∧ M.Guarded G (M.step s i).1 is))

variable (M : Machine σ ι ο)

@[simp] theorem after_nil (s : σ) : M.after s [] = s := rfl

@[simp] theorem after_cons (s : σ) (i : ι) (is : List ι) :
    M.after s (i :: is) = M.after (M.step s i).1 is := rfl

@[simp] theorem trace_nil (s : σ) : M.trace s [] = [] := rfl

@[simp] theorem trace_cons (s : σ) (i : ι) (is : List ι) :
    M.trace s (i :: is) = (i, (M.step s i).2) :: M.trace (M.step s i).1 is := rfl

theorem map_fst_trace (s : σ) (is : List ι) : (M.trace s is).map Prod.fst = is := by
  induction is generalizing s with
  | nil => rfl
  | cons i is ih => exact congrArg _ (ih _)

theorem after_append (s : σ) (is js : List ι) :
    M.after s (is ++ js) = M.after (M.after s is) js := by
  induction is generalizing s with
  | nil => rfl
  | cons i is ih => exact ih (M.step s i).1

theorem trace_append (s : σ) (is js : List ι) :
    M.trace s (is ++ js) = M.trace s is ++ M.trace (M.after s is) js := by
  induction is generalizing s with
  | nil => rfl
  | cons i is ih =>
    simp only [List.cons_append, trace_cons, after_cons]
    rw [ih]

theorem filterMap_snoc {α : Type u} {β : Type v} (f : α → Option β) (xs : List α) (x : α) :
    (xs ++ [x]).filterMap f = xs.filterMap f ++ (f x).toList := by
  rw [List.filterMap_append, List.filterMap_cons, List.filterMap_nil]
  cases f x <;> rfl

/-- What a function picks from a trace: before a step, at the step and after it. -/
theorem filterMap_trace_append_cons {α : Type u'} (f : ι × ο → Option α) (s : σ) (is : List ι)
    (i : ι) (js : List ι) :
    (M.trace s (is ++ i :: js)).filterMap f =
      (M.trace s is).filterMap f ++ ((f (i, (M.step (M.after s is) i).2)).toList ++
        (M.trace (M.step (M.after s is) i).1 js).filterMap f) := by
  rw [trace_append, List.filterMap_append, trace_cons, List.filterMap_cons]
  cases f (i, (M.step (M.after s is) i).2) <;> rfl

/-- The run on `is` goes from `s` to `s'`, and its trace shows `shown`. -/
def Runs {α : Type u'} (view : ι × ο → Option α) (s : σ) (is : List ι) (shown : List α) (s' : σ) :
    Prop :=
  M.after s is = s' ∧ (M.trace s is).filterMap view = shown

section Runs

variable {M} {α : Type u'} {view : ι × ο → Option α} {s s' s'' : σ} {shown shown' : List α}

theorem Runs.refl : M.Runs view s [] [] s := ⟨rfl, rfl⟩

/-- One run after the other. -/
theorem Runs.append {is js : List ι} (h : M.Runs view s is shown s')
    (h' : M.Runs view s' js shown' s'') : M.Runs view s (is ++ js) (shown ++ shown') s'' := by
  obtain ⟨rfl, rfl⟩ := h
  obtain ⟨rfl, rfl⟩ := h'
  exact ⟨M.after_append s is js, by rw [M.trace_append, List.filterMap_append]⟩

theorem Runs.one {i : ι} {o : ο} (h : M.step s i = (s', o)) :
    M.Runs view s [i] (view (i, o)).toList s' := by
  refine ⟨congrArg Prod.fst h, ?_⟩
  rw [trace_cons, h, List.filterMap_cons]
  cases view (i, o) <;> rfl

end Runs

theorem guarded_append {G : σ → ι → Prop} (s : σ) (is js : List ι) :
    M.Guarded G s (is ++ js) ↔ M.Guarded G s is ∧ M.Guarded G (M.after s is) js := by
  induction is generalizing s with
  | nil => simp [Guarded]
  | cons i is ih =>
    show G s i ∧ M.Guarded G _ (is ++ js) ↔ (G s i ∧ M.Guarded G _ is) ∧ _
    rw [ih, and_assoc, after_cons]

/-- The machine of a step function that may have no result. After a step without one it is in no
state, and shows nothing more. -/
def ofOption (f : σ → ι → Option (σ × ο)) : Machine (Option σ) ι (Option ο) where
  step s i :=
    match s.bind fun s => f s i with
    | some (s', o) => (some s', some o)
    | none => (none, none)

section OfOption

variable {f : σ → ι → Option (σ × ο)} {s s' : σ} {i : ι} {o : ο}

theorem ofOption_step_some (h : f s i = some (s', o)) :
    (ofOption f).step (some s) i = (some s', some o) := by
  simp only [ofOption, Option.bind_some, h]

theorem ofOption_step_none (h : f s i = none) : (ofOption f).step (some s) i = (none, none) := by
  simp only [ofOption, Option.bind_some, h]

theorem ofOption_after_none (is : List ι) : (ofOption f).after none is = none := by
  induction is with
  | nil => rfl
  | cons i is ih => exact ih

end OfOption

theorem guarded_true (s : σ) (is : List ι) : M.Guarded (fun _ _ => True) s is := by
  induction is generalizing s with
  | nil => exact True.intro
  | cons i is ih => exact ⟨True.intro, ih _⟩

/-- A guard that the state does not matter to is one on the inputs. -/
theorem guarded_of_forall {H : ι → Prop} (s : σ) {is : List ι} (h : ∀ i ∈ is, H i) :
    M.Guarded (fun _ i => H i) s is := by
  induction is generalizing s with
  | nil => exact True.intro
  | cons i is ih =>
    obtain ⟨hi, hrest⟩ := List.forall_mem_cons.1 h
    exact ⟨hi, ih _ hrest⟩

/-- What the start satisfies and every guarded step preserves holds after every guarded run.
The property may mention the trace so far. -/
theorem guarded_run_induction {G : σ → ι → Prop} {P : σ → List (ι × ο) → Prop} (s₀ : σ)
    (h₀ : P s₀ [])
    (hstep : ∀ s t i, P s t → G s i → P (M.step s i).1 (t ++ [(i, (M.step s i).2)]))
    (is : List ι) (hG : M.Guarded G s₀ is) : P (M.after s₀ is) (M.trace s₀ is) := by
  induction is using List.reverseRecOn with
  | nil => exact h₀
  | append_singleton is i ih =>
    obtain ⟨hpre, hi, -⟩ := (M.guarded_append s₀ is [i]).1 hG
    rw [after_append, trace_append]
    exact hstep _ _ i (ih hpre) hi

/-- Two guards that agree wherever `P` holds, the second of which keeps `P` on the inputs with `H`,
restrict the runs on such inputs alike. -/
theorem guarded_iff {P : σ → Prop} {H : ι → Prop} {G G' : σ → ι → Prop}
    (hiff : ∀ s i, P s → (G s i ↔ G' s i)) (hstep : ∀ s i, P s → H i → G' s i → P (M.step s i).1)
    (s : σ) (hs : P s) (is : List ι) (hH : ∀ i ∈ is, H i) :
    M.Guarded G s is ↔ M.Guarded G' s is := by
  induction is generalizing s with
  | nil => exact Iff.rfl
  | cons i is ih =>
    have hrest : ∀ j ∈ is, H j := fun j hj => hH j (List.mem_cons_of_mem i hj)
    show G s i ∧ _ ↔ G' s i ∧ _
    rw [hiff s i hs]
    exact and_congr_right fun hi => ih _ (hstep s i hs (hH i List.mem_cons_self) hi) hrest

/-- What the start satisfies and every step preserves holds after every run. -/
theorem run_induction {P : σ → List (ι × ο) → Prop} (s₀ : σ) (h₀ : P s₀ [])
    (hstep : ∀ s t i, P s t → P (M.step s i).1 (t ++ [(i, (M.step s i).2)])) (is : List ι) :
    P (M.after s₀ is) (M.trace s₀ is) :=
  M.guarded_run_induction s₀ h₀ (fun s t i hs _ => hstep s t i hs) is (M.guarded_true s₀ is)

/-- `run_induction` for a property of the state only. -/
theorem after_induction {P : σ → Prop} (s₀ : σ) (h₀ : P s₀)
    (hstep : ∀ s i, P s → P (M.step s i).1) (is : List ι) : P (M.after s₀ is) :=
  M.run_induction (P := fun s _ => P s) s₀ h₀ (fun s _ i hs => hstep s i hs) is

/-- Where a step leads from a trace with `P` to one with `P` exactly when it satisfies the guard, a
run is guarded exactly when every beginning of it has `P`. -/
theorem guarded_iff_forall_prefix {I : σ → Prop} {G : σ → ι → Prop}
    {P : σ → List (ι × ο) → Prop} (s₀ : σ) (hI₀ : I s₀) (hI : ∀ s i, I s → I (M.step s i).1)
    (h₀ : P s₀ [])
    (hstep : ∀ s t i, I s → P s t → (P (M.step s i).1 (t ++ [(i, (M.step s i).2)]) ↔ G s i))
    (is : List ι) :
    M.Guarded G s₀ is ↔ ∀ js, js <+: is → P (M.after s₀ js) (M.trace s₀ js) := by
  induction is using List.reverseRecOn with
  | nil =>
    refine ⟨fun _ js hjs => ?_, fun _ => True.intro⟩
    rw [List.prefix_nil.1 hjs]
    exact h₀
  | append_singleton is i ih =>
    have hinv : I (M.after s₀ is) := M.after_induction s₀ hI₀ hI is
    rw [guarded_append, ih]
    constructor
    · rintro ⟨hbefore, hguard, -⟩ js hjs
      rcases List.prefix_concat_iff.1 hjs with rfl | hjs
      · rw [after_append, trace_append]
        exact (hstep _ _ i hinv (hbefore is List.prefix_rfl)).2 hguard
      · exact hbefore js hjs
    · intro hall
      have hbefore : ∀ js, js <+: is → P (M.after s₀ js) (M.trace s₀ js) :=
        fun js hjs => hall js (hjs.trans (List.prefix_append is [i]))
      have hend := hall (is ++ [i]) List.prefix_rfl
      rw [after_append, trace_append] at hend
      exact ⟨hbefore, (hstep _ _ i hinv (hbefore is List.prefix_rfl)).1 hend, True.intro⟩

/-- Where the start satisfies `P` and every step preserves it, every entry of a trace has a property
that every step from a state with `P` gives its entry. -/
theorem forall_mem_trace {P : σ → Prop} {Q : ι × ο → Prop} {s₀ : σ} (h₀ : P s₀)
    (hstep : ∀ s i, P s → P (M.step s i).1 ∧ Q (i, (M.step s i).2)) (is : List ι) :
    ∀ e ∈ M.trace s₀ is, Q e := by
  induction is generalizing s₀ with
  | nil => exact fun e he => absurd he List.not_mem_nil
  | cons i is ih =>
    intro e he
    obtain ⟨hnext, hentry⟩ := hstep s₀ i h₀
    rcases List.mem_cons.1 he with rfl | he
    · exact hentry
    · exact ih hnext e he

/-- Every entry of a trace is that of a step after a beginning of the run. -/
theorem exists_of_mem_trace {s : σ} {is : List ι} {e : ι × ο} (he : e ∈ M.trace s is) :
    ∃ earlier i later, is = earlier ++ i :: later ∧ e = (i, (M.step (M.after s earlier) i).2) := by
  induction is generalizing s with
  | nil => exact absurd he List.not_mem_nil
  | cons i is ih =>
    rcases List.mem_cons.1 he with rfl | he
    · exact ⟨[], i, is, rfl, rfl⟩
    · obtain ⟨earlier, j, later, rfl, rfl⟩ := ih he
      exact ⟨i :: earlier, j, later, rfl, rfl⟩

/-! ## Windows of the history -/

section History

variable {α : Type u'}

/-- Where every step appends the entry it accepted, if any, and drops a prefix, the entries held
after a run are the last accepted ones. The step may use that the accepted entry stands in the
relation `Q` to those held before it. -/
theorem suffix_of_history {R : σ → List α → Prop} {accepted : ι × ο → Option α}
    {Q : α → α → Prop} (s₀ : σ) (h₀ : R s₀ [])
    (hstep : ∀ s i xs, R s xs →
      (∀ x, accepted (i, (M.step s i).2) = some x → ∀ y ∈ xs, Q y x) →
        ∃ k, R (M.step s i).1 ((xs ++ (accepted (i, (M.step s i).2)).toList).drop k))
    (is : List ι) (hQ : ((M.trace s₀ is).filterMap accepted).Pairwise Q) :
    ∃ dropped xs, R (M.after s₀ is) xs ∧ (M.trace s₀ is).filterMap accepted = dropped ++ xs := by
  revert hQ
  apply M.run_induction (P := fun s t => (t.filterMap accepted).Pairwise Q →
    ∃ dropped xs, R s xs ∧ t.filterMap accepted = dropped ++ xs)
  · exact fun _ => ⟨[], [], h₀, rfl⟩
  · intro s t i ih hQ
    let new := (accepted (i, (M.step s i).2)).toList
    have hsnoc : (t ++ [(i, (M.step s i).2)]).filterMap accepted = t.filterMap accepted ++ new := by
      rw [List.filterMap_append]
      rfl
    rw [hsnoc, List.pairwise_append] at hQ
    obtain ⟨hbefore, -, hlast⟩ := hQ
    obtain ⟨dropped, xs, hR, hhistory⟩ := ih hbefore
    obtain ⟨k, hnext⟩ := hstep s i xs hR fun x hx y hy =>
      hlast y (hhistory ▸ List.mem_append_right dropped hy) x (by simp [new, hx])
    -- what this step drops joins what was dropped before
    refine ⟨dropped ++ (xs ++ new).take k, (xs ++ new).drop k, hnext, ?_⟩
    rw [hsnoc, hhistory, List.append_assoc, List.append_assoc, List.take_append_drop]

/-- Where every step gives out a prefix of the entries held and the one it accepted, if any, and
keeps the others, the accepted entries of a run are those given out followed by those still held. -/
theorem conserved_of_history {R : σ → List α → Prop} {Q : α → α → Prop}
    (accepted : ι × ο → Option α) (removed : ι × ο → List α) (s₀ : σ) (h₀ : R s₀ [])
    (hstep : ∀ s i xs, R s xs →
      (∀ x, accepted (i, (M.step s i).2) = some x → ∀ y ∈ xs, Q y x) →
        ∃ xs', R (M.step s i).1 xs' ∧
          xs ++ (accepted (i, (M.step s i).2)).toList = removed (i, (M.step s i).2) ++ xs')
    (is : List ι) (hQ : ((M.trace s₀ is).filterMap accepted).Pairwise Q) :
    ∃ xs, R (M.after s₀ is) xs ∧
      (M.trace s₀ is).filterMap accepted = (M.trace s₀ is).flatMap removed ++ xs := by
  revert hQ
  apply M.run_induction (P := fun s t => (t.filterMap accepted).Pairwise Q →
    ∃ xs, R s xs ∧ t.filterMap accepted = t.flatMap removed ++ xs)
  · exact fun _ => ⟨[], h₀, rfl⟩
  · intro s t i ih hQ
    rw [filterMap_snoc, List.pairwise_append] at hQ
    obtain ⟨hbefore, -, hlast⟩ := hQ
    obtain ⟨xs, hR, hhistory⟩ := ih hbefore
    obtain ⟨xs', hnext, hgiven⟩ := hstep s i xs hR fun x hx y hy =>
      hlast y (hhistory ▸ List.mem_append_right _ hy) x (by rw [hx]; exact List.mem_singleton_self x)
    refine ⟨xs', hnext, ?_⟩
    rw [filterMap_snoc, hhistory, List.append_assoc, hgiven, List.flatMap_append,
      List.flatMap_singleton, List.append_assoc]

theorem drop_of_history {history dropped xs : List α} (h : history = dropped ++ xs) {n : ℕ}
    (hn : n = xs.length) : history.drop (history.length - n) = xs := by
  rw [h, hn, List.length_append, Nat.add_sub_cancel, List.drop_left]

end History

end Machine

/-! ## Simulation -/

section Simulation

variable {σ : Type u} {ι : Type v} {ο : Type w} {τ : Type u'} {κ : Type v'} {π : Type w'}

/-- A simulation of `M` by `A`: from related states, a guarded step of `M` and the step of `A` on
the corresponding input end in related states and give corresponding outputs. -/
structure Simulation (M : Machine σ ι ο) (A : Machine τ κ π) (G : σ → ι → Prop) where
  rel : σ → τ → Prop
  input : ι → κ
  output : ο → π
  rel_step : ∀ s t i, rel s t → G s i → rel (M.step s i).1 (A.step t (input i)).1
  output_step : ∀ s t i, rel s t → G s i → output (M.step s i).2 = (A.step t (input i)).2

namespace Simulation

variable {M : Machine σ ι ο} {A : Machine τ κ π} {G : σ → ι → Prop}

/-- A guarded run of the simulated machine ends in a state related to the end of the abstract
run. -/
theorem rel_after (S : Simulation M A G) {s : σ} {t : τ} (h : S.rel s t) (is : List ι)
    (hG : M.Guarded G s is) : S.rel (M.after s is) (A.after t (is.map S.input)) := by
  induction is generalizing s t with
  | nil => exact h
  | cons i is ih => exact ih (S.rel_step s t i h hG.1) hG.2

/-- A guarded run of the simulated machine shows the abstract trace. -/
theorem trace_map (S : Simulation M A G) {s : σ} {t : τ} (h : S.rel s t) (is : List ι)
    (hG : M.Guarded G s is) :
    (M.trace s is).map (Prod.map S.input S.output) = A.trace t (is.map S.input) := by
  induction is generalizing s t with
  | nil => rfl
  | cons i is ih =>
    simp only [Machine.trace_cons, List.map_cons, Prod.map_apply]
    rw [S.output_step s t i h hG.1, ih (S.rel_step s t i h hG.1) hG.2]

end Simulation

/-- The machine makes the step from `t` that is shown, if one is, with the output shown, and ends
in a state with `R`. -/
def Machine.Makes (A : Machine τ κ π) (R : τ → Prop) (t : τ) : Option (κ × π) → Prop
  | none => R t
  | some (k, o) => R (A.step t k).1 ∧ (A.step t k).2 = o

theorem Machine.Makes.mono {A : Machine τ κ π} {R R' : τ → Prop} {t : τ} {entry : Option (κ × π)}
    (h : A.Makes R t entry) (hR : ∀ t', R t' → R' t') : A.Makes R' t entry := by
  cases entry with
  | none => exact hR t h
  | some entry => exact ⟨hR _ h.1, h.2⟩

theorem Machine.Makes.exists_rel {A : Machine τ κ π} {R : τ → Prop} {t : τ}
    {entry : Option (κ × π)} (h : A.Makes R t entry) : ∃ t', R t' := by
  cases entry with
  | none => exact ⟨t, h⟩
  | some entry => exact ⟨_, h.1⟩

/-- A weak simulation of `M` by `A`: the entry of a guarded step of `M` may show a step of `A`,
which `A` then makes; a step whose entry shows none leaves `A` where it is. -/
structure WeakSimulation (M : Machine σ ι ο) (A : Machine τ κ π) (G : σ → ι → Prop) where
  rel : σ → τ → Prop
  view : ι × ο → Option (κ × π)
  rel_step : ∀ s t i, rel s t → G s i →
    A.Makes (rel (M.step s i).1) t (view (i, (M.step s i).2))

namespace WeakSimulation

variable {M : Machine σ ι ο} {A : Machine τ κ π} {G : σ → ι → Prop}

/-- The inputs of `A` that a run of `M` shows. -/
def inputs (S : WeakSimulation M A G) (s : σ) (is : List ι) : List κ :=
  ((M.trace s is).filterMap S.view).map Prod.fst

/-- A guarded run of `M` ends in a state related to the end of the run of `A` that it shows, and
shows the trace of that run. -/
theorem rel_after_and_trace (S : WeakSimulation M A G) {s : σ} {t : τ} (h : S.rel s t)
    (is : List ι) (hG : M.Guarded G s is) :
    S.rel (M.after s is) (A.after t (S.inputs s is)) ∧
      (M.trace s is).filterMap S.view = A.trace t (S.inputs s is) := by
  induction is generalizing s t with
  | nil => exact ⟨h, rfl⟩
  | cons i is ih =>
    have hmakes := S.rel_step s t i h hG.1
    cases hview : S.view (i, (M.step s i).2) with
    | none =>
      rw [hview] at hmakes
      obtain ⟨hrel, htrace⟩ := ih hmakes hG.2
      simp only [inputs, Machine.trace_cons, List.filterMap_cons, hview]
      exact ⟨hrel, htrace⟩
    | some entry =>
      obtain ⟨k, o⟩ := entry
      rw [hview] at hmakes
      obtain ⟨hnext, houtput⟩ := hmakes
      obtain ⟨hrel, htrace⟩ := ih hnext hG.2
      simp only [inputs, Machine.trace_cons, List.filterMap_cons, hview, List.map_cons,
        Machine.after_cons, houtput]
      exact ⟨hrel, congrArg _ htrace⟩

end WeakSimulation

end Simulation

/-! ## Interleaving of two machines -/

section Interleave

variable {σ : Type u} {ι : Type v} {ο : Type w} {τ : Type u'} {κ : Type v'} {π : Type w'}

/-- Two machines side by side: each input goes to one of them and leaves the other alone. -/
def Machine.interleave (A : Machine σ ι ο) (B : Machine τ κ π) :
    Machine (σ × τ) (ι ⊕ κ) (ο ⊕ π) where
  step
    | (s, t), .inl i => (((A.step s i).1, t), .inl (A.step s i).2)
    | (s, t), .inr k => ((s, (B.step t k).1), .inr (B.step t k).2)

/-- The left component of an entry of an interleaved trace. -/
def leftEntry : (ι ⊕ κ) × (ο ⊕ π) → Option (ι × ο)
  | (.inl i, .inl o) => some (i, o)
  | _ => none

/-- The right component of an entry of an interleaved trace. -/
def rightEntry : (ι ⊕ κ) × (ο ⊕ π) → Option (κ × π)
  | (.inr k, .inr p) => some (k, p)
  | _ => none

variable (A : Machine σ ι ο) (B : Machine τ κ π)

/-- In an interleaving, the left machine answers as if it ran alone on its own inputs. -/
theorem Machine.interleave_trace_left (s : σ) (t : τ) (is : List (ι ⊕ κ)) :
    ((A.interleave B).trace (s, t) is).filterMap leftEntry =
      A.trace s (is.filterMap Sum.getLeft?) := by
  induction is generalizing s t with
  | nil => rfl
  | cons i is ih =>
    cases i with
    | inl i =>
      show (i, (A.step s i).2) :: ((A.interleave B).trace ((A.step s i).1, t) is).filterMap _ = _
      rw [ih]
      rfl
    | inr k => exact ih s (B.step t k).1

/-- In an interleaving, the right machine answers as if it ran alone on its own inputs. -/
theorem Machine.interleave_trace_right (s : σ) (t : τ) (is : List (ι ⊕ κ)) :
    ((A.interleave B).trace (s, t) is).filterMap rightEntry =
      B.trace t (is.filterMap Sum.getRight?) := by
  induction is generalizing s t with
  | nil => rfl
  | cons i is ih =>
    cases i with
    | inl i => exact ih (A.step s i).1 t
    | inr k =>
      show (k, (B.step t k).2) :: ((A.interleave B).trace (s, (B.step t k).1) is).filterMap _ = _
      rw [ih]
      rfl

section Map

variable {ι' : Type*} {ο' : Type*} {κ' : Type*} {π' : Type*}
variable (f : ι → ι') (g : ο → ο') (f' : κ → κ') (g' : π → π')

theorem filterMap_leftEntry_map (t : List ((ι ⊕ κ) × (ο ⊕ π))) :
    (t.map (Prod.map (Sum.map f f') (Sum.map g g'))).filterMap leftEntry =
      (t.filterMap leftEntry).map (Prod.map f g) := by
  rw [List.filterMap_map, List.map_filterMap]
  congr 1
  funext e
  obtain ⟨i | k, o | p⟩ := e <;> rfl

theorem filterMap_rightEntry_map (t : List ((ι ⊕ κ) × (ο ⊕ π))) :
    (t.map (Prod.map (Sum.map f f') (Sum.map g g'))).filterMap rightEntry =
      (t.filterMap rightEntry).map (Prod.map f' g') := by
  rw [List.filterMap_map, List.map_filterMap]
  congr 1
  funext e
  obtain ⟨i | k, o | p⟩ := e <;> rfl

theorem filterMap_getLeft_map (is : List (ι ⊕ κ)) :
    (is.map (Sum.map f f')).filterMap Sum.getLeft? = (is.filterMap Sum.getLeft?).map f := by
  rw [List.filterMap_map, List.map_filterMap]
  congr 1
  funext i
  cases i <;> rfl

theorem filterMap_getRight_map (is : List (ι ⊕ κ)) :
    (is.map (Sum.map f f')).filterMap Sum.getRight? = (is.filterMap Sum.getRight?).map f' := by
  rw [List.filterMap_map, List.map_filterMap]
  congr 1
  funext i
  cases i <;> rfl

end Map

end Interleave

end CComplete.Library
