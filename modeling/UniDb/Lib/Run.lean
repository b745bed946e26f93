import Mathlib.Logic.Basic

/-!
# Runs of a Step Function

Whole runs of a system that takes one action at a time, and the induction
rules that carry a property of one step to every run.

A step is a partial function: `none` says that the action is not enabled in
that state. A run is a list of actions, so an interleaving of several parties
is a run whose list mixes their actions in any order.

## Main definitions

* `run`: The state a list of actions leads to.
* `EveryStep`: A condition that holds before each step of a run.

## Theorems

* `run_append`: One run after another.
* `run_invariant`: What every step keeps holds after every run.
* `run_invariant_of_everyStep`: The same for steps that meet a condition.
* `run_some`: Steps that are always enabled.
* `forall_prefix_iff_everyStep`: A run keeps an invariant exactly if its steps
  meet the condition that keeps it.
* `run_le_of_step_le`: A measure no step lowers is not lowered by a run.
* `run_length_add_le`: A measure that steps lower bounds the length of a run.
-/

namespace UniDb

open Option

variable {σ α : Type} (step : σ → α → Option σ)

/-- The state that a list of actions leads to, or `none` if one of them is not
    enabled when its turn comes. -/
def run : σ → List α → Option σ
  | s, [] => some s
  | s, a :: as => match step s a with
    | none => none
    | some s' => run s' as

/-- Every action of the list meets the condition `C` in the state it is taken from. -/
def EveryStep (C : σ → α → Prop) : σ → List α → Prop
  | _, [] => True
  | s, a :: as => C s a ∧ ∀ s', step s a = some s' → EveryStep C s' as

variable {step} {s t : σ} {as : List α}

theorem run_cons {a : α} (h : run step s (a :: as) = some t) :
    ∃ s', step s a = some s' ∧ run step s' as = some t := by
  simp only [run] at h
  cases hs : step s a with
  | none => simp [hs] at h
  | some s' =>
    rw [hs] at h
    exact ⟨s', rfl, h⟩

variable {C : σ → α → Prop}

theorem run_append {bs : List α} (h : run step s as = some t) :
    run step s (as ++ bs) = run step t bs := by
  induction as generalizing s with
  | nil =>
    rw [some.inj h]
    rfl
  | cons a as ih =>
    rcases run_cons h with ⟨s', hs', hr⟩
    simp only [List.cons_append, run, hs']
    exact ih hr

theorem everyStep_cons {s' : σ} {a : α} (hC : C s a) (hs : step s a = some s')
    (h : EveryStep step C s' as) : EveryStep step C s (a :: as) := by
  refine ⟨hC, ?_⟩
  intro t ht
  rw [hs, some.injEq] at ht
  exact ht ▸ h

/-- A condition that can be checked can be checked along a run. -/
instance EveryStep.decidable {C : σ → α → Prop} [∀ s a, Decidable (C s a)] :
    ∀ (s : σ) (as : List α), Decidable (EveryStep step C s as)
  | _, [] => isTrue trivial
  | s, a :: as => by
      unfold EveryStep
      cases step s a with
      | none => exact decidable_of_iff (C s a) (by simp)
      | some s' =>
        have := EveryStep.decidable (C := C) s' as
        exact decidable_of_iff (C s a ∧ EveryStep step C s' as) (by simp)

variable {I : σ → Prop}

/-- An invariant of the step function holds after every run. -/
theorem run_invariant (hstep : ∀ s a s', I s → step s a = some s' → I s') (hs : I s)
    (h : run step s as = some t) : I t := by
  induction as generalizing s with
  | nil =>
    simp only [run, some.injEq] at h
    exact h ▸ hs
  | cons a as ih =>
    rcases run_cons h with ⟨s', hs', hr⟩
    exact ih (hstep s a s' hs hs') hr

/-- An invariant that only steps meeting a condition keep holds after every
    run whose steps all meet it. -/
theorem run_invariant_of_everyStep (hstep : ∀ s a s', I s → C s a → step s a = some s' → I s')
    (hs : I s) (hC : EveryStep step C s as) (h : run step s as = some t) : I t := by
  induction as generalizing s with
  | nil =>
    simp only [run, some.injEq] at h
    exact h ▸ hs
  | cons a as ih =>
    rcases run_cons h with ⟨s', hs', hr⟩
    exact ih (hstep s a s' hs hC.1 hs') (hC.2 s' hs') hr

/-- A run of steps that are always enabled. -/
theorem run_some (f : σ → α → σ) (s : σ) (as : List α) :
    run (fun s a => some (f s a)) s as = some (as.foldl f s) := by
  induction as generalizing s with
  | nil => rfl
  | cons a as ih =>
    simp only [run, List.foldl_cons]
    exact ih (f s a)

/-- If exactly the steps that meet a condition keep a property, then a run keeps it throughout
    exactly if all its steps meet the condition. `J` is what every step keeps anyway. -/
theorem forall_prefix_iff_everyStep {J : σ → Prop} (hJ : ∀ s a s', J s → step s a = some s' → J s')
    (hstep : ∀ s a s', J s → I s → step s a = some s' → (I s' ↔ C s a)) (hj : J s) (hs : I s)
    (hrun : run step s as = some t) :
    (∀ pre u, pre <+: as → run step s pre = some u → I u) ↔ EveryStep step C s as := by
  induction as generalizing s with
  | nil =>
    refine ⟨fun _ => trivial, ?_⟩
    intro _ pre u hpre hu
    rw [List.prefix_nil.mp hpre] at hu
    exact some.inj hu ▸ hs
  | cons a as ih =>
    rcases run_cons hrun with ⟨s', hs', hrest⟩
    have hiff := hstep s a s' hj hs hs'
    have hj' := hJ s a s' hj hs'
    constructor
    · intro h
      have hI : I s' := h [a] s' (List.prefix_append [a] as) (by simp only [run, hs'])
      refine ⟨hiff.mp hI, ?_⟩
      intro u hu
      rw [hs', some.injEq] at hu
      subst hu
      refine (ih hj' hI hrest).mp ?_
      intro pre u hpre hu
      refine h (a :: pre) u (List.cons_prefix_cons.mpr ⟨rfl, hpre⟩) ?_
      simp only [run, hs', hu]
    · rintro ⟨hC, hC'⟩ pre u hpre hu
      cases pre with
      | nil => exact some.inj hu ▸ hs
      | cons b pre =>
        -- the prefix takes the same first step
        rcases List.cons_prefix_cons.mp hpre with ⟨rfl, hpre'⟩
        simp only [run, hs'] at hu
        exact (ih hj' (hiff.mpr hC) hrest).mpr (hC' s' hs') pre u hpre' hu

theorem run_le_of_step_le (f : σ → Nat)
    (hstep : ∀ s a s', I s → step s a = some s' → I s' ∧ f s ≤ f s') (hs : I s)
    (h : run step s as = some t) : f s ≤ f t := by
  have hle : I t ∧ f s ≤ f t := by
    refine run_invariant (I := fun u => I u ∧ f s ≤ f u) ?_ ⟨hs, Nat.le_refl _⟩ h
    rintro u a u' ⟨hu, hfu⟩ hstep'
    rcases hstep u a u' hu hstep' with ⟨hu', hle⟩
    exact ⟨hu', Nat.le_trans hfu hle⟩
  exact hle.2

/-- A run of steps that all lower a measure is no longer than the measure. -/
theorem run_length_add_le {P : α → Prop} (f : σ → Nat)
    (hstep : ∀ s a s', P a → step s a = some s' → f s' < f s) (has : ∀ a ∈ as, P a)
    (h : run step s as = some t) : as.length + f t ≤ f s := by
  induction as generalizing s with
  | nil =>
    simp only [run, some.injEq] at h
    rw [h, List.length_nil]
    omega
  | cons a as ih =>
    rcases run_cons h with ⟨s', hs', hr⟩
    rw [List.forall_mem_cons] at has
    have hlt := hstep s a s' has.1 hs'
    have hle := ih has.2 hr
    rw [List.length_cons]
    omega

end UniDb
