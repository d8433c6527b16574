-- SUMMARY: Runs of a partial step function over a list of labels, and the invariant rule for them.
import Mathlib.Data.List.Basic

/-!
# Runs

A system is a partial step function `step : σ → ι → Option σ`: a label says what
happens next, and `none` that it cannot happen in this state. A schedule is a
list of labels, so that a concrete interleaving can be evaluated. `Guarded C`
says that every step of a run is taken in a state that meets a condition on the
step; `run_invariant` is the induction over a run.
-/

universe u v

namespace Run

variable {σ : Type u} {ι : Type v}

/-- The state after a schedule, if every step of it can be taken. -/
def run (step : σ → ι → Option σ) (s : σ) : List ι → Option σ
  | [] => some s
  | i :: is => (step s i).bind fun s' => run step s' is

/-- Every step of the schedule is taken in a state that meets the condition. -/
def Guarded (step : σ → ι → Option σ) (C : σ → ι → Prop) (s : σ) : List ι → Prop
  | [] => True
  | i :: is => C s i ∧ match step s i with
    | none => True
    | some s' => Guarded step C s' is

instance Guarded.decidable (step : σ → ι → Option σ) (C : σ → ι → Prop)
    [∀ s i, Decidable (C s i)] (s : σ) (is : List ι) : Decidable (Guarded step C s is) :=
  match is with
  | [] => .isTrue trivial
  | i :: is =>
    match h : step s i with
    | none => decidable_of_iff (C s i) (by simp [Guarded, h])
    | some s' =>
      have := Guarded.decidable step C s' is
      decidable_of_iff (C s i ∧ Guarded step C s' is) (by simp [Guarded, h])

variable {step : σ → ι → Option σ} {C : σ → ι → Prop} {P : σ → Prop}

variable {s : σ} {is : List ι} {s' : σ}

theorem run_cons_eq_some {i : ι} :
    run step s (i :: is) = some s' ↔ ∃ t, step s i = some t ∧ run step t is = some s' := by
  rw [run, Option.bind_eq_some_iff]

theorem Guarded.cons {i : ι} (hC : C s i) (hstep : step s i = some s')
    (h : Guarded step C s' is) : Guarded step C s (i :: is) := by
  refine ⟨hC, ?_⟩
  rw [hstep]
  exact h

theorem Guarded.cons_of_forall {i : ι} (hC : C s i)
    (h : ∀ s', step s i = some s' → Guarded step C s' is) : Guarded step C s (i :: is) := by
  refine ⟨hC, ?_⟩
  cases hstep : step s i with
  | none => trivial
  | some s' => exact h s' hstep

theorem guarded_of_forall (h : ∀ s i, C s i) (s : σ) (is : List ι) : Guarded step C s is := by
  induction is generalizing s with
  | nil => trivial
  | cons i is ih => exact .cons_of_forall (h s i) fun s' _ => ih s'

theorem run_append (s : σ) (is js : List ι) :
    run step s (is ++ js) = (run step s is).bind fun s' => run step s' js := by
  induction is generalizing s with
  | nil => rfl
  | cons i is ih =>
    rw [List.cons_append, run, run]
    cases step s i with
    | none => rfl
    | some s' => exact ih s'

theorem guarded_append {js : List ι} (hrun : run step s is = some s') :
    Guarded step C s (is ++ js) ↔ Guarded step C s is ∧ Guarded step C s' js := by
  induction is generalizing s with
  | nil =>
    cases hrun
    exact (and_iff_right trivial).symm
  | cons i is ih =>
    obtain ⟨t, ht, hrest⟩ := run_cons_eq_some.mp hrun
    simp only [List.cons_append, Guarded, ht, ih hrest, and_assoc]

theorem Guarded.single {i : ι} (hC : C s i) : Guarded step C s [i] :=
  .cons_of_forall hC fun _ _ => trivial

theorem Guarded.concat {i : ι} (h : Guarded step C s is) (hrun : run step s is = some s') (hC : C s' i) :
    Guarded step C s (is ++ [i]) :=
  (guarded_append hrun).mpr ⟨h, .single hC⟩

theorem Guarded.imp {C' : σ → ι → Prop} (himp : ∀ s i, C s i → C' s i)
    (h : Guarded step C s is) : Guarded step C' s is := by
  induction is generalizing s with
  | nil => trivial
  | cons i is ih =>
    obtain ⟨hC, h⟩ := h
    refine .cons_of_forall (himp s i hC) fun s' hstep => ?_
    rw [hstep] at h
    exact ih h

/-- A property that every guarded step preserves holds after every guarded run. -/
theorem run_invariant (hstep : ∀ s i s', P s → C s i → step s i = some s' → P s')
    (hrun : run step s is = some s') (hguard : Guarded step C s is) (hs : P s) : P s' := by
  induction is generalizing s with
  | nil => cases hrun; exact hs
  | cons i is ih =>
    obtain ⟨t, ht, hrest⟩ := run_cons_eq_some.mp hrun
    obtain ⟨hC, hguard⟩ := hguard
    rw [ht] at hguard
    exact ih hrest hguard (hstep s i t hs hC ht)

/-- If every guarded step can be taken and preserves the property, then so does every guarded
run. -/
theorem run_total (hstep : ∀ s i, P s → C s i → ∃ s', step s i = some s' ∧ P s')
    (hguard : Guarded step C s is) (hs : P s) : ∃ s', run step s is = some s' ∧ P s' := by
  induction is generalizing s with
  | nil => exact ⟨s, rfl, hs⟩
  | cons i is ih =>
    obtain ⟨hC, hguard⟩ := hguard
    obtain ⟨t, ht, hP⟩ := hstep s i hs hC
    rw [ht] at hguard
    obtain ⟨s', hrun, hP'⟩ := ih hguard hP
    exact ⟨s', run_cons_eq_some.mpr ⟨t, ht, hrun⟩, hP'⟩

end Run
