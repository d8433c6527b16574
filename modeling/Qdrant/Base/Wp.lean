-- SUMMARY: Weakest preconditions for computations that change a state and may fail.
import Mathlib.Data.List.Basic

/-!
# Weakest preconditions

A computation of type `EStateM ε σ α` reads and changes a state and may fail; a
failure keeps the changes made before it. `wp x Q R s` says what holds when `x` is
run in state `s`: `Q` of the value and the new state if it succeeds, `R` of the
error and the new state if it fails. With `R` always true this is partial
correctness, with `R` always false it says that `x` succeeds.

There is one rule per construct, and one invariant rule for loops.
-/

universe u

namespace Wp

variable {ε σ α β : Type u}

def wp (x : EStateM ε σ α) (Q : α → σ → Prop) (R : ε → σ → Prop) (s : σ) : Prop :=
  match x s with
  | .ok a s' => Q a s'
  | .error e s' => R e s'

variable {x : EStateM ε σ α} {Q Q' : α → σ → Prop} {R R' : ε → σ → Prop} {s s' : σ}

/-! ## From and to results -/

theorem wp_ok {a : α} (h : wp x Q R s) (hx : x s = .ok a s') : Q a s' := by
  rw [wp, hx] at h
  exact h

/-- The state after a computation, whether it succeeds or fails. -/
def finalState (x : EStateM ε σ α) (s : σ) : σ :=
  match x s with
  | .ok _ s' => s'
  | .error _ s' => s'

theorem finalState_of_wp {P : σ → Prop} (h : wp x (fun _ => P) (fun _ => P) s) :
    P (finalState x s) := by
  unfold wp at h
  unfold finalState
  cases hx : x s with
  | ok a s' | error e s' =>
    rw [hx] at h
    exact h

def succeeds (x : EStateM ε σ α) (s : σ) : Bool :=
  match x s with
  | .ok .. => true
  | .error .. => false

theorem exists_ok (h : wp x Q R s) (hx : succeeds x s = true) : ∃ a s', x s = .ok a s' ∧ Q a s' := by
  unfold succeeds at hx
  cases hresult : x s with
  | ok a s' => exact ⟨a, s', rfl, wp_ok h hresult⟩
  | error e s' =>
    rw [hresult] at hx
    cases hx

theorem wp_mono (h : wp x Q R s) (hQ : ∀ a s, Q a s → Q' a s) (hR : ∀ e s, R e s → R' e s) :
    wp x Q' R' s := by
  unfold wp at h ⊢
  cases hx : x s with
  | ok a s' =>
    rw [hx] at h
    exact hQ a s' h
  | error e s' =>
    rw [hx] at h
    exact hR e s' h

/-- The rule of consequence where the failures stay as they are. -/
theorem wp_conseq (h : wp x Q R s) (hQ : ∀ a s, Q a s → Q' a s) : wp x Q' R s :=
  wp_mono h hQ fun _ _ herr => herr

/-! ## Rules for the constructs -/

@[simp] theorem wp_pure (a : α) : wp (pure a) Q R s = Q a s := rfl

@[simp] theorem wp_throw (e : ε) : wp (throw e) Q R s = R e s := rfl

@[simp] theorem wp_get {Q : σ → σ → Prop} : wp get Q R s = Q s s := rfl

variable {Q : PUnit → σ → Prop}

@[simp] theorem wp_modify (f : σ → σ) : wp (modify f) Q R s = Q ⟨⟩ (f s) := rfl

variable {f : α → EStateM ε σ β}

@[simp] theorem wp_bind {Q : β → σ → Prop} :
    wp (x >>= f) Q R s = wp x (fun a => wp (f a) Q R) R s := by
  change wp (EStateM.bind x f) Q R s = _
  unfold wp EStateM.bind
  cases x s <;> rfl

theorem wp_seq {Q : α → σ → Prop} {Q' : β → σ → Prop} (h : wp x Q R s)
    (hf : ∀ a s, Q a s → wp (f a) Q' R s) : wp (x >>= f) Q' R s := by
  rw [wp_bind]
  exact wp_conseq h hf

@[simp] theorem wp_map {f : α → β} {Q : β → σ → Prop} :
    wp (f <$> x) Q R s = wp x (fun a => Q (f a)) R s := by
  change wp (EStateM.map f x) Q R s = _
  unfold wp EStateM.map
  cases x s <;> rfl

@[simp] theorem wp_discard : wp (discard x) Q R s = wp x (fun _ => Q ⟨⟩) R s := wp_map

/-! ## Loops -/

variable {f : β → α → EStateM ε σ β}

/-- A loop with an accumulator. The invariant speaks about the elements that are left. -/
theorem wp_foldlM (I : List α → β → σ → Prop)
    (hstep : ∀ a rest b s, I (a :: rest) b s → wp (f b a) (I rest) R s) (l : List α) {b : β}
    (h : I l b s) : wp (l.foldlM f b) (I []) R s := by
  induction l generalizing b s with
  | nil => exact h
  | cons a rest ih =>
    rw [List.foldlM_cons, wp_bind]
    apply wp_conseq (hstep a rest b s h)
    intro b' s' hinv
    exact ih hinv

/-- A loop without an accumulator. -/
theorem wp_forM {f : α → EStateM ε σ PUnit} (I : List α → σ → Prop)
    (hstep : ∀ a rest s, I (a :: rest) s → wp (f a) (fun _ => I rest) R s) (l : List α)
    (h : I l s) : wp (l.forM f) (fun _ => I []) R s := by
  induction l generalizing s with
  | nil => exact h
  | cons a rest ih =>
    apply wp_seq (hstep a rest s h)
    intro _ s' hinv
    exact ih hinv

end Wp
