-- SUMMARY: Programs that a crash can interrupt between two writes, and preconditions for them.
import Mathlib.Data.List.Basic

/-!
# Programs that can crash

A program of type `Prog σ ε α` changes a state and may fail. A step of it is either a change
in memory or a write that survives a crash. `Outcome.interrupted` lists the states in which
a crash can find the program: the state before each of its writes. What memory loses then
is up to the user of the library.

`wp x Q R C s` says what holds when `x` is run in state `s`: `Q` of the value and the new
state if it succeeds, `R` of the error and the new state if it fails, and `C` of every state
in which a crash can interrupt it.
-/

namespace Crash

structure Outcome (σ ε α : Type) where
  /-- The states before each write. -/
  interrupted : List σ
  result : Except ε α
  state : σ

/-- A program over states `σ` with errors `ε`. -/
def Prog (σ ε α : Type) : Type := σ → Outcome σ ε α

variable {σ τ ε α β : Type}

namespace Prog

protected def pure (a : α) : Prog σ ε α := fun s => ⟨[], .ok a, s⟩

protected def bind (x : Prog σ ε α) (f : α → Prog σ ε β) : Prog σ ε β := fun s =>
  let first := x s
  match first.result with
  | .error e => ⟨first.interrupted, .error e, first.state⟩
  | .ok a =>
    let rest := f a first.state
    { rest with interrupted := first.interrupted ++ rest.interrupted }

instance : Monad (Prog σ ε) where
  pure := Prog.pure
  bind := Prog.bind

instance : MonadExceptOf ε (Prog σ ε) where
  throw e := fun s => ⟨[], .error e, s⟩
  tryCatch x handle := fun s =>
    let first := x s
    match first.result with
    | .ok _ => first
    | .error e =>
      let rest := handle e first.state
      { rest with interrupted := first.interrupted ++ rest.interrupted }

/-- The current state. -/
def get : Prog σ ε σ := fun s => ⟨[], .ok s, s⟩

/-- A change in memory. -/
def modify (f : σ → σ) : Prog σ ε Unit := fun s => ⟨[], .ok (), f s⟩

def ofExcept (x : Except ε α) : Prog σ ε α := fun s => ⟨[], x, s⟩

/-- A write that either happens as a whole or not at all. -/
def write (f : σ → Except ε (α × σ)) : Prog σ ε α := fun s =>
  match f s with
  | .error e => ⟨[s], .error e, s⟩
  | .ok (a, s') => ⟨[s], .ok a, s'⟩

/-- Run a program on a part of the state. -/
def zoom (part : τ → σ) (put : τ → σ → τ) (x : Prog σ ε α) : Prog τ ε α := fun t =>
  let o := x (part t)
  ⟨o.interrupted.map (put t), o.result, put t o.state⟩

/-- Run a program for its errors of another type. -/
def mapError {ε' : Type} (f : ε → ε') (x : Prog σ ε α) : Prog σ ε' α := fun s =>
  let o := x s
  ⟨o.interrupted, o.result.mapError f, o.state⟩

end Prog

/-! ## Preconditions -/

def wp (x : Prog σ ε α) (Q : α → σ → Prop) (R : ε → σ → Prop) (C : σ → Prop) (s : σ) : Prop :=
  (∀ t ∈ (x s).interrupted, C t) ∧
    match (x s).result with
    | .ok a => Q a (x s).state
    | .error e => R e (x s).state

variable {x : Prog σ ε α} {Q Q' : α → σ → Prop} {R R' : ε → σ → Prop} {C C' : σ → Prop} {s : σ}
variable {t : σ}

theorem wp_interrupted (h : wp x Q R C s) (ht : t ∈ (x s).interrupted) : C t := h.1 t ht

variable {a : α}

theorem wp_ok (h : wp x Q R C s) (ha : (x s).result = .ok a) : Q a (x s).state := by
  obtain ⟨_, h⟩ := h
  rw [ha] at h
  exact h

/-- A program that cannot fail returns something. -/
theorem wp_exists_ok (h : wp x Q (fun _ _ => False) C s) :
    ∃ a, (x s).result = .ok a ∧ Q a (x s).state := by
  obtain ⟨_, h⟩ := h
  cases hr : (x s).result with
  | ok a =>
    rw [hr] at h
    exact ⟨a, rfl, h⟩
  | error e =>
    rw [hr] at h
    exact h.elim

theorem wp_error (h : wp x Q R C s) {e : ε} (he : (x s).result = .error e) : R e (x s).state := by
  obtain ⟨_, h⟩ := h
  rw [he] at h
  exact h

/-- What holds after success and after failure holds of the final state. -/
theorem wp_state {P : σ → Prop} (h : wp x (fun _ => P) (fun _ => P) C s) : P (x s).state := by
  obtain ⟨_, h⟩ := h
  cases hr : (x s).result with
  | ok a | error e =>
    rw [hr] at h
    exact h

theorem wp_mono (h : wp x Q R C s) (hQ : ∀ a t, Q a t → Q' a t) (hR : ∀ e t, R e t → R' e t)
    (hC : ∀ t, C t → C' t) : wp x Q' R' C' s := by
  obtain ⟨hint, h⟩ := h
  refine ⟨fun t ht => hC t (hint t ht), ?_⟩
  cases hr : (x s).result with
  | ok a =>
    rw [hr] at h
    exact hQ a _ h
  | error e =>
    rw [hr] at h
    exact hR e _ h

/-- The rule of consequence where the failures and the crashes stay as they are. -/
theorem wp_conseq (h : wp x Q R C s) (hQ : ∀ a t, Q a t → Q' a t) : wp x Q' R C s :=
  wp_mono h hQ (fun _ _ herr => herr) fun _ ht => ht

theorem wp_total (h : wp x Q (fun _ _ => False) C s) (hQ : ∀ a t, Q a t → Q' a t)
    (hC : ∀ t, C t → C' t) : wp x Q' R C' s :=
  wp_mono h hQ (fun _ _ hfalse => hfalse.elim) hC

theorem wp_of_ok (hx : x s = ⟨[], .ok a, t⟩) : wp x Q R C s ↔ Q a t := by
  unfold wp
  rw [hx]
  simp

theorem wp_of_error {e : ε} (hx : x s = ⟨[], .error e, t⟩) : wp x Q R C s ↔ R e t := by
  unfold wp
  rw [hx]
  simp

@[simp] theorem wp_pure (a : α) : wp (pure a) Q R C s ↔ Q a s := wp_of_ok rfl

@[simp] theorem wp_throw (e : ε) : wp (throw e) Q R C s ↔ R e s := wp_of_error rfl

@[simp] theorem wp_get {Q : σ → σ → Prop} : wp Prog.get Q R C s ↔ Q s s := wp_of_ok rfl

@[simp] theorem wp_modify {Q : Unit → σ → Prop} (f : σ → σ) :
    wp (Prog.modify f) Q R C s ↔ Q () (f s) := wp_of_ok rfl

theorem wp_ofExcept_ok {v : Except ε α} (hv : v = .ok a) :
    wp (Prog.ofExcept v) Q R C s ↔ Q a s := by
  subst hv
  exact wp_of_ok rfl

variable {f : α → Prog σ ε β}

theorem wp_bind {Q : β → σ → Prop} :
    wp (x >>= f) Q R C s ↔ wp x (fun a t => wp (f a) Q R C t) R C s := by
  change wp (Prog.bind x f) Q R C s ↔ _
  unfold wp Prog.bind
  cases hr : (x s).result with
  | ok a => simp only [hr, List.mem_append, or_imp, forall_and, and_assoc]
  | error e => simp only [hr]

theorem wp_seq {Q' : β → σ → Prop} (h : wp x Q R C s)
    (hf : ∀ a t, Q a t → wp (f a) Q' R C t) : wp (x >>= f) Q' R C s :=
  wp_bind.mpr (wp_conseq h hf)

theorem wp_get_bind {f : σ → Prog σ ε β} {Q : β → σ → Prop} (h : wp (f s) Q R C s) :
    wp (Prog.get >>= f) Q R C s :=
  wp_bind.mpr (wp_get.mpr h)

variable {f : σ → Except ε (α × σ)}

theorem wp_write {s' : σ} (hf : f s = .ok (a, s')) : wp (Prog.write f) Q R C s ↔ C s ∧ Q a s' := by
  unfold wp Prog.write
  rw [hf]
  simp only [List.mem_singleton, forall_eq]

theorem wp_write_iff : wp (Prog.write f) Q R C s ↔ C s ∧ match f s with
      | .ok r => Q r.1 r.2
      | .error e => R e s := by
  unfold wp Prog.write
  cases f s <;> simp only [List.mem_singleton, forall_eq]

theorem wp_zoom {part : τ → σ} {put : τ → σ → τ} {Q : α → τ → Prop} {R : ε → τ → Prop}
    {C : τ → Prop} {t : τ} :
    wp (Prog.zoom part put x) Q R C t ↔
      wp x (fun a u => Q a (put t u)) (fun e u => R e (put t u)) (fun u => C (put t u)) (part t) := by
  unfold wp Prog.zoom
  simp only [List.mem_map, forall_exists_index, and_imp, forall_apply_eq_imp_iff₂]

theorem wp_mapError {ε' : Type} {f : ε → ε'} {R : ε' → σ → Prop} :
    wp (Prog.mapError f x) Q R C s ↔ wp x Q (fun e => R (f e)) C s := by
  unfold wp Prog.mapError
  cases hr : (x s).result <;> simp only [hr, Except.mapError]

/-- A loop with an accumulator. The invariant speaks about the elements that are left. -/
theorem wp_foldlM {f : β → α → Prog σ ε β} (I : List α → β → σ → Prop)
    (hstep : ∀ a rest b s, I (a :: rest) b s → wp (f b a) (I rest) R C s) (l : List α) {b : β}
    (h : I l b s) : wp (l.foldlM f b) (I []) R C s := by
  induction l generalizing b s with
  | nil => exact (wp_pure _).mpr h
  | cons a rest ih =>
    apply wp_seq (hstep a rest b s h)
    intro b' t hinv
    exact ih hinv

/-- A loop whose invariant speaks about the elements that are done. -/
theorem wp_foldlM_done {f : β → α → Prog σ ε β} {l : List α} (I : List α → β → σ → Prop)
    (hstep : ∀ done a rest b s, done ++ a :: rest = l → I done b s → wp (f b a) (I (done ++ [a])) R C s)
    {b : β} (h : I [] b s) : wp (l.foldlM f b) (I l) R C s := by
  apply wp_conseq (wp_foldlM (fun rest b s => ∃ done, done ++ rest = l ∧ I done b s) ?_ l ⟨[], rfl, h⟩)
  · rintro b' t ⟨done, rfl, hinv⟩
    rwa [List.append_nil]
  · rintro a rest b s ⟨done, hl, hinv⟩
    apply wp_conseq (hstep done a rest b s hl hinv)
    exact fun b' t hinv' => ⟨done ++ [a], (List.append_assoc ..).trans hl, hinv'⟩

end Crash
