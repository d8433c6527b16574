-- SUMMARY: Threads that change a shared state in lock sections, and the invariant rule for all their interleavings.
import Mathlib.Data.List.Basic

/-!
# Threads

A thread is the tree of its lock sections: each one changes the shared state at once,
and what the thread does next may depend on the state it saw. A schedule names the
thread of each section in turn, so a concrete interleaving can be evaluated. What every
section of every thread keeps holds after every schedule (`runThreads_keeps`).
-/

universe u

namespace Threads

variable {σ : Type u}

inductive Thread (σ : Type u) where
  | done
  /-- The rest of the thread is chosen by the state before the section. -/
  | lock (change : σ → σ) (next : σ → Thread σ)

namespace Thread

def isDone : Thread σ → Bool
  | done => true
  | lock _ _ => false

def andThen : Thread σ → Thread σ → Thread σ
  | done, thread => thread
  | lock change next, thread => lock change fun s => (next s).andThen thread

/-- One after the other. -/
def sequence (threads : List (Thread σ)) : Thread σ :=
  threads.foldr andThen done

/-- Every section keeps the invariant, also if other threads change the state between sections. -/
def Keeps (I : σ → Prop) : Thread σ → Prop
  | done => True
  | lock change next => ∀ s, I s → I (change s) ∧ (next s).Keeps I

variable {I : σ → Prop} {thread thread' : Thread σ}

theorem Keeps.andThen (h : thread.Keeps I) (h' : thread'.Keeps I) : (thread.andThen thread').Keeps I := by
  induction thread with
  | done => exact h'
  | lock change next ih =>
    intro s hs
    obtain ⟨hchange, hnext⟩ := h s hs
    exact ⟨hchange, ih s hnext⟩

theorem Keeps.sequence {threads : List (Thread σ)} (h : ∀ thread ∈ threads, thread.Keeps I) :
    (Thread.sequence threads).Keeps I := by
  induction threads with
  | nil => trivial
  | cons thread threads ih =>
    apply Keeps.andThen (h thread List.mem_cons_self)
    exact ih fun thread hmem => h thread (List.mem_cons_of_mem _ hmem)

end Thread

/-- The state after all threads are done, if the schedule gets there. -/
def runThreads : List Nat → List (Thread σ) → σ → Option σ
  | [], threads, s => if threads.all Thread.isDone then some s else none
  | i :: schedule, threads, s =>
    match threads[i]? with
    | some (.lock change next) => runThreads schedule (threads.set i (next s)) (change s)
    | _ => none

variable {I : σ → Prop} {threads : List (Thread σ)} {s s' : σ}

theorem runThreads_keeps {schedule : List Nat} (h : ∀ thread ∈ threads, thread.Keeps I) (hs : I s)
    (hrun : runThreads schedule threads s = some s') : I s' := by
  induction schedule generalizing threads s with
  | nil =>
    rw [runThreads] at hrun
    split at hrun
    · cases hrun
      exact hs
    · cases hrun
  | cons i schedule ih =>
    rw [runThreads] at hrun
    split at hrun
    next change next hget =>
      obtain ⟨hchange, hnext⟩ := h _ (List.mem_of_getElem? hget) s hs
      refine ih (fun thread hmem => ?_) hchange hrun
      rcases List.mem_or_eq_of_mem_set hmem with hmem | rfl
      · exact h thread hmem
      · exact hnext
    next => cases hrun

/-! ## Schedules exist -/

/-- A thread can be run to its end before the others. -/
theorem exists_runThreads_cons (thread : Thread σ)
    (hrest : ∀ s, ∃ schedule s', runThreads schedule (.done :: threads) s = some s') :
    ∃ schedule s', runThreads schedule (thread :: threads) s = some s' := by
  induction thread generalizing s with
  | done => exact hrest s
  | lock change next ih =>
    obtain ⟨schedule, s', hrun⟩ := ih s (s := change s)
    exact ⟨0 :: schedule, s', hrun⟩

theorem runThreads_done (schedule : List Nat) :
    runThreads (schedule.map (· + 1)) (.done :: threads) s = runThreads schedule threads s := by
  induction schedule generalizing threads s with
  | nil => rfl
  | cons i schedule ih =>
    simp only [List.map_cons, runThreads, List.getElem?_cons_succ, List.set_cons_succ]
    split
    · exact ih
    · rfl

theorem exists_runThreads (threads : List (Thread σ)) (s : σ) :
    ∃ schedule s', runThreads schedule threads s = some s' := by
  induction threads generalizing s with
  | nil => exact ⟨[], s, rfl⟩
  | cons thread threads ih =>
    apply exists_runThreads_cons
    intro s
    obtain ⟨schedule, s', hrun⟩ := ih s
    exact ⟨schedule.map (· + 1), s', (runThreads_done schedule).trans hrun⟩

end Threads
