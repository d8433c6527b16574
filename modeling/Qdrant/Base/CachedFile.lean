-- SUMMARY: Memory-mapped files: what readers see, and what a crash may leave on disk.
import Mathlib.Data.List.Basic

/-!
# Cached files

A memory-mapped file has a content that every reader of the mapping sees, and a state on
disk that follows it at a pace the program does not know. Only a sync says that the two are
equal. Between two syncs the system may have stored any of the writes at any place, so after
a crash a place holds what it held at the last sync or what some later write put there.
-/

/-- A file over places `ι` with values `α`. -/
structure CachedFile (ι α : Type) where
  /-- What readers see. -/
  content : ι → α
  /-- The content at the last sync. -/
  synced : ι → α
  /-- The writes since then, each with the places it covers. -/
  unsynced : List (ι → Option α)
  /-- What readers see may already be on disk. -/
  content_mayHold : ∀ i, synced i = content i ∨ ∃ w ∈ unsynced, w i = some (content i)

namespace CachedFile

variable {ι α : Type}

/-- A file with nothing left to sync. -/
def ofContent (content : ι → α) : CachedFile ι α where
  content := content
  synced := content
  unsynced := []
  content_mayHold _ := .inl rfl

section

variable (f : CachedFile ι α)

/-- Write at the places where `w` has a value. -/
def write (w : ι → Option α) : CachedFile ι α where
  content i := (w i).getD (f.content i)
  synced := f.synced
  unsynced := w :: f.unsynced
  content_mayHold i := by
    cases hw : w i with
    | some a => exact .inr ⟨w, List.mem_cons_self, hw⟩
    | none =>
      rcases f.content_mayHold i with h | ⟨v, hv, h⟩
      · exact .inl h
      · exact .inr ⟨v, List.mem_cons_of_mem w hv, h⟩

/-- Write at one place. -/
def writeAt [DecidableEq ι] (i : ι) (a : α) : CachedFile ι α :=
  f.write fun j => if j = i then some a else none

def sync : CachedFile ι α := ofContent f.content

/-- After a crash the place `i` may hold `a`. -/
def MayHold (i : ι) (a : α) : Prop :=
  f.synced i = a ∨ ∃ w ∈ f.unsynced, w i = some a

/-- A state of the disk that a crash may leave. -/
def Survives (disk : ι → α) : Prop := ∀ i, f.MayHold i (disk i)

/-- Whatever a crash leaves at `i` is what readers see there. -/
def Settled (i : ι) : Prop := ∀ a, f.MayHold i a → a = f.content i

end

variable {f : CachedFile ι α} {w : ι → Option α} {i : ι} {a : α}

@[simp] theorem content_ofContent (content : ι → α) : (ofContent content).content = content := rfl

theorem content_write : (f.write w).content i = (w i).getD (f.content i) := rfl

theorem content_writeAt [DecidableEq ι] (j : ι) :
    (f.writeAt i a).content j = if j = i then a else f.content j := by
  rw [writeAt, content_write]
  split <;> rfl

@[simp] theorem content_sync : f.sync.content = f.content := rfl

theorem mayHold_ofContent {content : ι → α} : (ofContent content).MayHold i a ↔ content i = a := by
  simp [MayHold, ofContent]

theorem mayHold_write : (f.write w).MayHold i a ↔ w i = some a ∨ f.MayHold i a := by
  simp only [MayHold, write, List.mem_cons, exists_eq_or_imp]
  exact or_left_comm

theorem mayHold_writeAt [DecidableEq ι] {j : ι} {b : α} :
    (f.writeAt i a).MayHold j b ↔ (j = i ∧ a = b) ∨ f.MayHold j b := by
  rw [writeAt, mayHold_write]
  simp only [Option.ite_none_right_eq_some, Option.some.injEq]

@[simp] theorem mayHold_sync : f.sync.MayHold i a ↔ f.content i = a := mayHold_ofContent

theorem survives_content (f : CachedFile ι α) : f.Survives f.content := f.content_mayHold

theorem settled_ofContent (content : ι → α) (i : ι) : (ofContent content).Settled i := by
  intro a ha
  exact (mayHold_ofContent.mp ha).symm

theorem settled_sync (i : ι) : f.sync.Settled i := settled_ofContent f.content i

end CachedFile
