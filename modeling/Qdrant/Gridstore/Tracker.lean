-- SUMMARY: Gridstore's tracker: where each value is, which pointers are still to be written, which are to be freed.
import Qdrant.Gridstore.Pages
import Qdrant.Base.HashMap

/-!
# Tracker

Source: `lib/gridstore/src/tracker.rs`.

The tracker file has one entry per point. Changes are collected in memory and written to the
file by a flusher, which works on a copy of them that it took when it was created. What the
flusher has written is then drained from the changes that are still pending.
-/

namespace Qdrant.Gridstore

open Crash List

/-! ## Pending updates of a point -/

/-- `PointerUpdates`. -/
structure PointerUpdates where
  current : Option ValuePointer
  toFree : List ValuePointer
  deriving DecidableEq, Repr

namespace PointerUpdates

/-- `PointerUpdates::default`. -/
def empty : PointerUpdates := ⟨none, []⟩

def set (u : PointerUpdates) (pointer : ValuePointer) : PointerUpdates :=
  if u.current = some pointer then u
  else match u.current with
    | some oldPointer => ⟨some pointer, u.toFree ++ [oldPointer]⟩
    | none => ⟨some pointer, u.toFree⟩

def unset (u : PointerUpdates) (pointer : ValuePointer) : PointerUpdates :=
  match u.current with
  | some oldPointer =>
    if oldPointer ≠ pointer then ⟨none, u.toFree ++ [oldPointer] ++ [pointer]⟩
    else ⟨none, u.toFree ++ [pointer]⟩
  | none => ⟨none, u.toFree ++ [pointer]⟩

def isEmpty (u : PointerUpdates) : Bool := u.current.isNone && u.toFree.isEmpty

/-- `drain_persisted`: what is left of the updates. -/
def drainPersisted (u persisted : PointerUpdates) : PointerUpdates :=
  if u = persisted then empty
  else
    { current := if u.current.isSome && u.current == persisted.current then none else u.current
      toFree := u.toFree.filter fun pointer => !persisted.toFree.contains pointer }

/-- The pointers that `write_pending` returns for a point: the one it overwrites in the file,
if it stores a new one, and those that were to be freed. -/
def freed (u : PointerUpdates) (raw : Option ValuePointer) : List ValuePointer :=
  (if u.current.isSome then raw.toList else []) ++ u.toFree

theorem isEmpty_iff {u : PointerUpdates} : u.isEmpty = true ↔ u.current = none ∧ u.toFree = [] := by
  simp [isEmpty]

section

variable (u : PointerUpdates) (pointer : ValuePointer)

@[simp] theorem current_set : (u.set pointer).current = some pointer := by
  rw [set]
  split
  case isTrue heq => exact heq
  case isFalse => split <;> rfl

@[simp] theorem current_unset : (u.unset pointer).current = none := by
  rw [unset]
  split
  · split <;> rfl
  · rfl

end

end PointerUpdates

/-! ## Tracker -/

structure Tracker where
  /-- Length of the file in bytes. -/
  storageLen : Nat
  /-- The count of pointers in the header of the file. -/
  header : Nat
  entries : CachedFile Nat (Option ValuePointer)
  pendingUpdates : HashMap Nat PointerUpdates
  nextPointerOffset : Nat

namespace Tracker

def headerSize : Nat := 4

def entrySize : Nat := 16

def defaultSize : Nat := 1024 * 1024

/-- The end of the entry of a point in the file. -/
def endOffset (pointOffset : Nat) : Nat := headerSize + pointOffset * entrySize + entrySize

def nextPowerOfTwo (n : Nat) : Nat := 2 ^ Nat.clog 2 n

/-- `Tracker::new`. -/
def new : Tracker where
  storageLen := defaultSize
  header := 0
  entries := .ofContent fun _ => none
  pendingUpdates := ∅
  nextPointerOffset := 0

/-- `Tracker::open` on the file of this tracker. -/
def reopen (t : Tracker) : Tracker :=
  { t with pendingUpdates := ∅, nextPointerOffset := t.header }

section

variable (t : Tracker) (pointOffset : Nat)

/-- `get_raw`. -/
def getRaw : Option (Option ValuePointer) :=
  if t.storageLen < endOffset pointOffset then none else some (t.entries.content pointOffset)

/-- `Tracker::get`. -/
def get : Option ValuePointer :=
  match t.pendingUpdates.get? pointOffset with
  | some pending => if pending.isEmpty then (t.getRaw pointOffset).join else pending.current
  | none => (t.getRaw pointOffset).join

/-- `Tracker::set`. -/
def set (valuePointer : ValuePointer) : Tracker :=
  { t with
    pendingUpdates := t.pendingUpdates.insert pointOffset
      (((t.pendingUpdates.get? pointOffset).getD .empty).set valuePointer)
    nextPointerOffset := Nat.max t.nextPointerOffset ((pointOffset + 1) % 2 ^ 32) }

/-- `Tracker::unset`, with the previous pointer. -/
def unset : Option ValuePointer × Tracker :=
  match t.get pointOffset with
  | none => (none, t)
  | some pointer => (some pointer, { t with
      pendingUpdates := t.pendingUpdates.insert pointOffset
        (((t.pendingUpdates.get? pointOffset).getD .empty).unset pointer) })

end

/-- `persist_pointer`. The first test of the source compares the point offset with the length
of the file in bytes. -/
def persistPointer (pointOffset : Nat) (pointer : Option ValuePointer) :
    Prog Tracker GridstoreError Unit := do
  let t ← Prog.get
  if pointer = none ∧ t.storageLen ≤ pointOffset then return ()
  else
    if t.storageLen < endOffset pointOffset then
      Prog.write fun t => .ok ((), { t with
        entries := t.entries.sync, storageLen := nextPowerOfTwo (endOffset pointOffset) })
    Prog.write fun t => .ok ((), { t with entries := t.entries.writeAt pointOffset pointer })

/-- Remove what has been persisted for a point from its pending updates. -/
def drain (pointOffset : Nat) (updates : PointerUpdates) (t : Tracker) : Tracker :=
  match t.pendingUpdates.get? pointOffset with
  | none => t
  | some latestUpdates =>
    if (latestUpdates.drainPersisted updates).isEmpty then
      { t with pendingUpdates := t.pendingUpdates.erase pointOffset }
    else { t with
      pendingUpdates := t.pendingUpdates.insert pointOffset (latestUpdates.drainPersisted updates) }

/-- The updates of one point in `write_pending`. -/
def writeUpdates (pointOffset : Nat) (updates : PointerUpdates) (oldPointers : List ValuePointer) :
    Prog Tracker GridstoreError (List ValuePointer) := do
  let t ← Prog.get
  persistPointer pointOffset updates.current
  Prog.modify (drain pointOffset updates)
  return oldPointers ++ updates.freed (t.getRaw pointOffset).join

/-- `write_pending`, with the order in which the hash map is walked. -/
def writePending (order : IterOrder Nat) (pendingUpdates : HashMap Nat PointerUpdates) :
    Prog Tracker GridstoreError (List ValuePointer) := do
  let oldPointers ← (order.walk pendingUpdates.keys).foldlM (fun oldPointers pointOffset =>
    match pendingUpdates.get? pointOffset with
    | none => pure oldPointers
    | some updates => writeUpdates pointOffset updates oldPointers) []
  Prog.write fun t => .ok ((), { t with header := t.nextPointerOffset })
  return oldPointers

/-- `Tracker::flusher`. -/
def flush : Prog Tracker GridstoreError Unit :=
  Prog.write fun t => .ok ((), { t with entries := t.entries.sync })

/-! ## What the operations do -/

/-- Nothing is written behind the end of the file, and no pending update is empty. -/
structure Valid (t : Tracker) : Prop where
  none_beyond : ∀ i o, t.storageLen < endOffset i → t.entries.MayHold i o → o = none
  pending_ne : ∀ i u, t.pendingUpdates.get? i = some u → u.isEmpty = false

theorem valid_new : new.Valid where
  none_beyond _ _ _ h := (CachedFile.mayHold_ofContent.mp h).symm
  pending_ne i u h := by
    cases h

variable {t : Tracker}

/-- What a reader sees of a point when these updates are pending for it. -/
def seen (raw : Option ValuePointer) : Option PointerUpdates → Option ValuePointer
  | some u => u.current
  | none => raw

theorem Valid.get_eq (h : t.Valid) (i : Nat) :
    t.get i = seen (t.entries.content i) (t.pendingUpdates.get? i) := by
  rw [get]
  split
  case h_1 u hu =>
    rw [h.pending_ne i u hu, hu]
    rfl
  case h_2 hnone =>
    rw [getRaw, hnone]
    split
    · next hlt => exact (h.none_beyond i _ hlt (t.entries.content_mayHold i)).symm
    · rfl

theorem get_set (t : Tracker) (i : Nat) (p : ValuePointer) : (t.set i p).get i = some p := by
  rw [get, set]
  rw [HashMap.get?_insert, if_pos rfl]
  dsimp only
  rw [PointerUpdates.isEmpty, PointerUpdates.current_set]
  rfl

@[simp] theorem entries_unset (t : Tracker) (i : Nat) : (t.unset i).2.entries = t.entries := by
  rw [unset]
  split <;> rfl

variable {i : Nat} {u : PointerUpdates}

/-- New updates of a point that are not empty. -/
theorem Valid.insert (h : t.Valid) (hu : u.isEmpty = false) (nextPointerOffset : Nat) :
    ({ t with pendingUpdates := t.pendingUpdates.insert i u, nextPointerOffset } : Tracker).Valid where
  none_beyond := h.none_beyond
  pending_ne j v hv := by
    rw [HashMap.get?_insert] at hv
    split at hv
    case isTrue =>
      cases hv
      exact hu
    case isFalse => exact h.pending_ne j v hv

theorem Valid.reopen (h : t.Valid) : t.reopen.Valid where
  none_beyond := h.none_beyond
  pending_ne i u hu := by
    cases hu

/-- The updates of a point after some of them have been persisted. -/
def drained (persisted : PointerUpdates) : Option PointerUpdates → Option PointerUpdates
  | none => none
  | some u => if (u.drainPersisted persisted).isEmpty then none else some (u.drainPersisted persisted)

theorem get?_drain (t : Tracker) (i j : Nat) (u : PointerUpdates) :
    (t.drain i u).pendingUpdates.get? j =
      if j = i then drained u (t.pendingUpdates.get? i) else t.pendingUpdates.get? j := by
  unfold drain
  cases hpending : t.pendingUpdates.get? i with
  | none =>
    dsimp only
    split
    case isTrue heq =>
      rw [heq, hpending]
      rfl
    case isFalse => rfl
  | some latest =>
    dsimp only [drained]
    split
    case isTrue =>
      rw [HashMap.get?_erase]
    case isFalse =>
      rw [HashMap.get?_insert]

theorem drain_fields (t : Tracker) (i : Nat) (u : PointerUpdates) :
    (t.drain i u).entries = t.entries ∧ (t.drain i u).storageLen = t.storageLen ∧
      (t.drain i u).nextPointerOffset = t.nextPointerOffset := by
  unfold drain
  split
  · exact ⟨rfl, rfl, rfl⟩
  · split <;> exact ⟨rfl, rfl, rfl⟩

theorem le_nextPowerOfTwo (n : Nat) : n ≤ nextPowerOfTwo n := Nat.le_pow_clog (by decide) n

variable {R : GridstoreError → Tracker → Prop} {C : Tracker → Prop}

/-- The entries of the file are as before or as one of the writes has left them. -/
def PersistedSome (t t' : Tracker) (writes : Nat → Option ValuePointer → Prop) : Prop :=
  ∀ i o, t'.entries.MayHold i o → t.entries.MayHold i o ∨ writes i o

theorem PersistedSome.refl (t : Tracker) (writes : Nat → Option ValuePointer → Prop) :
    t.PersistedSome t writes := fun _ _ h => .inl h

/-- One entry of the file has been written. -/
structure PersistedAt (t t' : Tracker) (i : Nat) (pointer : Option ValuePointer) : Prop where
  none_beyond : ∀ j o, t'.storageLen < endOffset j → t'.entries.MayHold j o → o = none
  content : ∀ j, t'.entries.content j = if j = i then pointer else t.entries.content j
  entries : t.PersistedSome t' fun j o => j = i ∧ o = pointer
  pendingUpdates : t'.pendingUpdates = t.pendingUpdates
  nextPointerOffset : t'.nextPointerOffset = t.nextPointerOffset

theorem persistedAt_write (t : Tracker) (pointer : Option ValuePointer)
    (hbeyond : ∀ j o, t.storageLen < endOffset j → t.entries.MayHold j o → o = none)
    (hend : endOffset i ≤ t.storageLen) :
    t.PersistedAt { t with entries := t.entries.writeAt i pointer } i pointer where
  none_beyond j o hj ho := by
    rcases CachedFile.mayHold_writeAt.mp ho with ⟨rfl, _⟩ | hold
    · dsimp only at hj
      omega
    · exact hbeyond j o hj hold
  content := CachedFile.content_writeAt
  entries j o ho := (CachedFile.mayHold_writeAt.mp ho).symm.imp id fun ⟨hj, hp⟩ => ⟨hj, hp.symm⟩
  pendingUpdates := rfl
  nextPointerOffset := rfl

theorem wp_persistPointer
    (hbeyond : ∀ j o, t.storageLen < endOffset j → t.entries.MayHold j o → o = none)
    {pointer : Option ValuePointer} (hC : ∀ t', t.PersistedSome t' (fun _ _ => False) → C t') :
    wp (persistPointer i pointer) (fun _ t' => t.PersistedAt t' i pointer) R C t := by
  apply wp_get_bind
  split
  case isTrue hskip =>
    obtain ⟨rfl, hle⟩ := hskip
    apply (wp_pure _).mpr
    refine ⟨hbeyond, fun j => ?_, PersistedSome.refl t _, rfl, rfl⟩
    split
    case isTrue heq =>
      rw [heq]
      apply hbeyond i _ _ (t.entries.content_mayHold i)
      simp only [endOffset, entrySize]
      omega
    case isFalse => rfl
  case isFalse =>
    split
    case isTrue hlt =>
      have hgrown : t.PersistedSome { t with entries := t.entries.sync
                                             storageLen := nextPowerOfTwo (endOffset i) }
          (fun _ _ => False) := by
        intro j o ho
        rw [← CachedFile.mayHold_sync.mp ho]
        exact .inl (t.entries.content_mayHold j)
      apply wp_bind.mpr
      apply (wp_write rfl).mpr
      refine ⟨hC t (PersistedSome.refl t _), ?_⟩
      apply (wp_write rfl).mpr
      refine ⟨hC _ hgrown, ?_⟩
      have hbeyond' : ∀ j o, nextPowerOfTwo (endOffset i) < endOffset j →
          t.entries.sync.MayHold j o → o = none := by
        intro j o hj ho
        rw [← CachedFile.mayHold_sync.mp ho]
        apply hbeyond j _ _ (t.entries.content_mayHold j)
        have := le_nextPowerOfTwo (endOffset i)
        omega
      have hwrite := persistedAt_write
        { t with entries := t.entries.sync, storageLen := nextPowerOfTwo (endOffset i) } pointer
        hbeyond' (le_nextPowerOfTwo (endOffset i))
      refine ⟨hwrite.none_beyond, hwrite.content, fun j o ho => ?_, rfl, rfl⟩
      rcases hwrite.entries j o ho with hold | hnew
      · exact (hgrown j o hold).imp id False.elim
      · exact .inr hnew
    case isFalse hge =>
      apply (wp_write rfl).mpr
      exact ⟨hC t (PersistedSome.refl t _), persistedAt_write t pointer hbeyond (not_lt.mp hge)⟩

/-- The updates of a point after a flusher has persisted those it holds. -/
def afterFlush (captured pending : Option PointerUpdates) : Option PointerUpdates :=
  match captured with
  | none => pending
  | some updates => drained updates pending

theorem afterFlush_ne (h : t.Valid) {captured : Option PointerUpdates}
    (hu : afterFlush captured (t.pendingUpdates.get? i) = some u) :
    u.isEmpty = false := by
  cases captured with
  | none => exact h.pending_ne i u hu
  | some updates =>
    cases hpending : t.pendingUpdates.get? i with
    | none =>
      rw [hpending] at hu
      cases hu
    | some latest =>
      rw [hpending, afterFlush, drained] at hu
      split at hu
      case isTrue => cases hu
      case isFalse hne =>
        cases hu
        simpa using hne

/-- The state between two points of `write_pending`: the points in `left` are still to be
written. -/
structure Writing (captured : HashMap Nat PointerUpdates) (t : Tracker) (left : List Nat)
    (oldPointers : List ValuePointer) (t' : Tracker) : Prop where
  none_beyond : ∀ j o, t'.storageLen < endOffset j → t'.entries.MayHold j o → o = none
  content : ∀ i, t'.entries.content i =
    if i ∈ left then t.entries.content i else seen (t.entries.content i) (captured.get? i)
  pending : ∀ i, t'.pendingUpdates.get? i =
    if i ∈ left then t.pendingUpdates.get? i
    else afterFlush (captured.get? i) (t.pendingUpdates.get? i)
  entries : t.PersistedSome t' fun i o => ∃ u, captured.get? i = some u ∧ o = u.current
  oldPointers : ∀ p, p ∈ oldPointers ↔
    ∃ i u, i ∉ left ∧ captured.get? i = some u ∧ p ∈ u.freed (t.entries.content i)
  nextPointerOffset : t'.nextPointerOffset = t.nextPointerOffset

/-- One point of `write_pending`. -/
theorem wp_writeUpdates {captured : HashMap Nat PointerUpdates} {t' : Tracker} {left : List Nat}
    {oldPointers : List ValuePointer} (hu : captured.get? i = some u)
    (hleft : i ∉ left) (h : Writing captured t (i :: left) oldPointers t')
    (hC : ∀ t', t.PersistedSome t' (fun i o => ∃ u, captured.get? i = some u ∧ o = u.current) → C t') :
    wp (writeUpdates i u oldPointers) (Writing captured t left) R C t' := by
  have hraw : (t'.getRaw i).join = t.entries.content i := by
    rw [getRaw]
    split
    case isTrue hlt =>
      have hnone := h.none_beyond i _ hlt (t'.entries.content_mayHold i)
      rw [h.content i, if_pos mem_cons_self] at hnone
      exact hnone.symm
    case isFalse =>
      rw [Option.join_some, h.content i, if_pos mem_cons_self]
  apply wp_get_bind
  apply wp_seq (wp_persistPointer (C := C) h.none_beyond ?_)
  · intro _ t'' hpersisted
    apply wp_bind.mpr
    apply (wp_modify _).mpr
    apply (wp_pure _).mpr
    obtain ⟨hentries, hlen, hnext⟩ := t''.drain_fields i u
    refine ⟨?_, ?_, ?_, ?_, ?_, ?_⟩
    · rw [hentries, hlen]
      exact hpersisted.none_beyond
    · intro j
      rw [hentries, hpersisted.content j, h.content j]
      by_cases hji : j = i
      · subst hji
        rw [if_pos rfl, if_neg hleft, hu]
        rfl
      · rw [if_neg hji]
        simp only [mem_cons, hji, false_or]
    · intro j
      rw [get?_drain, hpersisted.pendingUpdates, h.pending j, h.pending i, if_pos mem_cons_self]
      by_cases hji : j = i
      · subst hji
        rw [if_pos rfl, if_neg hleft, hu]
        rfl
      · rw [if_neg hji]
        simp only [mem_cons, hji, false_or]
    · intro j o ho
      rw [hentries] at ho
      rcases hpersisted.entries j o ho with hold | ⟨rfl, rfl⟩
      · exact h.entries j o hold
      · exact .inr ⟨u, hu, rfl⟩
    · intro p
      rw [mem_append, hraw, h.oldPointers p]
      constructor
      · rintro (⟨j, w, hj, hw, hp⟩ | hp)
        · exact ⟨j, w, fun hmem => hj (mem_cons_of_mem i hmem), hw, hp⟩
        · exact ⟨i, u, hleft, hu, hp⟩
      · rintro ⟨j, w, hj, hw, hp⟩
        by_cases hji : j = i
        · subst hji
          rw [hu] at hw
          cases hw
          exact .inr hp
        · exact .inl ⟨j, w, fun hmem => (mem_cons.mp hmem).elim hji hj, hw, hp⟩
    · rw [hnext, hpersisted.nextPointerOffset, h.nextPointerOffset]
  · intro t'' hsome
    exact hC t'' fun j o ho => (hsome j o ho).elim (h.entries j o) False.elim

/-- `write_pending` stores every captured pointer, drains what it has stored, and returns the
pointers that are no longer needed. -/
theorem wp_writePending (captured : HashMap Nat PointerUpdates) {order : IterOrder Nat}
    (hvalid : t.Valid)
    (hC : ∀ t', t.PersistedSome t' (fun i o => ∃ u, captured.get? i = some u ∧ o = u.current) → C t') :
    wp (writePending order captured)
      (fun oldPointers t' => Writing captured t [] oldPointers t' ∧ t'.header = t.nextPointerOffset)
      R C t := by
  apply wp_seq (wp_foldlM (fun left oldPointers t' => Writing captured t left oldPointers t' ∧
    left.Nodup ∧ ∀ i ∈ left, ∃ u, captured.get? i = some u) ?_ (order.walk captured.keys) ?_)
  · rintro oldPointers t' ⟨hwriting, _, _⟩
    apply wp_bind.mpr
    apply (wp_write rfl).mpr
    refine ⟨hC t' hwriting.entries, ?_⟩
    apply (wp_pure _).mpr
    exact ⟨{ hwriting with }, hwriting.nextPointerOffset⟩
  · rintro i left oldPointers t' ⟨hwriting, hnodup, hcaptured⟩
    obtain ⟨hi, hnodup⟩ := nodup_cons.mp hnodup
    obtain ⟨u, hu⟩ := hcaptured i mem_cons_self
    simp only [hu]
    apply wp_conseq (wp_writeUpdates hu hi hwriting hC)
    intro old t'' hnext
    exact ⟨hnext, hnodup, fun j hj => hcaptured j (mem_cons_of_mem i hj)⟩
  · have hnone : ∀ i ∉ order.walk captured.keys, captured.get? i = none := by
      intro i hi
      rwa [order.mem_walk, HashMap.notMem_keys_iff] at hi
    refine ⟨⟨hvalid.none_beyond, ?_, ?_, PersistedSome.refl t _, ?_, rfl⟩, order.nodup _, ?_⟩
    · intro i
      split
      case isTrue => rfl
      case isFalse hnot =>
        rw [hnone i hnot]
        rfl
    · intro i
      split
      case isTrue => rfl
      case isFalse hnot =>
        rw [hnone i hnot]
        rfl
    · intro p
      constructor
      · intro hp
        cases hp
      · rintro ⟨i, u, hi, hu, _⟩
        cases (hnone i hi).symm.trans hu
    · intro i hi
      rwa [order.mem_walk, HashMap.mem_keys_iff] at hi

end Tracker

end Qdrant.Gridstore
