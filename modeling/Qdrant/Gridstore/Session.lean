-- SUMMARY: A Gridstore in use: puts, deletes, flushers that are created and run later, clears and reopens, and the map it stands for.
import Qdrant.Gridstore.Flush
import Qdrant.Gridstore.Slot

/-!
# Sessions

A session is a store together with the flushers that have been created and not been run yet,
the oldest first, and with what the store is to stand for: the values that have been put and
not deleted since, the values that are safe on disk, and for each flusher the values at the
time of its creation. `Inv` relates the two sides. It is preserved by every event whose value
fits (`Admissible`) and whose flusher can be run (`CanFlush`).
-/

namespace Qdrant.Gridstore

open List Crash Tracker

variable {V : Type}

/-! ## Blocks that are in use -/

/-- The pointers that are owned have blocks of their own that are marked as used, and the bytes
on them are those of the value that was written there. -/
structure Keeps (codec : Codec V) (owns : Nat → ValuePointer → Prop)
    (written : Nat → ValuePointer → Option V) (s : Gridstore) : Prop where
  placed : ∀ i p, owns i p → p.Placed s.config s.bitmask.numBits
  used : ∀ i p, owns i p → ∀ block, p.Covers s.config block → s.bitmask.bits.content block = true
  disjoint : ∀ i p j q, owns i p → owns j q → (i, p) ≠ (j, q) →
    ∀ block, p.Covers s.config block → ¬ q.Covers s.config block
  holds : ∀ i p, owns i p → ∃ value, written i p = some value ∧
    s.pages.Holds s.config p (codec.encode s.config value)

/-- A value has been written for a point to these blocks. -/
def record (written : Nat → ValuePointer → Option V) (i : Nat) (p : ValuePointer) (value : V) :
    Nat → ValuePointer → Option V :=
  fun j q => if j = i ∧ q = p then some value else written j q

section Keeps

variable {codec : Codec V} {owns owns' : Nat → ValuePointer → Prop}
  {written : Nat → ValuePointer → Option V} {s t : Gridstore} {value : V} {i : Nat} {p : ValuePointer}

theorem Keeps.mono (h : s.Keeps codec owns written) (hle : ∀ i p, owns' i p → owns i p) :
    s.Keeps codec owns' written where
  placed i p hp := h.placed i p (hle i p hp)
  used i p hp := h.used i p (hle i p hp)
  disjoint i p j q hp hq := h.disjoint i p j q (hle i p hp) (hle j q hq)
  holds i p hp := h.holds i p (hle i p hp)

variable {q : ValuePointer} {j : Nat}

/-- Blocks that are free are not those of a pointer that is owned. -/
theorem Keeps.not_covers (h : s.Keeps codec owns written)
    (hfree : ∀ block, p.Covers s.config block → s.bitmask.bits.content block = false)
    (hq : owns j q) {block : Nat} (hblock : q.Covers s.config block) :
    ¬ p.Covers s.config block := by
  intro hp
  have hbit := hfree block hp
  rw [h.used j q hq block hblock] at hbit
  cases hbit

theorem Keeps.ne_of_owns (hvalid : s.Valid) (h : s.Keeps codec owns written) {raw : List UInt8}
    (hput : s.Put raw p t) (hq : owns j q) : q ≠ p := by
  rintro rfl
  have hpos := (h.placed j q hq).numBlocks_pos hvalid.accepted
  have hfirst : q.Covers s.config (q.start s.config) := ⟨le_rfl, Nat.lt_add_of_pos_right hpos⟩
  exact h.not_covers hput.free hq hfirst hfirst

theorem record_self : record written i p value i p = some value := if_pos ⟨rfl, rfl⟩

/-- A put adds a pointer to those that are owned. -/
theorem Keeps.put (hvalid : s.Valid) (h : s.Keeps codec owns written)
    (hput : s.Put (codec.encode s.config value) p t) :
    t.Keeps codec (fun j q => owns j q ∨ (j = i ∧ q = p)) (record written i p value) := by
  have hconfig := hput.config
  refine ⟨?_, ?_, ?_, ?_⟩
  · rintro j q (hq | ⟨rfl, rfl⟩)
    · have := h.placed j q hq
      have hle := Nat.mul_le_mul_right s.config.pageBlocks hput.numPages
      rw [← hvalid.numBits_eq, ← hconfig, ← hput.valid.numBits_eq] at hle
      rw [hconfig]
      exact { this with end_le := this.end_le.trans hle }
    · rw [hconfig]
      exact hput.placed
  · rintro j q (hq | ⟨rfl, rfl⟩) block hblock
    · rw [hconfig] at hblock
      rw [hput.bits, if_neg (h.not_covers hput.free hq hblock), h.used j q hq block hblock]
    · rw [hconfig] at hblock
      rw [hput.bits, if_pos hblock]
  · rw [hconfig]
    rintro j q k r (hq | ⟨rfl, rfl⟩) (hr | ⟨rfl, rfl⟩) hne block hblock
    · exact h.disjoint j q k r hq hr hne block hblock
    · exact h.not_covers hput.free hq hblock
    · exact fun hr' => h.not_covers hput.free hr hr' hblock
    · exact absurd rfl hne
  · rw [hconfig]
    rintro j q (hq | ⟨rfl, rfl⟩)
    · obtain ⟨v, hv, hholds⟩ := h.holds j q hq
      refine ⟨v, by rw [record, if_neg fun hjq => h.ne_of_owns hvalid hput hq hjq.2, hv], hholds.length, fun k hk => ?_⟩
      have hnot : ¬ p.OnBytes s.config (q.place s.config k) :=
        ValuePointer.not_onBytes hvalid.accepted (fun block => h.not_covers hput.free hq) hk
      rw [hput.bytes _ hnot]
      exact hholds.bytes k hk
    · exact ⟨value, record_self, hput.length.symm, hput.bytes_value⟩

/-- A flusher frees blocks of which none is owned any more. -/
theorem Keeps.flushed {captured : HashMap Nat PointerUpdates} (h : s.Keeps codec owns written)
    (hflushed : s.FlushedBy captured t) (hle : ∀ i p, owns' i p → owns i p)
    (hnot : ∀ i p, owns' i p → ∀ block, p.Covers s.config block → ¬ s.OldBlock captured block) :
    t.Keeps codec owns' written := by
  have hconfig := hflushed.config
  refine ⟨?_, ?_, ?_, ?_⟩
  · intro i p hp
    rw [hconfig, hflushed.numBits]
    exact h.placed i p (hle i p hp)
  · intro i p hp block hblock
    rw [hconfig] at hblock
    rw [hflushed.bits block (hnot i p hp block hblock)]
    exact h.used i p (hle i p hp) block hblock
  · intro i p j q hp hq
    rw [hconfig]
    exact h.disjoint i p j q (hle i p hp) (hle j q hq)
  · intro i p hp
    rw [hconfig, hflushed.pages]
    obtain ⟨v, hv, hholds⟩ := h.holds i p (hle i p hp)
    exact ⟨v, hv, hholds.length, hholds.bytes⟩

end Keeps

/-! ## Sessions -/

/-- A flusher that has been created: the values at that time, and the pointers of each point
that other flushers have freed since. -/
structure Outstanding (V : Type) where
  flusher : Flusher
  contents : Nat → Option V
  freed : Nat → List ValuePointer

structure Session (V : Type) where
  store : Gridstore
  outstanding : List (Outstanding V)
  /-- The values that were put and not deleted since. -/
  contents : Nat → Option V
  /-- The values at the creation of the flusher that was run last. -/
  saved : Nat → Option V
  /-- The value that was last written for a point to these blocks. -/
  written : Nat → ValuePointer → Option V

inductive Event (V : Type) where
  | put (i : Nat) (value : V)
  | delete (i : Nat)
  | clear
  | createFlusher
  /-- The oldest flusher is run. -/
  | executeFlusher (order : IterOrder Nat)
  | dropFlusher (k : Nat)
  | reopen

namespace Session

/-- The flushers that refer to the parts of the store. -/
def current (s : Session V) : List (Outstanding V) :=
  s.outstanding.filter fun o => o.flusher.generation == s.store.generation

def slot (s : Session V) (i : Nat) : Slot where
  raw := s.store.tracker.entries.content i
  pending := s.store.tracker.pendingUpdates.get? i
  captures := s.current.map fun o => ⟨o.flusher.pendingUpdates.get? i, o.freed i⟩

/-- The session of a new store. -/
def ofStore (store : Gridstore) : Session V where
  store
  outstanding := []
  contents _ := none
  saved _ := none
  written _ _ := none

/-- A value was written to where the tracker now points. -/
def recordPut (store : Gridstore) (written : Nat → ValuePointer → Option V) (i : Nat) (value : V) :
    Nat → ValuePointer → Option V :=
  match store.tracker.get i with
  | some p => record written i p value
  | none => written

/-- What another flusher has freed is added. -/
def addFreed (store : Gridstore) (flusher : Flusher) (o : Outstanding V) : Outstanding V :=
  { o with freed := fun i => o.freed i ++
      Slot.freedBy (store.tracker.entries.content i) (flusher.pendingUpdates.get? i) }

/-- An event, unless the operation fails. -/
def step (codec : Codec V) (s : Session V) : Event V → Option (Session V)
  | .put i value =>
    let out := putValue codec i value s.store
    match out.result with
    | .error _ => none
    | .ok _ => some { s with
        store := out.state
        contents := Function.update s.contents i (some value)
        written := recordPut out.state s.written i value }
  | .delete i =>
    let out := deleteValue codec i s.store
    match out.result with
    | .error _ => none
    | .ok _ => some { s with store := out.state, contents := Function.update s.contents i none }
  | .clear =>
    match s.store.clear with
    | .error _ => none
    | .ok store => some { s with store, contents := fun _ => none, saved := fun _ => none }
  | .createFlusher =>
    some { s with outstanding := s.outstanding ++ [⟨s.store.flusher, s.contents, fun _ => []⟩] }
  | .executeFlusher order =>
    match s.outstanding with
    | [] => none
    | o :: rest =>
      let out := runFlusher order o.flusher s.store
      match out.result with
      | .ok _ => some { s with
          store := out.state
          outstanding := rest.map (addFreed s.store o.flusher)
          saved := o.contents }
      -- The store that the flusher refers to is gone.
      | .error .flushCancelled => some { s with outstanding := rest }
      | .error _ => none
  | .dropFlusher k => some { s with outstanding := s.outstanding.eraseIdx k }
  | .reopen =>
    match s.store.reopen with
    | .error _ => none
    | .ok store => some { s with store, contents := s.saved }

/-- The value of a put fits into the store, and the offset is not the last one. -/
def Admissible (codec : Codec V) (s : Session V) : Event V → Prop
  | .put i value => s.store.Fits (codec.encode s.store.config value) ∧ i + 1 < 2 ^ 32
  | _ => True

/-- The flusher that is run frees nothing that was freed since it was created, and does not
store a pointer that is stored already. -/
def CanFlush (s : Session V) : Event V → Prop
  | .executeFlusher _ => ∀ o rest, s.outstanding = o :: rest →
      o.flusher.generation = s.store.generation →
      ∀ i, (s.slot i).Flushable ⟨o.flusher.pendingUpdates.get? i, o.freed i⟩
  | _ => True

structure Inv (codec : Codec V) (s : Session V) : Prop where
  valid : s.store.Valid
  consistent : ∀ i, (s.slot i).Consistent
  keeps : s.store.Keeps codec (fun i => (s.slot i).Owned) s.written
  contents : ∀ i, s.contents i = (s.slot i).live.bind (s.written i)
  saved : ∀ i, s.saved i = (s.slot i).raw.bind (s.written i)
  captured : ∀ o ∈ s.current, ∀ i, o.contents i =
    (seen (s.slot i).raw (o.flusher.pendingUpdates.get? i)).bind (s.written i)
  offset_lt : ∀ i p, (s.slot i).Owned p → i < s.store.tracker.nextPointerOffset ∧ i + 1 < 2 ^ 32
  raw_lt : ∀ i p, (s.slot i).raw = some p → i < s.store.tracker.header
  generation_le : ∀ o ∈ s.outstanding, o.flusher.generation ≤ s.store.generation

variable {codec : Codec V} {s s' : Session V}

/-! ### Events in memory -/

variable {i : Nat} {p : ValuePointer}

theorem bind_record {written : Nat → ValuePointer → Option V} {j : Nat} {value : V}
    {o : Option ValuePointer} (h : ∀ q, o = some q → j ≠ i ∨ q ≠ p) :
    o.bind (record written i p value j) = o.bind (written j) := by
  cases o with
  | none => rfl
  | some q => exact if_neg fun hjq => (h q rfl).elim (fun hne => hne hjq.1) fun hne => hne hjq.2

/-- The updates of one point change. -/
theorem slot_insert {u : PointerUpdates} (hcurrent : s'.current = s.current)
    (hentries : s'.store.tracker.entries = s.store.tracker.entries)
    (hpending : s'.store.tracker.pendingUpdates = s.store.tracker.pendingUpdates.insert i u) (j : Nat) :
    s'.slot j = if j = i then (s.slot i).update u else s.slot j := by
  rw [slot, hcurrent, hentries, hpending, HashMap.get?_insert]
  split
  case isTrue heq =>
    subst heq
    rfl
  case isFalse => rfl

theorem Inv.get_eq (h : s.Inv codec) (i : Nat) : s.store.tracker.get i = (s.slot i).live :=
  h.valid.tracker.get_eq i

variable {o : Outstanding V}

/-- What a flusher is to show is owned. -/
theorem Inv.owned_of_captured (h : s.Inv codec) (ho : o ∈ s.current)
    (hp : seen (s.slot i).raw (o.flusher.pendingUpdates.get? i) = some p) :
    (s.slot i).Owned p :=
  (h.consistent i).owned _ (mem_map_of_mem ho) p hp

/-- The session after a put that has written the value to these blocks. -/
def afterPut (s : Session V) (t : Gridstore) (i : Nat) (p : ValuePointer) (value : V) : Session V :=
  { s with
    store := { t with tracker := s.store.tracker.set i p }
    contents := Function.update s.contents i (some value)
    written := record s.written i p value }

section Put

variable {i : Nat} {p : ValuePointer} {value : V} {t : Gridstore}
  (hput : s.store.Put (codec.encode s.store.config value) p t)

include hput

theorem current_afterPut : (s.afterPut t i p value).current = s.current := by
  rw [current, current, ← hput.generation]
  rfl

theorem slot_afterPut (j : Nat) : (s.afterPut t i p value).slot j =
    if j = i then (s.slot i).update (((s.slot i).pending.getD .empty).set p) else s.slot j :=
  slot_insert (current_afterPut hput) rfl rfl j

theorem Inv.supersedes_put (h : s.Inv codec) : (s.slot i).Supersedes
    (((s.slot i).pending.getD .empty).set p) ((s.slot i).pending.bind (·.current)).toList :=
  Slot.supersedes_set fun hp => h.keeps.ne_of_owns h.valid hput hp rfl

theorem Inv.owned_afterPut (h : s.Inv codec) (j : Nat) (q : ValuePointer) :
    ((s.afterPut t i p value).slot j).Owned q ↔ (s.slot j).Owned q ∨ (j = i ∧ q = p) := by
  rw [slot_afterPut hput]
  split
  case isTrue heq =>
    subst heq
    rw [(h.supersedes_put hput).owned_iff, PointerUpdates.current_set]
    simp [eq_comm]
  case isFalse hne => simp [hne]

theorem Inv.afterPut (h : s.Inv codec) (hi : i + 1 < 2 ^ 32) : (s.afterPut t i p value).Inv codec := by
  have hfresh : ∀ {j q}, (s.slot j).Owned q → q ≠ p := fun hq => h.keeps.ne_of_owns h.valid hput hq
  have hsupersedes := h.supersedes_put hput (i := i)
  have hnext : (s.afterPut t i p value).store.tracker.nextPointerOffset =
      Nat.max s.store.tracker.nextPointerOffset (i + 1) := by
    rw [← Nat.mod_eq_of_lt hi]
    rfl
  refine ⟨?_, ?_, ?_, ?_, ?_, ?_, ?_, ?_, ?_⟩
  · exact { hput.valid with tracker := h.valid.tracker.insert hsupersedes.ne _ }
  · intro j
    rw [slot_afterPut hput]
    split
    case isTrue => exact (h.consistent i).update hsupersedes
    case isFalse => exact h.consistent j
  · have hkeeps := (h.keeps.put h.valid hput (i := i)).mono fun j q => (h.owned_afterPut hput j q).mp
    exact { hkeeps with }
  · intro j
    rw [slot_afterPut hput]
    split
    case isTrue heq =>
      subst heq
      have hlive : ((s.slot j).update (((s.slot j).pending.getD .empty).set p)).live = some p :=
        PointerUpdates.current_set _ _
      rw [hlive]
      exact (Function.update_self ..).trans record_self.symm
    case isFalse hne =>
      refine (Function.update_of_ne hne ..).trans ((h.contents j).trans ?_)
      exact (bind_record fun q _ => .inl hne).symm
  · intro j
    exact (h.saved j).trans (bind_record fun q hq => .inr (hfresh (.inl hq))).symm
  · intro o ho j
    rw [current_afterPut hput] at ho
    exact (h.captured o ho j).trans (bind_record fun q hq => .inr (hfresh (h.owned_of_captured ho hq))).symm
  · intro j q hq
    rw [hnext]
    rcases (h.owned_afterPut hput j q).mp hq with hold | ⟨rfl, _⟩
    · obtain ⟨hlt, hj⟩ := h.offset_lt j q hold
      exact ⟨hlt.trans_le (Nat.le_max_left _ _), hj⟩
    · exact ⟨(Nat.lt_succ_self j).trans_le (Nat.le_max_right _ _), hi⟩
  · exact h.raw_lt
  · intro o ho
    have hgeneration : (s.afterPut t i p value).store.generation = s.store.generation := hput.generation
    rw [hgeneration]
    exact h.generation_le o ho

end Put

/-- The value of a point is on the blocks of its pointer. -/
theorem Inv.read_live (h : s.Inv codec) (hp : (s.slot i).live = some p) :
    ∃ value, s.contents i = some value ∧
      s.store.pages.readFromPages s.store.config p = .ok (codec.encode s.store.config value) := by
  obtain ⟨value, hvalue, hholds⟩ := h.keeps.holds i p (.inr (.inl hp))
  refine ⟨value, ?_, readFromPages_value h.valid (h.keeps.placed i p (.inr (.inl hp))) hholds⟩
  rw [h.contents i, hp, Option.bind_some, hvalue]

theorem Inv.wp_deleteValue (h : s.Inv codec) {R : GridstoreError → Gridstore → Prop}
    {C : Gridstore → Prop} :
    wp (deleteValue codec i) (fun deleted t => deleted = s.contents i ∧
      t = { s.store with tracker := (s.store.tracker.unset i).2 }) R C s.store := by
  have hget := h.get_eq i
  cases hlive : (s.slot i).live with
  | none =>
    rw [hlive] at hget
    apply wp_get_bind
    rw [Tracker.unset, hget]
    apply (wp_pure _).mpr
    exact ⟨by rw [h.contents i, hlive]; rfl, rfl⟩
  | some p =>
    rw [hlive] at hget
    obtain ⟨value, hvalue, hread⟩ := h.read_live hlive
    apply wp_conseq (wp_deleteValue_of_some hget hread)
    rintro _ _ ⟨rfl, rfl⟩
    exact ⟨hvalue.symm, rfl⟩

def afterDelete (s : Session V) (i : Nat) : Session V :=
  { s with
    store := { s.store with tracker := (s.store.tracker.unset i).2 }
    contents := Function.update s.contents i none }

section

variable (h : s.Inv codec)

include h

theorem Inv.afterDelete_of_none (hlive : (s.slot i).live = none) : s.afterDelete i = s := by
  have hcontents : Function.update s.contents i none = s.contents := by
    rw [Function.update_eq_self_iff, h.contents i, hlive]
    rfl
  rw [afterDelete, Tracker.unset, (h.get_eq i).trans hlive, hcontents]

theorem Inv.tracker_afterDelete
    (hlive : (s.slot i).live = some p) : (s.afterDelete i).store.tracker = { s.store.tracker with
      pendingUpdates := s.store.tracker.pendingUpdates.insert i
        (((s.slot i).pending.getD .empty).unset p) } := by
  rw [Session.afterDelete, Tracker.unset, (h.get_eq i).trans hlive]
  rfl

theorem Inv.slot_afterDelete
    (hlive : (s.slot i).live = some p) (j : Nat) : (s.afterDelete i).slot j =
      if j = i then (s.slot i).update (((s.slot i).pending.getD .empty).unset p) else s.slot j := by
  have hpending := congrArg Tracker.pendingUpdates (h.tracker_afterDelete hlive)
  have hentries := congrArg Tracker.entries (h.tracker_afterDelete hlive)
  have hcurrent : (s.afterDelete i).current = s.current := rfl
  exact slot_insert hcurrent hentries hpending j

theorem Inv.owned_afterDelete (i j : Nat) (q : ValuePointer) :
    ((s.afterDelete i).slot j).Owned q ↔ (s.slot j).Owned q := by
  cases hlive : (s.slot i).live with
  | none => rw [h.afterDelete_of_none hlive]
  | some p =>
    rw [h.slot_afterDelete hlive]
    split
    case isTrue heq =>
      subst heq
      rw [(Slot.supersedes_unset hlive).owned_iff]
      simp
    case isFalse => rfl

theorem Inv.afterDelete (i : Nat) : (s.afterDelete i).Inv codec := by
  cases hlive : (s.slot i).live with
  | none =>
    rw [h.afterDelete_of_none hlive]
    exact h
  | some p =>
    have hsupersedes := Slot.supersedes_unset hlive
    have howned := h.owned_afterDelete i
    have hraw : ∀ j, ((s.afterDelete i).slot j).raw = (s.slot j).raw := by
      intro j
      dsimp only [slot, Session.afterDelete]
      rw [Tracker.entries_unset]
    have htracker := h.tracker_afterDelete hlive
    refine ⟨?_, ?_, ?_, ?_, ?_, ?_, ?_, ?_, h.generation_le⟩
    · refine { h.valid with tracker := ?_ }
      rw [htracker]
      exact h.valid.tracker.insert hsupersedes.ne _
    · intro j
      rw [h.slot_afterDelete hlive]
      split
      case isTrue => exact (h.consistent i).update hsupersedes
      case isFalse => exact h.consistent j
    · have hkeeps := h.keeps.mono fun j q => (howned j q).mp
      exact { hkeeps with }
    · intro j
      rw [h.slot_afterDelete hlive]
      split
      case isTrue heq =>
        subst heq
        have hnone : ((s.slot j).update (((s.slot j).pending.getD .empty).unset p)).live = none :=
          PointerUpdates.current_unset _ _
        rw [hnone]
        exact Function.update_self ..
      case isFalse hne => exact (Function.update_of_ne hne ..).trans (h.contents j)
    · intro j
      rw [hraw]
      exact h.saved j
    · intro o ho j
      rw [hraw]
      exact h.captured o ho j
    · intro j q hq
      rw [htracker]
      exact h.offset_lt j q ((howned j q).mp hq)
    · intro j q hq
      rw [htracker]
      exact h.raw_lt j q (hraw j ▸ hq)

end

/-! ### Flushers -/

def withFlusher (s : Session V) : Session V :=
  { s with outstanding := s.outstanding ++ [⟨s.store.flusher, s.contents, fun _ => []⟩] }

theorem current_withFlusher :
    s.withFlusher.current = s.current ++ [⟨s.store.flusher, s.contents, fun _ => []⟩] := by
  rw [withFlusher]
  simp [flusher, current]

theorem slot_withFlusher (i : Nat) : s.withFlusher.slot i = (s.slot i).capture := by
  rw [slot, current_withFlusher, map_append]
  rfl

theorem owned_withFlusher (i : Nat) (p : ValuePointer) :
    (s.withFlusher.slot i).Owned p ↔ (s.slot i).Owned p := by
  rfl

theorem Inv.withFlusher (h : s.Inv codec) : s.withFlusher.Inv codec := by
  refine ⟨h.valid, ?_, ?_, ?_, ?_, ?_, ?_, ?_, ?_⟩
  · intro i
    rw [slot_withFlusher]
    exact (h.consistent i).capture
  · exact h.keeps.mono fun i p => (owned_withFlusher i p).mp
  · intro i
    exact h.contents i
  · intro i
    exact h.saved i
  · intro o ho i
    rw [current_withFlusher] at ho
    rcases mem_append.mp ho with hold | hnew
    · exact h.captured o hold i
    · rw [mem_singleton.mp hnew]
      exact h.contents i
  · exact fun i p hp => h.offset_lt i p ((owned_withFlusher i p).mp hp)
  · intro i p hp
    exact h.raw_lt i p hp
  · intro o ho
    rcases mem_append.mp ho with hold | hnew
    · exact h.generation_le o hold
    · rw [mem_singleton.mp hnew]
      exact le_rfl

/-- Some flushers are given up. -/
theorem Inv.drop (h : s.Inv codec) {outstanding : List (Outstanding V)}
    (hsub : outstanding.Sublist s.outstanding) : ({ s with outstanding } : Session V).Inv codec := by
  have hcurrent : ({ s with outstanding } : Session V).current.Sublist s.current := hsub.filter _
  exact {
    valid := h.valid
    consistent := fun i => (h.consistent i).drop (hcurrent.map _)
    keeps := h.keeps
    contents := h.contents
    saved := h.saved
    captured := fun o ho => h.captured o (hcurrent.subset ho)
    offset_lt := h.offset_lt
    raw_lt := h.raw_lt
    generation_le := fun o ho => h.generation_le o (hsub.subset ho) }

/-- The session after a flusher has been run. -/
def afterFlusher (s : Session V) (o : Outstanding V) (rest : List (Outstanding V)) (t : Gridstore) :
    Session V :=
  { s with
    store := t
    outstanding := rest.map (addFreed s.store o.flusher)
    saved := o.contents }

section Run

variable {o : Outstanding V} {rest : List (Outstanding V)} {t : Gridstore}
  (hout : s.outstanding = o :: rest) (hgeneration : o.flusher.generation = s.store.generation)
  (ht : s.store.FlushedBy o.flusher.pendingUpdates t)

include hout hgeneration in
theorem current_eq : s.current =
    o :: rest.filter fun d => d.flusher.generation == s.store.generation := by
  rw [current, hout, filter_cons_of_pos (by simpa using hgeneration)]

include hout hgeneration in
/-- The flusher that is run and those that stay. -/
theorem captures_eq (i : Nat) :
    (s.slot i).captures = ⟨o.flusher.pendingUpdates.get? i, o.freed i⟩ ::
      (rest.filter fun d => d.flusher.generation == s.store.generation).map
        fun d => ⟨d.flusher.pendingUpdates.get? i, d.freed i⟩ := by
  rw [slot, current_eq hout hgeneration, map_cons]

include ht in
theorem current_afterFlusher : (s.afterFlusher o rest t).current =
    (rest.filter fun d => d.flusher.generation == s.store.generation).map (addFreed s.store o.flusher) := by
  rw [current, afterFlusher, filter_map]
  rw [ht.generation]
  rfl

include ht in
theorem slot_afterFlusher (i : Nat) : (s.afterFlusher o rest t).slot i =
    (s.slot i).flush ⟨o.flusher.pendingUpdates.get? i, o.freed i⟩
      ((rest.filter fun d => d.flusher.generation == s.store.generation).map
        fun d => ⟨d.flusher.pendingUpdates.get? i, d.freed i⟩) := by
  rw [slot, current_afterFlusher ht, Slot.flush, map_map, map_map]
  dsimp only [afterFlusher]
  rw [ht.raw i, ht.pending i]
  rfl

variable (hflush : ∀ i, (s.slot i).Flushable ⟨o.flusher.pendingUpdates.get? i, o.freed i⟩)

include hout hgeneration hflush in
/-- The blocks that are freed are not owned any more. -/
theorem Inv.not_oldBlock (h : s.Inv codec) {i : Nat} {p : ValuePointer}
    (hp : ((s.slot i).flush ⟨o.flusher.pendingUpdates.get? i, o.freed i⟩
      ((rest.filter fun d => d.flusher.generation == s.store.generation).map
        fun d => ⟨d.flusher.pendingUpdates.get? i, d.freed i⟩)).Owned p)
    {block : Nat} (hblock : p.Covers s.store.config block) :
    ¬ s.store.OldBlock o.flusher.pendingUpdates block := by
  rintro ⟨q, ⟨j, u, hu, hq⟩, hcovers⟩
  have hcaptures := captures_eq hout hgeneration
  have hfreed : q ∈ Slot.freedBy (s.slot j).raw (o.flusher.pendingUpdates.get? j) := by
    rw [hu]
    exact hq
  obtain ⟨hqowned, hqnot⟩ := (h.consistent j).freedBy_owned (hcaptures j) (hflush j) hfreed
  have hpowned := (h.consistent i).owned_flush (hcaptures i) (hflush i) hp
  by_cases heq : (i, p) = (j, q)
  · cases heq
    exact hqnot hp
  · exact h.keeps.disjoint i p j q hpowned hqowned heq block hblock hcovers

include hout hgeneration ht hflush

theorem Inv.afterFlusher (h : s.Inv codec) : (s.afterFlusher o rest t).Inv codec := by
  have hcaptures := captures_eq hout hgeneration
  have hslot : ∀ i, (s.afterFlusher o rest t).slot i = _ := slot_afterFlusher ht
  have hcurrent := current_eq hout hgeneration
  have howned : ∀ i p, ((s.afterFlusher o rest t).slot i).Owned p → (s.slot i).Owned p := by
    intro i p hp
    rw [hslot] at hp
    exact (h.consistent i).owned_flush (captures_eq hout hgeneration i) (hflush i) hp
  have hraw : ∀ i, ((s.afterFlusher o rest t).slot i).raw =
      seen (s.slot i).raw (o.flusher.pendingUpdates.get? i) := by
    intro i
    rw [hslot]
    rfl
  refine ⟨ht.valid, ?_, ?_, ?_, ?_, ?_, ?_, ?_, ?_⟩
  · intro i
    rw [hslot]
    exact (h.consistent i).flush (hcaptures i) (hflush i)
  · exact h.keeps.flushed ht howned fun i p hp block hblock =>
      h.not_oldBlock hout hgeneration hflush (hslot i ▸ hp) hblock
  · intro i
    rw [hslot, (h.consistent i).live_flush (by rw [hcaptures i]; exact mem_cons_self) (hflush i)]
    exact h.contents i
  · intro i
    rw [hraw]
    exact h.captured o (by rw [hcurrent]; exact mem_cons_self) i
  · intro d hd i
    rw [current_afterFlusher ht] at hd
    obtain ⟨e, he, rfl⟩ := mem_map.mp hd
    have hseen := (h.consistent i).seen_flush (hcaptures i) _ (mem_map_of_mem he)
    rw [hraw]
    dsimp only [addFreed]
    rw [hseen]
    exact h.captured e (by rw [hcurrent]; exact mem_cons_of_mem o he) i
  · intro i p hp
    have hnext : (s.afterFlusher o rest t).store.tracker.nextPointerOffset =
        s.store.tracker.nextPointerOffset := ht.nextPointerOffset
    rw [hnext]
    exact h.offset_lt i p (howned i p hp)
  · intro i p hp
    have hheader : (s.afterFlusher o rest t).store.tracker.header = s.store.tracker.nextPointerOffset :=
      ht.header
    rw [hheader]
    exact (h.offset_lt i p (howned i p (.inl hp))).1
  · intro d hd
    obtain ⟨e, he, rfl⟩ := mem_map.mp hd
    have hgen : (s.afterFlusher o rest t).store.generation = s.store.generation := ht.generation
    rw [hgen]
    exact h.generation_le e (hout ▸ mem_cons_of_mem o he)

end Run

variable {rest : List (Outstanding V)}

/-- The pointers that the flusher frees are placed. -/
theorem Inv.placed_of_old (h : s.Inv codec)
    (hout : s.outstanding = o :: rest) (hgeneration : o.flusher.generation = s.store.generation)
    (hflush : ∀ i, (s.slot i).Flushable ⟨o.flusher.pendingUpdates.get? i, o.freed i⟩) (p : ValuePointer)
    (hp : s.store.OldPointer o.flusher.pendingUpdates p) :
    p.Placed s.store.config s.store.bitmask.numBits := by
  obtain ⟨i, u, hu, hp⟩ := hp
  have hfreed : p ∈ Slot.freedBy (s.slot i).raw (o.flusher.pendingUpdates.get? i) := by
    rw [hu]
    exact hp
  exact h.keeps.placed i p
    ((h.consistent i).freedBy_owned (captures_eq hout hgeneration i) (hflush i) hfreed).1

theorem Inv.step_executeFlusher (h : s.Inv codec) {order : IterOrder Nat}
    (hflush : s.CanFlush (.executeFlusher order)) (hout : s.outstanding = o :: rest) :
    if o.flusher.generation = s.store.generation then
      ∃ t, s.store.FlushedBy o.flusher.pendingUpdates t ∧
        s.step codec (.executeFlusher order) = some (s.afterFlusher o rest t)
    else s.step codec (.executeFlusher order) = some { s with outstanding := rest } := by
  rw [step, hout]
  split
  case isTrue hgeneration =>
    obtain ⟨_, hresult, ht⟩ := wp_exists_ok (wp_runFlusher (C := fun _ => True) order h.valid
      hgeneration (h.placed_of_old hout hgeneration (hflush o rest hout hgeneration)) fun _ _ => trivial)
    refine ⟨_, ht, ?_⟩
    dsimp only
    rw [hresult]
    rfl
  case isFalse hgeneration =>
    dsimp only
    rw [runFlusher_cancelled hgeneration]

/-! ### New parts -/

section

variable (hgeneration : ∀ o ∈ s.outstanding, o.flusher.generation < s.store.generation)

include hgeneration

/-- The parts of the store are replaced by new ones, with nothing pending. -/
theorem current_of_new : s.current = [] := by
  rw [current, filter_eq_nil_iff]
  intro o ho
  simpa using Nat.ne_of_lt (hgeneration o ho)

theorem slot_of_new (hpending : s.store.tracker.pendingUpdates = ∅) (i : Nat) :
    s.slot i = ⟨s.store.tracker.entries.content i, none, []⟩ := by
  rw [slot, current_of_new hgeneration, hpending]
  rfl

end

/-- A store without values. -/
theorem inv_of_new (hvalid : s.store.Valid) (htracker : s.store.tracker = .new)
    (hgeneration : ∀ o ∈ s.outstanding, o.flusher.generation < s.store.generation)
    (hcontents : s.contents = fun _ => none) (hsaved : s.saved = fun _ => none) : s.Inv codec := by
  have hslot : ∀ i, s.slot i = ⟨none, none, []⟩ := by
    intro i
    rw [slot_of_new hgeneration (by rw [htracker]; rfl), htracker]
    rfl
  have howned : ∀ {i p}, ¬ (s.slot i).Owned p := by
    intro i p hp
    rw [hslot] at hp
    rcases hp with hp | hp | hp <;> cases hp
  exact {
    valid := hvalid
    consistent := fun i => by rw [hslot]; exact Slot.consistent_raw none
    keeps := ⟨fun _ _ hp => absurd hp howned, fun _ _ hp => absurd hp howned,
      fun _ _ _ _ hp => absurd hp howned, fun _ _ hp => absurd hp howned⟩
    contents := fun i => by rw [hslot, hcontents]; rfl
    saved := fun i => by rw [hslot, hsaved]; rfl
    captured := fun o ho => by rw [current_of_new hgeneration] at ho; cases ho
    offset_lt := fun _ _ hp => absurd hp howned
    raw_lt := fun _ _ hp => absurd (.inl hp) howned
    generation_le := fun o ho => (hgeneration o ho).le }

/-- The session after the store has been opened anew. -/
def reopened (s : Session V) : Session V :=
  { s with
    store := { s.store with tracker := s.store.tracker.reopen, generation := s.store.generation + 1 }
    contents := s.saved }

theorem Inv.reopened_new (h : s.Inv codec) :
    ∀ o ∈ s.reopened.outstanding, o.flusher.generation < s.reopened.store.generation :=
  fun o ho => Nat.lt_succ_of_le (h.generation_le o ho)

theorem Inv.reopened (h : s.Inv codec) : s.reopened.Inv codec := by
  have hslot : ∀ i, s.reopened.slot i = ⟨(s.slot i).raw, none, []⟩ := slot_of_new h.reopened_new rfl
  have howned : ∀ {i p}, (s.reopened.slot i).Owned p → (s.slot i).raw = some p := by
    intro i p hp
    rcases hp with hp | hp | hp
    · exact hp
    · exact hp
    · cases hp
  have hkeeps := h.keeps.mono fun i p (hp : (s.reopened.slot i).Owned p) => .inl (howned hp)
  exact {
    valid := { h.valid with tracker := h.valid.tracker.reopen }
    consistent := fun i => by rw [hslot]; exact Slot.consistent_raw _
    keeps := { hkeeps with }
    contents := fun i => by rw [hslot]; exact h.saved i
    saved := fun i => by rw [hslot]; exact h.saved i
    captured := fun o ho => by rw [current_of_new h.reopened_new] at ho; cases ho
    offset_lt := fun i p hp => ⟨h.raw_lt i p (howned hp), (h.offset_lt i p (.inl (howned hp))).2⟩
    raw_lt := fun i p hp => h.raw_lt i p (howned (.inl hp))
    generation_le := fun o ho => (h.reopened_new o ho).le }

/-! ### Steps -/

/-- What an event makes of a session. -/
inductive Steps (codec : Codec V) (s : Session V) : Event V → Session V → Prop where
  | put {i : Nat} {value : V} {p : ValuePointer} {t : Gridstore} (hi : i + 1 < 2 ^ 32)
      (hput : s.store.Put (codec.encode s.store.config value) p t) :
      Steps codec s (.put i value) (s.afterPut t i p value)
  | delete (i : Nat) : Steps codec s (.delete i) (s.afterDelete i)
  | clear {t : Gridstore} (hvalid : t.Valid) (hgeneration : t.generation = s.store.generation + 1)
      (htracker : t.tracker = .new) (hbits : t.bitmask.bits = .ofContent fun _ => false) :
      Steps codec s .clear { s with store := t, contents := fun _ => none, saved := fun _ => none }
  | createFlusher : Steps codec s .createFlusher s.withFlusher
  | executeFlusher {order : IterOrder Nat} {o : Outstanding V} {rest : List (Outstanding V)}
      {t : Gridstore} (hout : s.outstanding = o :: rest)
      (hgeneration : o.flusher.generation = s.store.generation)
      (ht : s.store.FlushedBy o.flusher.pendingUpdates t)
      (hflush : ∀ i, (s.slot i).Flushable ⟨o.flusher.pendingUpdates.get? i, o.freed i⟩) :
      Steps codec s (.executeFlusher order) (s.afterFlusher o rest t)
  | cancelled {order : IterOrder Nat} {o : Outstanding V} {rest : List (Outstanding V)}
      (hout : s.outstanding = o :: rest) :
      Steps codec s (.executeFlusher order) { s with outstanding := rest }
  | dropFlusher (k : Nat) :
      Steps codec s (.dropFlusher k) { s with outstanding := s.outstanding.eraseIdx k }
  | reopen : Steps codec s .reopen s.reopened

variable {event : Event V}

/-- No event fails. -/
theorem Inv.exists_step (h : s.Inv codec) (hadmissible : s.Admissible codec event)
    (hflush : s.CanFlush event) (hexists : (∃ order, event = .executeFlusher order) → s.outstanding ≠ []) :
    ∃ s', s.step codec event = some s' ∧ s.Steps codec event s' := by
  cases event with
  | put i value =>
    obtain ⟨_, hresult, _, p, t, hput, hstate⟩ := wp_exists_ok (wp_putValue (C := fun _ => True)
      h.valid (i := i) hadmissible.1 (fun _ _ => trivial) fun _ _ _ => trivial)
    refine ⟨s.afterPut t i p value, ?_, .put hadmissible.2 hput⟩
    rw [step, hresult, hstate, recordPut, Tracker.get_set]
    rfl
  | delete i =>
    obtain ⟨_, hresult, _, hstate⟩ := wp_exists_ok (h.wp_deleteValue (i := i) (C := fun _ => True))
    refine ⟨s.afterDelete i, ?_, .delete i⟩
    rw [step, hresult, hstate]
    rfl
  | clear =>
    obtain ⟨t, hclear, hvalid, _, hgeneration, htracker, hbits, _⟩ :=
      new_eq (s.store.generation + 1) h.valid.accepted.tryFrom_ofConfig h.valid.words
    rw [step, clear, hclear]
    exact ⟨_, rfl, .clear hvalid hgeneration htracker hbits⟩
  | createFlusher => exact ⟨_, rfl, .createFlusher⟩
  | executeFlusher order =>
    cases hout : s.outstanding with
    | nil => exact absurd hout (hexists ⟨order, rfl⟩)
    | cons o rest =>
      have hspec := h.step_executeFlusher hflush hout
      split at hspec
      case isTrue hgeneration =>
        obtain ⟨t, ht, heq⟩ := hspec
        exact ⟨_, heq, .executeFlusher hout hgeneration ht (hflush o rest hout hgeneration)⟩
      case isFalse => exact ⟨_, hspec, .cancelled hout⟩
  | dropFlusher k => exact ⟨_, rfl, .dropFlusher k⟩
  | reopen =>
    rw [step, reopen_eq h.valid]
    exact ⟨_, rfl, .reopen⟩

/-- The step lemma: every event keeps the invariant. -/
theorem Inv.step (h : s.Inv codec) (hstep : s.Steps codec event s') : s'.Inv codec := by
  cases hstep with
  | put hi hput => exact h.afterPut hput hi
  | delete i => exact h.afterDelete i
  | clear hvalid hgeneration htracker _ =>
    refine inv_of_new hvalid htracker (fun o ho => ?_) rfl rfl
    rw [hgeneration]
    exact Nat.lt_succ_of_le (h.generation_le o ho)
  | createFlusher => exact h.withFlusher
  | executeFlusher hout hgeneration ht hflush => exact h.afterFlusher hout hgeneration ht hflush
  | cancelled hout => exact h.drop (hout ▸ sublist_cons_self ..)
  | dropFlusher k => exact h.drop (eraseIdx_sublist ..)
  | reopen => exact h.reopened

theorem inv_ofStore (codec : Codec V) {options : StorageOptions} {config : StorageConfig}
    (hconfig : StorageConfig.tryFrom options = .ok config) (hwords : config.WholeWords) :
    ∃ store, new options 0 = .ok store ∧ (ofStore store : Session V).Inv codec := by
  obtain ⟨store, hnew, hvalid, _, _, htracker, _⟩ := new_eq 0 hconfig hwords
  exact ⟨store, hnew, inv_of_new hvalid htracker (fun o ho => absurd ho not_mem_nil) rfl rfl⟩

end Session

end Qdrant.Gridstore
