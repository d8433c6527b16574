-- SUMMARY: Acknowledged operations are on disk, as long as no change comes after the capture of its own version.
import Qdrant.Flush.System

/-!
# Durability of acknowledged operations

Durability is inferred from version numbers alone: a segment whose version equals
its persisted version counts as saved. That is right as long as every change
raises the version of its segment above the persisted version and above all
versions that flushers have captured of it (`noLateChange`). `Core` then holds:
the changes missing on disk, or missing in what a flusher captured, are newer
than its version.
-/

namespace Qdrant

open List FlushSegment

variable {α : Type}

/-! ## Changes that are not on disk -/

namespace FlushSegment

/-- The changes that are not on disk. -/
def unsaved (s : FlushSegment α) : List (SeqNumber × α) :=
  s.history.drop s.persisted

/-- All changes after the first `len` are newer than `version`, and so is the segment if
there are any. -/
structure NewerThan (s : FlushSegment α) (len : Nat) (version : SeqNumber) : Prop where
  changes : ∀ e ∈ s.history.drop len, version < e.1
  segment : len < s.history.length → version < s.currentVersion

variable {s : FlushSegment α}

/-- A change adds itself to what is missing after any length. -/
theorem mem_drop_change {opNum version : SeqNumber} {a : α} {len : Nat}
    {e : SeqNumber × α} (h : e ∈ (s.change opNum version a).history.drop len) :
    e ∈ s.history.drop len ∨ e = (opNum, a) := by
  rw [change_history, drop_append] at h
  rcases mem_append.mp h with h | h
  · exact .inl h
  · exact .inr (mem_singleton.mp (mem_of_mem_drop h))

/-- A change that raises the version above a captured one is newer than it. -/
theorem NewerThan.change {len : Nat} {captured : SeqNumber}
    (h : s.NewerThan len captured) {opNum version : SeqNumber} (a : α)
    (hfresh : captured < max version s.currentVersion)
    (hop : max version s.currentVersion ≤ opNum) :
    (s.change opNum version a).NewerThan len captured := by
  refine ⟨fun e he => ?_, fun _ => hfresh⟩
  rcases mem_drop_change he with he | rfl
  · exact h.changes e he
  · exact lt_of_lt_of_le hfresh hop

/-- What a captured flusher holds. -/
theorem flusher_eq_some {id : SegmentId} {f : Flusher} (h : s.flusher id false = some f) :
    f = { segment := id, version := s.currentVersion, captured := s.history.length } := by
  unfold flusher at h
  split at h
  · cases h
  · next hv hp =>
    split at h
    · cases h
    · cases h
      simp [currentVersion, hv]
  · next hv hp =>
    cases h
    simp [currentVersion, hv]

/-- A segment with unsaved changes gets a flusher. -/
theorem flusher_of_unsaved (id : SegmentId) (hnewer : s.NewerThan s.persisted s.persistentVersion)
    (hlt : s.persisted < s.history.length) :
    s.flusher id false =
      some { segment := id, version := s.currentVersion, captured := s.history.length } := by
  have hversion := hnewer.segment hlt
  unfold currentVersion persistentVersion at hversion
  unfold flusher currentVersion
  cases hv : s.version with
  | none => simp [hv] at hversion
  | some version =>
    cases hp : s.persistedVersion with
    | none => rfl
    | some persistedVersion =>
      rw [hv, hp] at hversion
      have hne : version ≠ persistedVersion := hversion.ne'
      simp [hne]

end FlushSegment

namespace FlushSystem

section

variable (c : FlushSystem α)

/-- The flushers that are captured and have not run yet. -/
def todo : List Flusher :=
  match c.flushThread with
  | none => []
  | some thread => thread.todo

/-- The versions of a segment that count as saved: the persisted one, which is `0` for a
segment that was never flushed, and those of the flushers still to run. -/
def capturedVersions (id : SegmentId) : List SeqNumber :=
  (c.segments id).persistentVersion :: (c.todo.filter fun f => f.segment == id).map Flusher.version

/-- A change with this number raises the version of the segment above all captured ones. -/
def raisesVersion (id : SegmentId) (version : SeqNumber) : Bool :=
  (c.capturedVersions id).all fun captured => captured < max version (c.segments id).currentVersion

/-- Every change raises the version of its segment above the persisted version and above
all versions that flushers have captured of it. -/
def noLateChange : FlushLabel α → Bool
  | .change id version _ => c.raisesVersion id version
  | .move source destination _ delete =>
    c.raisesVersion destination c.lastOp && (delete.isNone || c.raisesVersion source c.lastOp)
  | _ => true

end

/-! ## Segments and flushers -/

/-- A flusher that has not run yet is not behind what is on disk, and what it did not
capture is newer than its version. -/
structure InFlight (s : FlushSegment α) (f : Flusher) : Prop where
  newer : s.NewerThan f.captured f.version
  persisted_le : s.persisted ≤ f.captured
  captured_le : f.captured ≤ s.history.length
  persistentVersion_le : s.persistentVersion ≤ f.version
  version_le : f.version ≤ s.currentVersion

/-- What holds of the segments and the flush thread. -/
structure Core (c : FlushSystem α) : Prop where
  saved : ∀ id, (c.segments id).NewerThan (c.segments id).persisted (c.segments id).persistentVersion
  inFlight : ∀ f ∈ c.todo, InFlight (c.segments f.segment) f
  todo_nodup : (c.todo.map Flusher.segment).Nodup
  persisted_le : ∀ id, (c.segments id).persisted ≤ (c.segments id).history.length
  persistentVersion_le : ∀ id, (c.segments id).persistentVersion ≤ (c.segments id).currentVersion
  currentVersion_le : ∀ id, (c.segments id).currentVersion ≤ c.lastOp

variable {c : FlushSystem α} {id : SegmentId} {version : SeqNumber}

/-- A change that raises the version of its segment. -/
theorem Core.change (h : c.Core) (a : α)
    (hle : version ≤ c.lastOp) (hraise : c.raisesVersion id version = true) :
    (c.setSegment id ((c.segments id).change c.lastOp version a)).Core := by
  simp only [raisesVersion, capturedVersions, all_cons, Bool.and_eq_true, all_eq_true,
    decide_eq_true_eq] at hraise
  obtain ⟨hpersisted, hcaptured⟩ := hraise
  have hop : max version (c.segments id).currentVersion ≤ c.lastOp :=
    max_le hle (h.currentVersion_le id)
  refine ⟨fun id' => ?_, fun f hf => ?_, h.todo_nodup, fun id' => ?_, fun id' => ?_, fun id' => ?_⟩
  · rw [setSegment_segments]
    split
    · exact (h.saved id).change a hpersisted hop
    · exact h.saved id'
  · have hfl := h.inFlight f hf
    rw [setSegment_segments]
    split
    · next hid =>
      rw [hid] at hfl
      have hlen : f.captured ≤ ((c.segments id).change c.lastOp version a).history.length := by
        simpa using hfl.captured_le.trans (Nat.le_succ _)
      have htodo := hcaptured f.version (mem_map.mpr ⟨f, mem_filter.mpr ⟨hf, by simp [hid]⟩, rfl⟩)
      exact ⟨hfl.newer.change a htodo hop, hfl.persisted_le, hlen,
        hfl.persistentVersion_le, hfl.version_le.trans (le_max_right _ _)⟩
    · exact hfl
  · rw [setSegment_segments]
    split
    · have := h.persisted_le id
      simp only [change_persisted, change_history, length_append]
      omega
    · exact h.persisted_le id'
  · rw [setSegment_segments]
    split
    · exact (h.persistentVersion_le id).trans (le_max_right _ _)
    · exact h.persistentVersion_le id'
  · rw [setSegment_segments]
    split
    · exact hop
    · exact h.currentVersion_le id'

/-- Changing a segment does not concern whether another one can be changed. -/
theorem raisesVersion_setSegment_of_ne {id' : SegmentId} (hne : id' ≠ id)
    (s : FlushSegment α) (version : SeqNumber) :
    (c.setSegment id s).raisesVersion id' version = c.raisesVersion id' version := by
  have hseg : (c.setSegment id s).segments id' = c.segments id' := by simp [hne]
  unfold raisesVersion capturedVersions
  rw [hseg]
  rfl

variable {c' : FlushSystem α}

/-- Flushers may be dropped and operations begin; the other fields play no part in `Core`. -/
theorem Core.congr (h : c.Core) (hsegments : c'.segments = c.segments)
    (htodo : c'.todo.Sublist c.todo) (hlastOp : c.lastOp ≤ c'.lastOp) : c'.Core := by
  refine ⟨?_, ?_, ?_, ?_, ?_, fun id => ?_⟩
  · rw [hsegments]
    exact h.saved
  · rw [hsegments]
    exact fun f hf => h.inFlight f (htodo.subset hf)
  · exact (htodo.map _).nodup h.todo_nodup
  · rw [hsegments]
    exact h.persisted_le
  · rw [hsegments]
    exact h.persistentVersion_le
  · rw [hsegments]
    exact (h.currentVersion_le id).trans hlastOp

theorem Core.move (h : c.Core) {source destination : SegmentId} (put : α)
    (delete : Option α) (hne : source ≠ destination)
    (hguard : c.noLateChange (.move source destination put delete) = true) :
    (c.move source destination put delete).Core := by
  simp only [noLateChange, Bool.and_eq_true, Bool.or_eq_true] at hguard
  obtain ⟨hdest, hsource⟩ := hguard
  have hput : (c.putMoved source destination put).Core :=
    (h.change put le_rfl hdest).congr rfl (.refl _) le_rfl
  cases delete with
  | none => exact hput
  | some a =>
    have hraise := hsource.resolve_left (by simp)
    rw [← raisesVersion_setSegment_of_ne hne
      ((c.segments destination).change c.lastOp c.lastOp put)] at hraise
    exact hput.change a le_rfl hraise

/-! ### Capturing and running flushers -/

/-- The flush order lists all segments, sorted by their dependencies. -/
theorem flushOrder_eq (c : FlushSystem α) (order : IterOrder SegmentId) :
    c.flushOrder order = (c.flushDependency.sortElements order c.lockOrder).map
      fun id => (id, c.segments id) :=
  sortPermutation_map _ c.nodup (c.flushDependency.sortElements_perm order c.nodup)

theorem flushOrder_fst_perm (c : FlushSystem α) (order : IterOrder SegmentId) :
    ((c.flushOrder order).map Prod.fst).Perm c.lockOrder := by
  rw [flushOrder_eq]
  simpa [Function.comp_def, lockOrder] using c.flushDependency.sortElements_perm order c.nodup

/-- Flushers are captured for distinct segments, in the flush order. -/
theorem map_segment_filterMap_flusher_sublist (l : List (SegmentId × FlushSegment α)) :
    ((l.filterMap fun e => e.2.flusher e.1 false).map Flusher.segment).Sublist (l.map Prod.fst) := by
  induction l with
  | nil => exact List.Sublist.refl _
  | cons e l ih =>
    rw [filterMap_cons]
    cases hf : e.2.flusher e.1 false with
    | none => exact ih.cons _
    | some f =>
      rw [flusher_eq_some hf]
      exact ih.cons_cons _

variable {f : Flusher}

/-- A flush that starts captures the segments as they are. -/
theorem mem_todo_startFlush {order : IterOrder SegmentId} (hf : f ∈ (c.startFlush order).todo) :
    f = ⟨f.segment, (c.segments f.segment).currentVersion,
      (c.segments f.segment).history.length⟩ := by
  obtain ⟨⟨id, s⟩, hmem, hflusher⟩ := mem_filterMap.mp hf
  rw [flushOrder_eq, mem_map] at hmem
  obtain ⟨_, _, heq⟩ := hmem
  cases heq
  rw [flusher_eq_some hflusher]

theorem Core.startFlush (h : c.Core) (order : IterOrder SegmentId) : (c.startFlush order).Core := by
  refine { h with inFlight := fun f hf => ?_, todo_nodup := ?_ }
  · rw [mem_todo_startFlush hf]
    change InFlight (c.segments f.segment) _
    exact ⟨⟨by simp, by simp⟩, h.persisted_le _, le_rfl, h.persistentVersion_le _, le_rfl⟩
  · exact (map_segment_filterMap_flusher_sublist _).nodup
      ((c.flushOrder_fst_perm order).nodup_iff.mpr c.nodup)

/-- A flusher that runs saves what it has captured. -/
theorem InFlight.segments_complete (hf : InFlight (c.segments f.segment) f) (id : SegmentId) :
    (c.setSegment f.segment ((c.segments f.segment).complete f)).segments id =
      if id = f.segment then
        { c.segments f.segment with persistedVersion := some f.version, persisted := f.captured }
      else c.segments id := by
  rw [setSegment_segments, complete, if_neg (not_lt.mpr hf.persistentVersion_le)]

/-- Running the next flusher. -/
theorem Core.complete (h : c.Core) {rest : List Flusher} (htodo : c.todo = f :: rest)
    (hsegments : c'.segments =
      (c.setSegment f.segment ((c.segments f.segment).complete f)).segments)
    (htodo' : c'.todo = rest) (hlastOp : c'.lastOp = c.lastOp) : c'.Core := by
  have hf := h.inFlight f (by simp [htodo])
  have hnodup := h.todo_nodup
  rw [htodo, map_cons, nodup_cons] at hnodup
  have hseg : ∀ id, c'.segments id = _ := hsegments ▸ hf.segments_complete
  refine ⟨fun id => ?_, fun g hg => ?_, htodo' ▸ hnodup.2, fun id => ?_, fun id => ?_, fun id => ?_⟩
  · rw [hseg]
    split
    · exact ⟨hf.newer.changes, hf.newer.segment⟩
    · exact h.saved id
  · rw [htodo'] at hg
    have hne : g.segment ≠ f.segment := fun heq => hnodup.1 (heq ▸ mem_map_of_mem hg)
    rw [hseg, if_neg hne]
    exact h.inFlight g (by simp [htodo, hg])
  · rw [hseg]
    split
    · exact hf.captured_le
    · exact h.persisted_le id
  · rw [hseg]
    split
    · exact hf.version_le
    · exact h.persistentVersion_le id
  · rw [hseg, hlastOp]
    split
    · exact h.currentVersion_le f.segment
    · exact h.currentVersion_le id

theorem todo_eq {thread : FlushThread} (h : c.flushThread = some thread) :
    c.todo = thread.todo := by
  rw [todo, h]

theorem Core.runFlusher (h : c.Core) {rest : List Flusher}
    {maxApplied : SeqNumber} (hthread : c.flushThread = some ⟨f :: rest, maxApplied, .running⟩)
    (outcome : FlushOutcome) :
    (c.runFlusher ⟨f :: rest, maxApplied, .running⟩ f rest outcome).Core := by
  have htodo := todo_eq hthread
  cases outcome with
  | done => exact h.complete htodo rfl rfl rfl
  | cancelled => exact h.congr rfl (htodo ▸ sublist_cons_self f rest) le_rfl
  | failed => exact h.congr rfl (nil_sublist _) le_rfl

/-- `flush_all` starts a flush, or only takes the locks, or drops a failed flush thread. -/
theorem flushAll_cases (c : FlushSystem α) (order : IterOrder SegmentId) :
    c.flushAll order = c.startFlush order ∨
    c.flushAll order = { c with worker := .loading c.lockOrder } ∨
    c.flushAll order = { c with flushThread := none } := by
  unfold FlushSystem.flushAll
  split
  · exact .inl rfl
  · split
    · exact .inr (.inl rfl)
    · exact .inl rfl
    · exact .inr (.inr rfl)

theorem Core.flushAll (h : c.Core) (order : IterOrder SegmentId) : (c.flushAll order).Core := by
  rcases c.flushAll_cases order with heq | heq | heq <;> rw [heq]
  · exact h.startFlush order
  · exact h.congr rfl (.refl _) le_rfl
  · exact h.congr rfl (nil_sublist _) le_rfl

theorem readSegment_eq (c : FlushSystem α) (locked : List SegmentId) (maxPersisted : SeqNumber)
    (minUnsaved : Option SeqNumber) :
    ∃ worker, c.readSegment locked maxPersisted minUnsaved = { c with worker } := by
  cases locked with
  | nil => exact ⟨_, rfl⟩
  | cons id locked => exact ⟨_, rfl⟩

variable {l : FlushLabel α}

/-- Every step without a late change keeps the segments and the flush thread consistent. -/
theorem Core.step (h : c.Core)
    (hguard : c.noLateChange l = true) (hstep : c.step l = some c') : c'.Core := by
  cases transition_of_step hstep with
  | beginOperation hnext => exact h.congr rfl (.refl _) hnext.le
  | change _ _ hle => exact h.change _ hle hguard
  | move hsource hdestination _ _ =>
    have hne := disjoint_of_nodup_append c.nodup hsource
    exact h.move _ _ (fun heq => hne (heq ▸ hdestination)) hguard
  | bumpOverwrite | failOperation | recoverOperation | loadOverwrite _ | acknowledge _ =>
    exact h.congr rfl (.refl _) le_rfl
  | flushAll _ => exact h.flushAll _
  | runFlusher hthread => exact h.runFlusher hthread _
  | finishFlush hthread => exact h.congr rfl (nil_sublist _) le_rfl
  | readSegment _ =>
    obtain ⟨worker, heq⟩ := c.readSegment_eq _ _ _
    rw [heq]
    exact h.congr rfl (.refl _) le_rfl

/-! ## The flush worker -/

/-- What a step does to the operation number and to the segments: those that the flush
worker holds locked keep their version, and a change that is not on disk was missing
before or is made by the current operation to a segment that is not locked. -/
structure Effect (c c' : FlushSystem α) : Prop where
  lastOp_le : c.lastOp ≤ c'.lastOp
  lockOrder : c'.lockOrder = c.lockOrder
  locked : ∀ id ∈ c.worker.locked, (c'.segments id).currentVersion = (c.segments id).currentVersion
  unsaved : ∀ id, ∀ e ∈ (c'.segments id).unsaved,
    e ∈ (c.segments id).unsaved ∨ (e.1 = c.lastOp ∧ id ∉ c.worker.locked)

/-- A step that leaves the segments alone. -/
theorem Effect.of_segments_eq (hsegments : c'.segments = c.segments)
    (hlockOrder : c'.lockOrder = c.lockOrder) (hlastOp : c.lastOp ≤ c'.lastOp) : Effect c c' := by
  refine ⟨hlastOp, hlockOrder, fun id _ => ?_, fun id e he => .inl ?_⟩
  · rw [hsegments]
  · rwa [← hsegments]

theorem Effect.change (hfree : id ∉ c.worker.locked) (version : SeqNumber) (a : α) :
    Effect c (c.setSegment id ((c.segments id).change c.lastOp version a)) := by
  refine ⟨le_rfl, rfl, fun id' hid => ?_, fun id' e he => ?_⟩
  · rw [setSegment_segments, if_neg (ne_of_mem_of_not_mem hid hfree)]
  · rw [setSegment_segments] at he
    split at he
    · next heq =>
      rw [heq]
      exact (mem_drop_change he).imp_right fun heq => ⟨by rw [heq], hfree⟩
    · exact .inl he

/-- Two effects under the same worker and operation. -/
theorem Effect.trans {c'' : FlushSystem α} (h : Effect c c') (h' : Effect c' c'')
    (hworker : c'.worker = c.worker) (hlastOp : c'.lastOp = c.lastOp) : Effect c c'' := by
  refine ⟨h.lastOp_le.trans h'.lastOp_le, h'.lockOrder.trans h.lockOrder, fun id hid => ?_,
    fun id e he => ?_⟩
  · exact (h'.locked id (hworker ▸ hid)).trans (h.locked id hid)
  · rcases h'.unsaved id e he with he | hnew
    · exact h.unsaved id e he
    · rw [hlastOp, hworker] at hnew
      exact .inr hnew

theorem Effect.move {source destination : SegmentId}
    (hsource : source ∉ c.worker.locked) (hdestination : destination ∉ c.worker.locked)
    (put : α) (delete : Option α) : Effect c (c.move source destination put delete) := by
  have hput : Effect c (c.putMoved source destination put) :=
    (Effect.change hdestination c.lastOp put).trans (.of_segments_eq rfl rfl le_rfl) rfl rfl
  cases delete with
  | none => exact hput
  | some a =>
    have hdelete := Effect.change (c := c.putMoved source destination put) hsource c.lastOp a
    exact hput.trans hdelete rfl rfl

theorem Effect.complete (hf : InFlight (c.segments f.segment) f) (hsegments : c'.segments =
      (c.setSegment f.segment ((c.segments f.segment).complete f)).segments)
    (hlockOrder : c'.lockOrder = c.lockOrder) (hlastOp : c'.lastOp = c.lastOp) : Effect c c' := by
  have hseg : ∀ id, c'.segments id = _ := hsegments ▸ hf.segments_complete
  refine ⟨hlastOp.ge, hlockOrder, fun id _ => ?_, fun id e he => .inl ?_⟩
  · rw [hseg]
    split
    · next heq => rw [heq]; rfl
    · rfl
  · rw [hseg] at he
    split at he
    · next heq =>
      rw [heq]
      exact (drop_sublist_drop_left _ hf.persisted_le).subset he
    · exact he

theorem Core.effect (h : c.Core) (hstep : c.step l = some c') : Effect c c' := by
  cases transition_of_step hstep with
  | beginOperation hnext => exact .of_segments_eq rfl rfl hnext.le
  | change _ hfree _ => exact .change hfree _ _
  | move _ _ hfreeSource hfreeDestination => exact .move hfreeSource hfreeDestination _ _
  | bumpOverwrite | failOperation | recoverOperation | finishFlush _ | loadOverwrite _
  | acknowledge _ => exact .of_segments_eq rfl rfl le_rfl
  | @flushAll order _ =>
    rcases c.flushAll_cases order with heq | heq | heq
    all_goals rw [heq]; exact .of_segments_eq rfl rfl le_rfl
  | @runFlusher outcome f rest _ hthread =>
    have hf := h.inFlight f (by simp [todo_eq hthread])
    cases outcome with
    | done => exact .complete hf rfl rfl rfl
    | cancelled | failed => exact .of_segments_eq rfl rfl le_rfl
  | readSegment _ =>
    obtain ⟨worker, heq⟩ := c.readSegment_eq _ _ _
    rw [heq]
    exact .of_segments_eq rfl rfl le_rfl

/-- An operation number that can be acknowledged: no change of an earlier operation is
missing on disk, or will be. -/
structure Safe (c : FlushSystem α) (version : SeqNumber) : Prop where
  le_lastOp : version ≤ c.lastOp
  le_unsaved : ∀ id ∈ c.lockOrder, ∀ e ∈ (c.segments id).unsaved, version ≤ e.1

theorem Safe.mono {version' : SeqNumber} (h : c.Safe version)
    (hle : version' ≤ version) : c.Safe version' :=
  ⟨hle.trans h.le_lastOp, fun id hid e he => hle.trans (h.le_unsaved id hid e he)⟩

theorem Safe.effect (h : c.Safe version) (heffect : Effect c c') : c'.Safe version := by
  refine ⟨h.le_lastOp.trans heffect.lastOp_le, fun id hid e he => ?_⟩
  rw [heffect.lockOrder] at hid
  rcases heffect.unsaved id e he with he | ⟨hop, _⟩
  · exact h.le_unsaved id hid e he
  · exact hop ▸ h.le_lastOp

/-- The flush worker while it reads versions. `bound` is the operation that was being applied
when it began to read: segments still locked are not newer, and what is missing on disk
in the others is not older than `bound` or the lowest unsaved version read. -/
structure Reading (c : FlushSystem α) (locked : List SegmentId) (maxPersisted : SeqNumber)
    (minUnsaved : Option SeqNumber) (bound : SeqNumber) : Prop where
  bound_le : bound ≤ c.lastOp
  maxPersisted_le : maxPersisted ≤ bound
  minUnsaved_le : ∀ m ∈ minUnsaved, m ≤ bound
  locked_le : ∀ id ∈ locked, (c.segments id).currentVersion ≤ bound
  released : ∀ id ∈ c.lockOrder, id ∉ locked → ∀ e ∈ (c.segments id).unsaved,
    (∃ m ∈ minUnsaved, m ≤ e.1) ∨ bound ≤ e.1

/-- What holds of the flush worker in each of its states. -/
def WorkerInv (c : FlushSystem α) : FlushWorker → Prop
  | .idle => True
  | .loading locked => ∀ id ∈ c.lockOrder, id ∈ locked
  | .reading locked maxPersisted minUnsaved => ∃ bound, c.Reading locked maxPersisted minUnsaved bound
  | .confirmed version => c.Safe version

variable {minUnsaved : Option SeqNumber} {maxPersisted : SeqNumber} {locked : List SegmentId}

variable {bound : SeqNumber}

theorem Reading.effect (h : c.Reading locked maxPersisted minUnsaved bound) (heffect : Effect c c')
    (hlocked : c.worker.locked = locked) : c'.Reading locked maxPersisted minUnsaved bound := by
  refine ⟨h.bound_le.trans heffect.lastOp_le, h.maxPersisted_le, h.minUnsaved_le, fun id hid => ?_,
    fun id hid hfree e he => ?_⟩
  · rw [heffect.locked id (hlocked ▸ hid)]
    exact h.locked_le id hid
  · rw [heffect.lockOrder] at hid
    rcases heffect.unsaved id e he with he | ⟨hop, _⟩
    · exact h.released id hid hfree e he
    · exact .inr (hop ▸ h.bound_le)

/-- A step of another party keeps what holds of the flush worker. -/
theorem WorkerInv.effect (h : c.WorkerInv c.worker) (heffect : Effect c c') :
    c'.WorkerInv c.worker := by
  cases hworker : c.worker with
  | idle => trivial
  | loading locked =>
    rw [hworker] at h
    intro id hid
    exact h id (heffect.lockOrder ▸ hid)
  | reading locked maxPersisted minUnsaved =>
    rw [hworker] at h
    obtain ⟨bound, hbound⟩ := h
    exact ⟨bound, hbound.effect heffect (by rw [hworker]; rfl)⟩
  | confirmed version =>
    rw [hworker] at h
    exact Safe.effect h heffect

/-- A segment whose version is persisted has no unsaved changes; otherwise they are newer
than the persisted version. -/
theorem Core.unsaved (h : c.Core) {e : SeqNumber × α} (he : e ∈ (c.segments id).unsaved) :
    (c.segments id).persistentVersion < (c.segments id).currentVersion ∧
    (c.segments id).persistentVersion < e.1 := by
  refine ⟨(h.saved id).segment ?_, (h.saved id).changes e he⟩
  have hlen := length_pos_of_mem he
  rw [FlushSegment.unsaved, length_drop] at hlen
  exact Nat.lt_of_sub_pos hlen

/-- Reading one more segment. -/
theorem Reading.next (hcore : c.Core) (h : c.Reading (id :: locked) maxPersisted minUnsaved bound) :
    (c.readSegment (id :: locked) maxPersisted minUnsaved).WorkerInv
      (c.readSegment (id :: locked) maxPersisted minUnsaved).worker := by
  have hpersistent : (c.segments id).persistentVersion ≤ bound :=
    (hcore.persistentVersion_le id).trans (h.locked_le id mem_cons_self)
  refine ⟨bound, h.bound_le, max_le h.maxPersisted_le hpersistent, fun m hm => ?_,
    fun id' hid' => h.locked_le id' (mem_cons_of_mem _ hid'), fun id' hid' hfree e he => ?_⟩
  · split at hm
    · cases hm
      exact (min_le_right _ _).trans hpersistent
    · exact h.minUnsaved_le m hm
  · by_cases heq : id' = id
    · -- the segment just read: its unsaved changes are newer than its persisted version
      subst heq
      obtain ⟨hversion, hnewer⟩ := hcore.unsaved he
      rw [if_pos hversion]
      exact .inl ⟨_, rfl, (min_le_right _ _).trans hnewer.le⟩
    · rcases h.released id' hid' (by simp [heq, hfree]) e he with ⟨m, hm, hle⟩ | hle
      · left
        split
        · rw [Option.mem_def.mp hm]
          exact ⟨_, rfl, (min_le_left _ _).trans hle⟩
        · exact ⟨m, hm, hle⟩
      · exact .inr hle

/-- All segments are read: the version returned can be acknowledged. -/
theorem Reading.confirm (h : c.Reading [] maxPersisted minUnsaved bound) :
    c.Safe (c.confirmedVersion maxPersisted minUnsaved) := by
  have hbound : minUnsaved.getD maxPersisted ≤ bound := by
    cases minUnsaved with
    | none => exact h.maxPersisted_le
    | some m => exact h.minUnsaved_le m rfl
  have hle : c.confirmedVersion maxPersisted minUnsaved ≤ minUnsaved.getD maxPersisted := by
    unfold confirmedVersion
    split
    · exact min_le_right _ _
    · exact le_rfl
  refine Safe.mono ⟨hbound.trans h.bound_le, fun id hid e he => ?_⟩ hle
  rcases h.released id hid not_mem_nil e he with ⟨m, hm, hle⟩ | hle
  · rw [Option.mem_def.mp hm]
    exact hle
  · exact hbound.trans hle

/-! ## Runs -/

/-- What holds in every state of a run without late changes. -/
structure Inv (c : FlushSystem α) : Prop where
  core : c.Core
  overwrite_le : c.maxPersistedOverwrite ≤ c.lastOp
  worker : c.WorkerInv c.worker
  acknowledged : c.Safe c.acknowledged

/-- `flush_all` takes the locks of all segments. -/
theorem workerInv_flushAll (c : FlushSystem α) (order : IterOrder SegmentId)
    (hworker : c.worker = .idle) : (c.flushAll order).WorkerInv (c.flushAll order).worker := by
  rcases c.flushAll_cases order with heq | heq | heq <;> rw [heq]
  · exact fun id hid => (c.flushOrder_fst_perm order).mem_iff.mpr hid
  · exact fun id hid => hid
  · rw [hworker]
    trivial

theorem Inv.step (h : c.Inv)
    (hguard : c.noLateChange l = true) (hstep : c.step l = some c') : c'.Inv := by
  have hcore := h.core.step hguard hstep
  have heffect := h.core.effect hstep
  -- what holds unless the step is one of the worker's own
  have hworker : c'.WorkerInv c.worker := h.worker.effect heffect
  have hack : c'.Safe c.acknowledged := h.acknowledged.effect heffect
  cases transition_of_step hstep with
  | beginOperation hnext => exact ⟨hcore, h.overwrite_le.trans hnext.le, hworker, hack⟩
  | change | failOperation | recoverOperation | finishFlush =>
    exact ⟨hcore, h.overwrite_le, hworker, hack⟩
  | @move _ _ _ delete => cases delete <;> exact ⟨hcore, h.overwrite_le, hworker, hack⟩
  | bumpOverwrite => exact ⟨hcore, max_le h.overwrite_le le_rfl, hworker, hack⟩
  | @flushAll order hidle =>
    refine ⟨hcore, ?_, c.workerInv_flushAll order hidle, ?_⟩
    · rcases c.flushAll_cases order with heq | heq | heq
      all_goals rw [heq]; exact h.overwrite_le
    · rcases c.flushAll_cases order with heq | heq | heq
      all_goals rw [heq] at hack ⊢; exact hack
  | @runFlusher outcome => cases outcome <;> exact ⟨hcore, h.overwrite_le, hworker, hack⟩
  | @loadOverwrite locked hloading =>
    have hall : c.WorkerInv (.loading locked) := hloading ▸ h.worker
    exact ⟨hcore, h.overwrite_le, ⟨c.lastOp, le_rfl, h.overwrite_le, by simp,
      fun id _ => h.core.currentVersion_le id, fun id hid hfree => absurd (hall id hid) hfree⟩, hack⟩
  | @readSegment locked maxPersisted minUnsaved hreading =>
    obtain ⟨bound, hbound⟩ : c.WorkerInv (.reading locked maxPersisted minUnsaved) :=
      hreading ▸ h.worker
    cases locked with
    | nil => exact ⟨hcore, h.overwrite_le, hbound.confirm.effect heffect, hack⟩
    | cons id locked => exact ⟨hcore, h.overwrite_le, hbound.next h.core, hack⟩
  | @acknowledge version keepFrom hconfirmed =>
    have hsafe : c.WorkerInv (.confirmed version) := hconfirmed ▸ h.worker
    refine ⟨hcore, h.overwrite_le, trivial, ?_⟩
    change Safe _ (if keepFrom = 0 then _ else _)
    split
    · exact hack
    · rcases max_choice c.acknowledged (min version (keepFrom - 1)) with heq | heq <;> rw [heq]
      · exact hack
      · exact (Safe.effect hsafe heffect).mono (min_le_left _ _)

/-- A holder as it is loaded: all segments are as they are on disk, and nothing is being
flushed. -/
structure Initial (c : FlushSystem α) : Prop where
  saved : ∀ id, (c.segments id).persisted = (c.segments id).history.length
  persistentVersion_le : ∀ id, (c.segments id).persistentVersion ≤ (c.segments id).currentVersion
  currentVersion_le : ∀ id, (c.segments id).currentVersion ≤ c.lastOp
  flushThread : c.flushThread = none
  worker : c.worker = .idle
  overwrite_le : c.maxPersistedOverwrite ≤ c.lastOp
  acknowledged_le : c.acknowledged ≤ c.lastOp

theorem Initial.inv (h : c.Initial) : c.Inv := by
  have htodo : c.todo = [] := by rw [todo, h.flushThread]
  have hunsaved : ∀ id, (c.segments id).history.drop (c.segments id).persisted = [] := by
    intro id
    rw [h.saved, drop_length]
  have hcore : c.Core := by
    refine ⟨fun id => ⟨fun e he => ?_, fun hlt => ?_⟩, by simp [htodo], by simp [htodo],
      fun id => (h.saved id).le, h.persistentVersion_le, h.currentVersion_le⟩
    · exact absurd (hunsaved id ▸ he) not_mem_nil
    · exact absurd (h.saved id) hlt.ne
  exact ⟨hcore, h.overwrite_le, by rw [h.worker]; trivial, h.acknowledged_le,
    fun id _ e he => by simp [unsaved, hunsaved] at he⟩

/-- In every run without late changes, what the WAL has acknowledged is on disk: every
change that an operation before the acknowledged one made to a segment is in the part of
its history that is persisted. -/
theorem run_acknowledged {c c' : FlushSystem α} (hinit : c.Initial)
    {schedule : List (FlushLabel α)} (hrun : Run.run step c schedule = some c')
    (hguard : Run.Guarded step (fun c l => c.noLateChange l = true) c schedule) :
    ∀ id ∈ c'.lockOrder, ∀ i e, (c'.segments id).history[i]? = some e →
      e.1 < c'.acknowledged → i < (c'.segments id).persisted := by
  have hinv : c'.Inv :=
    Run.run_invariant (fun _ _ _ h hC hstep => h.step hC hstep) hrun hguard hinit.inv
  intro id hid i e he hlt
  by_contra hle
  have hunsaved : e ∈ (c'.segments id).unsaved := by
    refine mem_of_getElem? (i := i - (c'.segments id).persisted) ?_
    rw [unsaved, getElem?_drop, Nat.add_sub_cancel' (not_lt.mp hle)]
    exact he
  exact absurd hlt (not_lt.mpr (hinv.acknowledged.le_unsaved id hid e hunsaved))

/-! ### Two batches of one operation -/

/-- Two appendable segments, empty on disk. -/
def twoSegments : FlushSystem Unit :=
  { nonAppendable := []
    appendable := [0, 1]
    nodup := by decide
    segments := fun _ => { version := none, persistedVersion := none, history := [], persisted := 0 }
    flushDependency := { dependencies := ∅ }
    flushThread := none
    maxPersistedOverwrite := 0
    failedOperation := ∅
    worker := .idle
    lastOp := 0
    acknowledged := 0 }

/-- The flush worker flushes `count` changed segments of two, and acknowledges what it
reads afterwards. -/
def fullFlush (count : Nat) : List (FlushLabel Unit) :=
  [.flushAll .ascending] ++ List.replicate count (.runFlusher .done) ++
    [.finishFlush, .loadOverwrite, .readSegment, .readSegment, .readSegment, .acknowledge 100]

/-- Both batches of operation `1` are made before the flush. -/
def batchesThenFlush : List (FlushLabel Unit) :=
  [.beginOperation 1, .change 0 1 (), .change 0 1 ()] ++ fullFlush 1 ++
    [.beginOperation 2, .change 1 2 ()] ++ fullFlush 1

theorem twoSegments_initial : twoSegments.Initial :=
  ⟨fun _ => rfl, fun _ => le_rfl, fun _ => le_rfl, rfl, rfl, le_rfl, le_rfl⟩

theorem run_acknowledged_batchesThenFlush :
    ∃ c, Run.run step twoSegments batchesThenFlush = some c ∧
      c.acknowledged = 2 ∧ ∀ id ∈ c.lockOrder, ∀ i e, (c.segments id).history[i]? = some e →
        e.1 < c.acknowledged → i < (c.segments id).persisted := by
  obtain ⟨c, hc⟩ := Option.isSome_iff_exists.mp
    (show (Run.run step twoSegments batchesThenFlush).isSome = true by decide)
  have hack : (Run.run step twoSegments batchesThenFlush).map FlushSystem.acknowledged = some 2 := by
    decide
  rw [hc] at hack
  exact ⟨c, hc, Option.some.inj hack, run_acknowledged twoSegments_initial hc (by decide)⟩

/-- The flush runs between the two batches of operation `1`. -/
def flushBetweenBatches : List (FlushLabel Unit) :=
  [.beginOperation 1, .change 0 1 ()] ++ fullFlush 1 ++ [.change 0 1 ()] ++
    [.beginOperation 2, .change 1 2 ()] ++ fullFlush 1

/-- Operation `1` is acknowledged, while its second change is not on disk. -/
theorem run_flushBetweenBatches :
    ∃ c, Run.run step twoSegments flushBetweenBatches = some c ∧ c.acknowledged = 2 ∧
      (c.segments 0).history[1]? = some (1, ()) ∧ (c.segments 0).persisted = 1 := by
  have hrun : (Run.run step twoSegments flushBetweenBatches).map
      (fun c => (c.acknowledged, (c.segments 0).history[1]?, (c.segments 0).persisted)) =
        some (2, some (1, ()), 1) := by
    decide
  obtain ⟨c, hc, heq⟩ := Option.map_eq_some_iff.mp hrun
  simp only [Prod.mk.injEq] at heq
  exact ⟨c, hc, heq⟩

end FlushSystem

end Qdrant
