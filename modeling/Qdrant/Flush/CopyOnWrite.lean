-- SUMMARY: A crash between two flushers never loses both copies of a moved point.
import Qdrant.Flush.Durability

/-!
# Copy-on-write and the order of flushes

A copy-on-write move puts a point into an appendable segment and deletes it from a
segment that cannot be appended to. Each segment is flushed on its own, so after a
crash the two sides of a move can be on disk in any combination; only the
combination where the source is without the point and the destination does not
have it yet must not happen. The flush dependencies see to it: the destination is
flushed before the source.

`Move` follows one move through the rest of a run.
-/

namespace Qdrant

open List FlushSystem

variable {P α : Type}

/-! ## Points of a segment -/

/-- A change of a point. The version of a point that is put is the number of the operation. -/
inductive PointChange (P : Type) where
  | put (point : P)
  | delete (point : P)

namespace PointChange

def isPut : PointChange P → Bool
  | put _ => true
  | delete _ => false

section Points

variable [DecidableEq P]

def apply (points : P → Option SeqNumber) (e : SeqNumber × PointChange P) : P → Option SeqNumber :=
  match e.2 with
  | put point => Function.update points point (some e.1)
  | delete point => Function.update points point none

/-- The versions of the points after a history of changes. -/
def points (history : List (SeqNumber × PointChange P)) : P → Option SeqNumber :=
  history.foldl apply fun _ => none

variable {point : P} {changes : List (SeqNumber × PointChange P)}

variable {start : P → Option SeqNumber}

/-- Deletes do not bring a point back. -/
theorem of_foldl_deletes {version : SeqNumber} (hdeletes : ∀ e ∈ changes, e.2.isPut = false)
    (h : changes.foldl apply start point = some version) : start point = some version := by
  induction changes generalizing start with
  | nil => exact h
  | cons e changes ih =>
    have hrest := ih (fun e' he' => hdeletes e' (mem_cons_of_mem _ he')) h
    obtain ⟨opNum, change⟩ := e
    cases change with
    | put p => exact absurd (hdeletes _ mem_cons_self) (by simp [isPut])
    | delete p =>
      simp only [apply, Function.update_apply] at hrest
      split at hrest
      · cases hrest
      · exact hrest

/-- Puts of later operations only make the version of a point larger. -/
theorem le_foldl_puts {opNum : SeqNumber} (hputs : ∀ e ∈ changes, e.2.isPut = true ∧ opNum ≤ e.1)
    (h : ∃ version, opNum ≤ version ∧ start point = some version) :
    ∃ version, opNum ≤ version ∧ changes.foldl apply start point = some version := by
  induction changes generalizing start with
  | nil => exact h
  | cons e changes ih =>
    refine ih (fun e' he' => hputs e' (mem_cons_of_mem _ he')) ?_
    obtain ⟨hput, hle⟩ := hputs e mem_cons_self
    obtain ⟨n, change⟩ := e
    cases change with
    | put p =>
      simp only [apply, Function.update_apply]
      split
      · exact ⟨n, hle, rfl⟩
      · exact h
    | delete p => exact absurd hput (by simp [isPut])

variable {history : List (SeqNumber × PointChange P)}

/-- A point that is put and from then on only put again is there after every part of the
history that contains the put. -/
theorem points_take_of_puts {at' len : Nat}
    {opNum : SeqNumber} (hput : history[at']? = some (opNum, put point))
    (hputs : ∀ e ∈ history.drop at', e.2.isPut = true ∧ opNum ≤ e.1) (hlt : at' < len) :
    ∃ version, opNum ≤ version ∧ points (history.take len) point = some version := by
  obtain ⟨k, rfl⟩ := Nat.exists_eq_add_of_lt hlt
  rw [points, Nat.add_assoc, Nat.add_comm k 1, ← Nat.add_assoc, take_add, take_add_one,
    hput, foldl_append]
  refine le_foldl_puts (fun e he => hputs e ?_) ⟨opNum, le_rfl, ?_⟩
  · exact (drop_sublist_drop_left _ (Nat.le_succ at')).subset (mem_of_mem_take he)
  · simp [apply]

end Points

end PointChange

/-- The points of a segment as they are on disk. -/
def FlushSegment.disk [DecidableEq P] (s : FlushSegment (PointChange P)) : P → Option SeqNumber :=
  PointChange.points (s.history.take s.persisted)

namespace FlushSystem

/-! ## What a flush captures, and in which order -/

/-- A change is on disk, or a flusher that has not run yet has captured it. -/
def Captured (c : FlushSystem α) (id : SegmentId) (i : Nat) : Prop :=
  i < (c.segments id).persisted ∨ ∃ f ∈ c.todo, f.segment = id ∧ i < f.captured

variable {c : FlushSystem α}

/-- The flush that starts captures all changes that are not on disk. -/
theorem captured_startFlush (hcore : c.Core) (order : IterOrder SegmentId) {id : SegmentId}
    (hid : id ∈ c.lockOrder) {i : Nat} (hi : i < (c.segments id).history.length) :
    (c.startFlush order).Captured id i := by
  rcases Nat.lt_or_ge i (c.segments id).persisted with hlt | hle
  · exact .inl hlt
  · refine .inr ⟨_, mem_filterMap.mpr ⟨(id, c.segments id), ?_,
      FlushSegment.flusher_of_unsaved id (hcore.saved id) (hle.trans_lt hi)⟩, rfl, hi⟩
    rw [flushOrder_eq]
    exact mem_map_of_mem ((c.flushDependency.sortElements_perm order c.nodup).mem_iff.mpr hid)

/-- Without cycles, a segment is flushed after the segments it depends on. -/
theorem sublist_flushOrder (order : IterOrder SegmentId)
    (hacyclic : c.flushDependency.Acyclic c.lockOrder) {source destination : SegmentId}
    (hsource : source ∈ c.lockOrder)
    (hdependency : destination ∈ c.flushDependency.depsIn c.lockOrder source) :
    [(destination, c.segments destination), (source, c.segments source)].Sublist
      (c.flushOrder order) := by
  have hmem := (c.flushDependency.sortElements_perm order c.nodup).mem_iff.mpr hsource
  obtain ⟨before, after, hsplit⟩ := append_of_mem hmem
  have hbefore := c.flushDependency.sortElements_ordered order c.nodup hacyclic hsplit hdependency
  have hsublist : [destination, source].Sublist (before ++ source :: after) :=
    (singleton_sublist.mpr (mem_toFinset.mp hbefore)).append (singleton_sublist.mpr mem_cons_self)
  rw [flushOrder_eq, lockOrder, hsplit]
  exact hsublist.map fun id => (id, c.segments id)

/-- A flusher that runs persists what it captured of its segment. -/
theorem runFlusher_done (hcore : c.Core) {f : Flusher} {rest : List Flusher}
    {maxApplied : SeqNumber} (hthread : c.flushThread = some ⟨f :: rest, maxApplied, .running⟩)
    {c' : FlushSystem α} (hc' : c' = c.runFlusher ⟨f :: rest, maxApplied, .running⟩ f rest .done) :
    (∀ id, (c'.segments id).history = (c.segments id).history) ∧
    (∀ id, (c'.segments id).persisted =
      if id = f.segment then f.captured else (c.segments id).persisted) ∧
    ∀ id, (c.segments id).persisted ≤ (c'.segments id).persisted := by
  have hf := hcore.inFlight f (by simp [todo_eq hthread])
  simp only [← forall_and, hc', runFlusher, hf.segments_complete]
  intro id
  split
  next hid =>
    rw [hid]
    exact ⟨rfl, rfl, hf.persisted_le⟩
  · exact ⟨rfl, rfl, le_rfl⟩

/-! ## Runs of moves and flushes -/

section

variable (c : FlushSystem (PointChange P))

/-- The steps of a run in which points are only moved: a move puts and deletes, the flush
dependencies are acyclic when segments are flushed, and no flusher is cancelled. -/
def MoveStep : FlushLabel (PointChange P) → Prop
  | .change _ _ _ => False
  | .move _ _ put delete => put.isPut = true ∧ ∀ a ∈ delete, a.isPut = false
  | .flushAll _ => c.flushDependency.Acyclic c.lockOrder
  | .runFlusher outcome => outcome ≠ .cancelled
  | _ => True

/-- The flush that runs, if any, was started before the current operation changed anything. -/
def flushIsOlder : Bool :=
  match c.flushThread with
  | some ⟨_, maxAppliedVersion, .running⟩ => maxAppliedVersion < c.lastOp
  | _ => true

/-- A move raises the versions of both segments above all captured ones, and its operation
is newer than the flush that runs. -/
def movesInTime : FlushLabel (PointChange P) → Bool
  | .move source destination put delete =>
    c.noLateChange (.move source destination put delete) && c.flushIsOlder
  | _ => true

end

theorem noLateChange_of_moveStep {c : FlushSystem (PointChange P)} {l : FlushLabel (PointChange P)}
    (hmove : c.MoveStep l) (htime : c.movesInTime l = true) : c.noLateChange l = true := by
  cases l with
  | change => exact hmove.elim
  | move source destination put delete => exact (Bool.and_eq_true_iff.mp htime).1
  | _ => rfl

/-- The segments that points are moved out of are on disk, but for deletes. -/
def SourcesOnDisk (c : FlushSystem (PointChange P)) : Prop :=
  ∀ id ∈ c.nonAppendable, ∀ e ∈ (c.segments id).unsaved, e.2.isPut = false

end FlushSystem

/-! ## Following a move -/

/-- A move that deletes a point from its source: where its two changes are in the histories
of the segments. -/
structure Move (P : Type) where
  source : SegmentId
  destination : SegmentId
  point : P
  oldVersion : SeqNumber
  opNum : SeqNumber
  deleteAt : Nat
  putAt : Nat

namespace Move

variable [DecidableEq P]

/-- What holds of a move in the states after it. -/
structure Follows (m : Move P) (c : FlushSystem (PointChange P)) : Prop where
  source_mem : m.source ∈ c.nonAppendable
  destination_mem : m.destination ∈ c.appendable
  opNum_le : m.opNum ≤ c.lastOp
  /-- Until the delete is on disk, the point is on disk in the source. -/
  old : ∀ len, (c.segments m.source).persisted ≤ len → len ≤ m.deleteAt →
    PointChange.points ((c.segments m.source).history.take len) m.point = some m.oldVersion
  deleteAt_lt : m.deleteAt < (c.segments m.source).history.length
  put : (c.segments m.destination).history[m.putAt]? = some (m.opNum, .put m.point)
  puts : ∀ e ∈ (c.segments m.destination).history.drop m.putAt, e.2.isPut = true ∧ m.opNum ≤ e.1
  ordered : m.deleteAt < (c.segments m.source).persisted →
    m.putAt < (c.segments m.destination).persisted
  /-- A flusher that would persist the delete runs after the put is persisted. -/
  flushers : ∀ f ∈ c.todo, f.segment = m.source → m.deleteAt < f.captured →
    m.putAt < (c.segments m.destination).persisted ∨
      ∃ g, g.segment = m.destination ∧ m.putAt < g.captured ∧ [g, f].Sublist c.todo
  dependency : (∃ version, c.flushDependency.dependency m.source m.destination = some version ∧
      m.opNum ≤ version) ∨
    (m.deleteAt < (c.segments m.source).persisted ∧
      m.putAt < (c.segments m.destination).persisted)
  /-- A flush that drops the dependency has captured both sides. -/
  captured : ∀ todo maxApplied, c.flushThread = some ⟨todo, maxApplied, .running⟩ →
    m.opNum ≤ maxApplied → c.Captured m.source m.deleteAt ∧ c.Captured m.destination m.putAt

variable {m : Move P} {c c' : FlushSystem (PointChange P)}

/-- No crash loses both copies. -/
theorem Follows.disk (h : m.Follows c) : (c.segments m.source).disk m.point = some m.oldVersion ∨
    ∃ version, m.opNum ≤ version ∧ (c.segments m.destination).disk m.point = some version := by
  rcases Nat.lt_or_ge m.deleteAt (c.segments m.source).persisted with hlt | hle
  · exact .inr (PointChange.points_take_of_puts h.put h.puts (h.ordered hlt))
  · exact .inl (h.old _ le_rfl hle)

theorem Follows.source_ne (h : m.Follows c) : m.source ≠ m.destination := by
  intro heq
  exact disjoint_of_nodup_append c.nodup h.source_mem (heq ▸ h.destination_mem)

/-- Steps that concern neither segments nor flushes. -/
theorem Follows.congr (h : m.Follows c) (hnon : c'.nonAppendable = c.nonAppendable)
    (happ : c'.appendable = c.appendable) (hsegments : c'.segments = c.segments)
    (hthread : c'.flushThread = c.flushThread)
    (hdependency : c'.flushDependency = c.flushDependency) (hlastOp : c.lastOp ≤ c'.lastOp) :
    m.Follows c' := by
  have htodo : c'.todo = c.todo := by rw [todo, hthread, todo]
  have hcaptured : ∀ id i, c'.Captured id i ↔ c.Captured id i := by
    intro id i
    rw [FlushSystem.Captured, htodo, hsegments, FlushSystem.Captured]
  obtain ⟨h1, h2, h3, h4, h5, h6, h7, h8, h9, h10, h11⟩ := h
  refine ⟨hnon ▸ h1, happ ▸ h2, h3.trans hlastOp, ?_, ?_, ?_, ?_, ?_, ?_, ?_, ?_⟩
  all_goals simp only [hsegments, htodo, hthread, hdependency, hcaptured]; assumption

/-- Another move, or a further one of the same kind. -/
theorem Follows.move (h : m.Follows c) {source destination : SegmentId} {put : PointChange P}
    {delete : Option (PointChange P)} (hsource : source ∈ c.nonAppendable)
    (hdestination : destination ∈ c.appendable) (hput : put.isPut = true) :
    m.Follows (c.move source destination put delete) := by
  have hdisjoint := List.disjoint_of_nodup_append c.nodup
  have hne : source ≠ destination := fun heq => hdisjoint hsource (heq ▸ hdestination)
  have hne' : m.destination ≠ source := fun heq => hdisjoint hsource (heq ▸ h.destination_mem)
  have hhistory := c.move_history put delete hne
  have hpersisted := c.move_persisted source destination put delete
  have htodo : (c.move source destination put delete).todo = c.todo := by cases delete <;> rfl
  have hputAt : m.putAt < (c.segments m.destination).history.length :=
    (List.getElem?_eq_some_iff.mp h.put).1
  refine ⟨?_, ?_, ?_, fun len hlen hle => ?_, ?_, ?_, fun e he => ?_, ?_, ?_, ?_, ?_⟩
  · cases delete <;> exact h.source_mem
  · cases delete <;> exact h.destination_mem
  · cases delete <;> exact h.opNum_le
  · rw [hhistory, List.take_append_of_le_length (hle.trans h.deleteAt_lt.le)]
    exact h.old len (hpersisted m.source ▸ hlen) hle
  · rw [hhistory, List.length_append]
    exact h.deleteAt_lt.trans_le (Nat.le_add_right _ _)
  · rw [hhistory, List.getElem?_append_left hputAt]
    exact h.put
  · rw [hhistory, List.drop_append_of_le_length hputAt.le, List.mem_append] at he
    rcases he with he | he
    · exact h.puts e he
    · split at he
      · rw [List.mem_singleton.mp he]
        exact ⟨hput, h.opNum_le⟩
      · cases he
  · rw [hpersisted, hpersisted]
    exact h.ordered
  · rw [htodo, hpersisted]
    exact h.flushers
  · rw [hpersisted, hpersisted, move_flushDependency, TopoSort.dependency_addDependency]
    split
    · exact .inl ⟨c.lastOp, rfl, h.opNum_le⟩
    · exact h.dependency
  · rw [c.move_flushThread, FlushSystem.Captured, FlushSystem.Captured, htodo, hpersisted, hpersisted]
    exact h.captured

/-- A move that is made in time can be followed from then on. -/
theorem follows_move {source destination : SegmentId} {point : P} {oldVersion : SeqNumber}
    (hcore : c.Core) (hdisk : c.SourcesOnDisk) (htime : c.flushIsOlder = true)
    (hsource : source ∈ c.nonAppendable) (hdestination : destination ∈ c.appendable)
    (hold : PointChange.points (c.segments source).history point = some oldVersion) :
    Follows
      { source, destination, point, oldVersion, opNum := c.lastOp
        deleteAt := (c.segments source).history.length
        putAt := (c.segments destination).history.length }
      (c.move source destination (.put point) (some (.delete point))) := by
  have hdisjoint := disjoint_of_nodup_append c.nodup
  have hne : source ≠ destination := fun heq => hdisjoint hsource (heq ▸ hdestination)
  have hhistory := c.move_history (.put point) (some (.delete point)) hne
  have hpersisted := c.move_persisted source destination (.put point) (some (.delete point))
  refine ⟨hsource, hdestination, le_rfl, fun len hlen hle => ?_, ?_, ?_, fun e he => ?_, ?_, ?_, ?_,
    ?_⟩
  · rw [hpersisted] at hlen
    rw [hhistory, take_append_of_le_length hle]
    rw [PointChange.points, ← take_append_drop len (c.segments source).history, foldl_append] at hold
    refine PointChange.of_foldl_deletes (fun e he => hdisk source hsource e ?_) hold
    exact (drop_sublist_drop_left _ hlen).subset he
  · simp [hhistory, hne]
  · simp [hhistory]
  · rw [hhistory, drop_append_length, if_pos rfl, mem_singleton] at he
    simp [he, PointChange.isPut]
  · rw [hpersisted]
    exact fun hlt => absurd (hcore.persisted_le source) (not_le.mpr hlt)
  · rintro f hf rfl hlt
    exact absurd (hcore.inFlight f hf).captured_le (not_le.mpr hlt)
  · rw [move_flushDependency]
    exact .inl ⟨c.lastOp, by simp, le_rfl⟩
  · intro todo maxApplied hrunning hle
    rw [c.move_flushThread] at hrunning
    rw [flushIsOlder, hrunning] at htime
    exact absurd hle (not_le.mpr (of_decide_eq_true htime))

/-! ### Flushing -/

section

variable (h : m.Follows c) (hcore : c.Core) (order : IterOrder SegmentId)
  (hacyclic : c.flushDependency.Acyclic c.lockOrder)

include h hcore hacyclic

theorem Follows.startFlush : m.Follows (c.startFlush order) := by
  have hputAt : m.putAt < (c.segments m.destination).history.length :=
    (List.getElem?_eq_some_iff.mp h.put).1
  have hsource : m.source ∈ c.lockOrder := List.mem_append_left _ h.source_mem
  have hdestination : m.destination ∈ c.lockOrder := List.mem_append_right _ h.destination_mem
  refine { h with
    flushers := fun f hf hfsource _ => ?_
    captured := fun _ _ _ _ =>
      ⟨captured_startFlush hcore order hsource h.deleteAt_lt,
        captured_startFlush hcore order hdestination hputAt⟩ }
  rcases Nat.lt_or_ge m.putAt (c.segments m.destination).persisted with hlt | hle
  · exact .inl hlt
  · -- the put is not on disk, so neither is the delete, and the dependency is still there
    right
    have hdelete : (c.segments m.source).persisted ≤ m.deleteAt :=
      not_lt.mp fun hlt => absurd (h.ordered hlt) (not_lt.mpr hle)
    obtain ⟨version, hversion, _⟩ := h.dependency.resolve_right fun hboth =>
      absurd hboth.2 (not_lt.mpr hle)
    have hdeps : m.destination ∈ c.flushDependency.depsIn c.lockOrder m.source :=
      TopoSort.mem_depsIn.mpr ⟨⟨version, hversion⟩, hdestination⟩
    have hsublist := (sublist_flushOrder order hacyclic hsource hdeps).filterMap
      fun e => e.2.flusher e.1 false
    have hflushSource := FlushSegment.flusher_of_unsaved m.source (hcore.saved m.source)
      (hdelete.trans_lt h.deleteAt_lt)
    have hflushDestination := FlushSegment.flusher_of_unsaved m.destination (hcore.saved m.destination)
      (hle.trans_lt hputAt)
    simp only [List.filterMap_cons, hflushSource, hflushDestination] at hsublist
    have hfeq := mem_todo_startFlush hf
    rw [hfsource] at hfeq
    exact ⟨_, rfl, hputAt, hfeq ▸ hsublist⟩

theorem Follows.flushAll : m.Follows (c.flushAll order) := by
  rcases c.flushAll_cases order with heq | heq | heq <;> rw [heq]
  · exact h.startFlush hcore order hacyclic
  · exact h.congr rfl rfl rfl rfl rfl le_rfl
  · exact { h with flushers := by simp [todo], captured := by simp }

end

variable {maxApplied : SeqNumber} {rest : List Flusher}

/-- The next flusher persists what it captured. -/
theorem Follows.done (h : m.Follows c) (hcore : c.Core) {f : Flusher}
    (hthread : c.flushThread = some ⟨f :: rest, maxApplied, .running⟩) :
    m.Follows (c.runFlusher ⟨f :: rest, maxApplied, .running⟩ f rest .done) := by
  have htodo : c.todo = f :: rest := todo_eq hthread
  generalize hc' : c.runFlusher ⟨f :: rest, maxApplied, .running⟩ f rest .done = c'
  obtain ⟨hhistory, hpersisted, hmono⟩ := runFlusher_done hcore hthread hc'.symm
  have htodo' : c'.todo = rest := by rw [← hc']; rfl
  have hcaptured : ∀ id i, c.Captured id i → c'.Captured id i := by
    rintro id i (hlt | ⟨g, hg, rfl, hlt⟩)
    · exact .inl (hlt.trans_le (hmono id))
    · rw [htodo] at hg
      rcases mem_cons.mp hg with rfl | hg
      · exact .inl (by rwa [hpersisted, if_pos rfl])
      · exact .inr ⟨g, htodo' ▸ hg, rfl, hlt⟩
  refine ⟨?_, ?_, ?_, fun len hlen hle => ?_, ?_, ?_, ?_, fun hlt => ?_, fun g hg hgsource hlt => ?_,
    ?_, fun todo maxApplied' hrunning hle => ?_⟩
  · rw [← hc']
    exact h.source_mem
  · rw [← hc']
    exact h.destination_mem
  · rw [← hc']
    exact h.opNum_le
  · rw [hhistory]
    exact h.old len ((hmono _).trans hlen) hle
  · rw [hhistory]
    exact h.deleteAt_lt
  · rw [hhistory]
    exact h.put
  · rw [hhistory]
    exact h.puts
  · rw [hpersisted] at hlt
    split at hlt
    · -- the source is flushed: its flusher is the first one, so the put is on disk
      next hsource =>
        refine ((h.flushers f (by simp [htodo]) hsource.symm hlt).resolve_right ?_).trans_le (hmono _)
        rintro ⟨g, hdestination, _, hsublist⟩
        have hnodup := hcore.todo_nodup
        rw [htodo] at hsublist hnodup
        rcases cons_sublist_cons'.mp hsublist with hrest | ⟨rfl, _⟩
        · have hmem : f ∈ rest := hrest.subset (by simp)
          exact (nodup_cons.mp hnodup).1 (mem_map_of_mem hmem)
        · exact h.source_ne (hsource.trans hdestination)
    · exact (h.ordered hlt).trans_le (hmono _)
  · rw [htodo'] at hg
    rcases h.flushers g (by simp [htodo, hg]) hgsource hlt with hput | ⟨g', hg', hput, hsublist⟩
    · exact .inl (hput.trans_le (hmono _))
    · rw [htodo] at hsublist
      rcases cons_sublist_cons'.mp hsublist with hrest | ⟨rfl, _⟩
      · exact .inr ⟨g', hg', hput, htodo' ▸ hrest⟩
      · exact .inl (by rwa [hpersisted, if_pos hg'.symm])
  · have hdependency : c'.flushDependency = c.flushDependency := by rw [← hc']; rfl
    rw [hdependency]
    exact h.dependency.imp_right fun hboth =>
      ⟨hboth.1.trans_le (hmono _), hboth.2.trans_le (hmono _)⟩
  · have hmax : maxApplied' = maxApplied := by
      rw [← hc'] at hrunning
      simp only [runFlusher, Option.some.injEq, FlushThread.mk.injEq] at hrunning
      exact hrunning.2.1.symm
    obtain ⟨hsource, hdestination⟩ := h.captured _ _ hthread (hmax ▸ hle)
    exact ⟨hcaptured _ _ hsource, hcaptured _ _ hdestination⟩

theorem Follows.runFlusher (h : m.Follows c) (hcore : c.Core) {f : Flusher}
    (hthread : c.flushThread = some ⟨f :: rest, maxApplied, .running⟩)
    {outcome : FlushOutcome} (houtcome : outcome ≠ .cancelled) :
    m.Follows (c.runFlusher ⟨f :: rest, maxApplied, .running⟩ f rest outcome) := by
  cases outcome with
  | done => exact h.done hcore hthread
  | cancelled => exact absurd rfl houtcome
  | failed =>
    exact { h with
      flushers := by simp [FlushSystem.todo, FlushSystem.runFlusher]
      captured := by simp [FlushSystem.runFlusher] }

/-- A finished flush drops the dependency only if both sides are on disk. -/
theorem Follows.finishFlush (h : m.Follows c)
    (hthread : c.flushThread = some ⟨[], maxApplied, .running⟩) :
    m.Follows { c with
      flushThread := some ⟨[], maxApplied, .finished⟩
      flushDependency := c.flushDependency.retain fun _ _ version => version > maxApplied } := by
  have hcaptured : ∀ id i, c.Captured id i → i < (c.segments id).persisted := by
    rintro id i (hlt | ⟨f, hf, _⟩)
    · exact hlt
    · simp [todo_eq hthread] at hf
  refine { h with flushers := by simp [todo], dependency := ?_, captured := by simp }
  rcases Nat.lt_or_ge maxApplied m.opNum with hlt | hle
  · rcases h.dependency with ⟨version, hversion, hle⟩ | hboth
    · refine .inl ⟨version, ?_, hle⟩
      rw [TopoSort.dependency_retain, hversion]
      simp [hlt.trans_le hle]
    · exact .inr hboth
  · obtain ⟨hsource, hdestination⟩ := h.captured _ _ hthread hle
    exact .inr ⟨hcaptured _ _ hsource, hcaptured _ _ hdestination⟩

/-- Every step of a run of moves and flushes. -/
theorem Follows.step {l : FlushLabel (PointChange P)} (h : m.Follows c) (hcore : c.Core)
    (hmove : c.MoveStep l) (hstep : c.step l = some c') : m.Follows c' := by
  cases transition_of_step hstep with
  | beginOperation hnext => exact h.congr rfl rfl rfl rfl rfl hnext.le
  | change => exact hmove.elim
  | move hsource hdestination => exact h.move hsource hdestination hmove.1
  | bumpOverwrite | failOperation | recoverOperation | loadOverwrite | acknowledge =>
    exact h.congr rfl rfl rfl rfl rfl le_rfl
  | flushAll => exact h.flushAll hcore _ hmove
  | runFlusher hthread => exact h.runFlusher hcore hthread hmove
  | finishFlush hthread => exact h.finishFlush hthread
  | readSegment =>
    obtain ⟨worker, heq⟩ := c.readSegment_eq _ _ _
    rw [heq]
    exact h.congr rfl rfl rfl rfl rfl le_rfl

end Move

namespace FlushSystem

/-! ## Runs -/

theorem SourcesOnDisk.of_segments_eq {c c' : FlushSystem (PointChange P)} (h : c.SourcesOnDisk)
    (hnon : c'.nonAppendable = c.nonAppendable) (hsegments : c'.segments = c.segments) :
    c'.SourcesOnDisk := by
  unfold SourcesOnDisk
  rw [hnon, hsegments]
  exact h

theorem SourcesOnDisk.move {c : FlushSystem (PointChange P)} (h : c.SourcesOnDisk)
    {source destination : SegmentId} {put : PointChange P} {delete : Option (PointChange P)}
    (hsource : source ∈ c.nonAppendable) (hdestination : destination ∈ c.appendable)
    (hdelete : ∀ a ∈ delete, a.isPut = false) :
    (c.move source destination put delete).SourcesOnDisk := by
  have hdisjoint := disjoint_of_nodup_append c.nodup
  have hne : source ≠ destination := fun heq => hdisjoint hsource (heq ▸ hdestination)
  have hnon : (c.move source destination put delete).nonAppendable = c.nonAppendable := by
    cases delete <;> rfl
  intro id hid e he
  rw [hnon] at hid
  have hid' : id ≠ destination := fun heq => hdisjoint hid (heq ▸ hdestination)
  rw [FlushSegment.unsaved, c.move_history put delete hne, c.move_persisted, if_neg hid',
    drop_append, mem_append] at he
  rcases he with he | he
  · exact h id hid e he
  · have hmem := mem_of_mem_drop he
    split at hmem
    · cases delete with
      | none => cases hmem
      | some a =>
        rw [mem_singleton.mp hmem]
        exact hdelete a rfl
    · cases hmem

theorem SourcesOnDisk.step {c c' : FlushSystem (PointChange P)} {l : FlushLabel (PointChange P)}
    (h : c.SourcesOnDisk) (hcore : c.Core) (hmove : c.MoveStep l) (hstep : c.step l = some c') :
    c'.SourcesOnDisk := by
  cases transition_of_step hstep with
  | beginOperation | bumpOverwrite | failOperation | recoverOperation | finishFlush
  | loadOverwrite | acknowledge => exact h.of_segments_eq rfl rfl
  | change => exact hmove.elim
  | move hsource hdestination => exact h.move hsource hdestination hmove.2
  | @flushAll order _ =>
    rcases c.flushAll_cases order with heq | heq | heq
    all_goals rw [heq]; exact h.of_segments_eq rfl rfl
  | @runFlusher outcome f rest maxApplied hthread =>
    cases outcome with
    | done =>
      obtain ⟨hhistory, -, hmono⟩ := runFlusher_done hcore hthread rfl
      intro id hid e he
      rw [FlushSegment.unsaved, hhistory] at he
      exact h id hid e ((drop_sublist_drop_left _ (hmono id)).subset he)
    | cancelled | failed => exact h.of_segments_eq rfl rfl
  | readSegment =>
    obtain ⟨worker, heq⟩ := c.readSegment_eq _ _ _
    rw [heq]
    exact h.of_segments_eq rfl rfl

/-- In every run of moves and flushes whose moves come in time, no crash loses both copies
of a moved point: after the move it is on disk in the source in its old version, or in the
destination in a version not before the move. If the flush dependency that the move recorded
is gone, both of its changes are on disk. -/
theorem move_survives_crash [DecidableEq P] {c₀ c₁ c₂ : FlushSystem (PointChange P)}
    (hcore : c₀.Core) (hdisk : c₀.SourcesOnDisk) {before after : List (FlushLabel (PointChange P))}
    {source destination : SegmentId} {point : P} {oldVersion : SeqNumber}
    (hbefore : Run.run step c₀ before = some c₁)
    (hold : PointChange.points (c₁.segments source).history point = some oldVersion)
    (hrun : Run.run step c₀
      (before ++ .move source destination (.put point) (some (.delete point)) :: after) = some c₂)
    (hguard : Run.Guarded step (fun c l => c.MoveStep l ∧ c.movesInTime l = true) c₀
      (before ++ .move source destination (.put point) (some (.delete point)) :: after)) :
    ((c₂.segments source).disk point = some oldVersion ∨ ∃ newVersion, c₁.lastOp ≤ newVersion ∧
        (c₂.segments destination).disk point = some newVersion) ∧
    (c₂.flushDependency.dependency source destination = none →
      (c₁.segments source).history.length < (c₂.segments source).persisted ∧
      (c₁.segments destination).history.length < (c₂.segments destination).persisted) := by
  obtain ⟨hguardBefore, hguardMove⟩ := (Run.guarded_append hbefore).mp hguard
  -- up to the move
  have hinv : c₁.Core ∧ c₁.SourcesOnDisk :=
    Run.run_invariant (P := fun c => c.Core ∧ c.SourcesOnDisk)
      (fun _ _ _ h hC hstep => ⟨h.1.step (noLateChange_of_moveStep hC.1 hC.2) hstep,
        h.2.step h.1 hC.1 hstep⟩) hbefore hguardBefore ⟨hcore, hdisk⟩
  rw [Run.run_append, hbefore] at hrun
  obtain ⟨c, hstep, hafter⟩ := Run.run_cons_eq_some.mp hrun
  obtain ⟨⟨hmoveStep, htime⟩, hguardAfter⟩ := hguardMove
  rw [hstep] at hguardAfter
  have hcoreMoved := hinv.1.step (noLateChange_of_moveStep hmoveStep htime) hstep
  -- from the move on
  have hfollows : Move.Follows ⟨source, destination, point, oldVersion, c₁.lastOp,
      (c₁.segments source).history.length, (c₁.segments destination).history.length⟩ c := by
    cases transition_of_step hstep with
    | move hsource hdestination =>
      exact Move.follows_move hinv.1 hinv.2 (Bool.and_eq_true_iff.mp htime).2 hsource hdestination
        hold
  have hend := (Run.run_invariant (P := fun c => c.Core ∧ Move.Follows _ c)
    (fun _ _ _ h hC hstep => ⟨h.1.step (noLateChange_of_moveStep hC.1 hC.2) hstep,
      h.2.step h.1 hC.1 hstep⟩) hafter hguardAfter ⟨hcoreMoved, hfollows⟩).2
  refine ⟨hend.disk, fun hgone => hend.dependency.resolve_left ?_⟩
  rintro ⟨version, hversion, _⟩
  exact absurd (hgone.symm.trans hversion) (by simp)

/-! ### Moves of one operation before and after a flush -/

/-- The steps of a run of moves where no destination is a source in turn. -/
def isFlatMoveStep (c : FlushSystem (PointChange P)) : FlushLabel (PointChange P) → Bool
  | .change _ _ _ => false
  | .move _ _ put delete => put.isPut && delete.all fun a => !a.isPut
  | .flushAll _ =>
    decide (∀ e ∈ c.lockOrder, ∀ d ∈ c.flushDependency.depsIn c.lockOrder e,
      c.flushDependency.depsIn c.lockOrder d = ∅)
  | .runFlusher outcome => outcome != .cancelled
  | _ => true

theorem moveStep_of_isFlatMoveStep (c : FlushSystem (PointChange P)) (l : FlushLabel (PointChange P))
    (h : c.isFlatMoveStep l = true) : c.MoveStep l := by
  cases l with
  | change => simp [isFlatMoveStep] at h
  | move source destination put delete => cases delete <;> simpa [isFlatMoveStep, MoveStep] using h
  | flushAll order => exact TopoSort.acyclic_of_flat (of_decide_eq_true h)
  | runFlusher outcome => simpa [isFlatMoveStep, MoveStep] using h
  | _ => trivial

/-- A segment with three points that cannot be appended to, and two empty ones that can. -/
def threeSegments : FlushSystem (PointChange Nat) :=
  { nonAppendable := [0]
    appendable := [1, 2]
    nodup := by decide
    segments := fun id =>
      if id = 0 then
        { version := some 1
          persistedVersion := some 1
          history := [(1, .put 10), (1, .put 11), (1, .put 12)]
          persisted := 3 }
      else { version := none, persistedVersion := none, history := [], persisted := 0 }
    flushDependency := { dependencies := ∅ }
    flushThread := none
    maxPersistedOverwrite := 0
    failedOperation := ∅
    worker := .idle
    lastOp := 1
    acknowledged := 0 }

/-- Move a point out of the first segment. -/
def moveOut (destination : SegmentId) (point : Nat) : FlushLabel (PointChange Nat) :=
  .move 0 destination (.put point) (some (.delete point))

/-- Start a flush, and run its first two flushers. -/
def flushTwo : List (FlushLabel (PointChange Nat)) :=
  [.flushAll .ascending, .runFlusher .done, .runFlusher .done]

/-- The flush ends and the worker acknowledges what it reads. -/
def finish : List (FlushLabel (PointChange Nat)) :=
  [.finishFlush, .loadOverwrite, .readSegment, .readSegment, .readSegment, .readSegment,
    .acknowledge 100]

theorem threeSegments_initial : threeSegments.Initial := by
  refine ⟨fun id => ?_, fun id => ?_, fun id => ?_, rfl, rfl, by decide, by decide⟩
  all_goals
    simp only [threeSegments]
    split <;> decide

/-- The flush after the two moves of operation `2`, and the next one up to a crash between its
two flushers. -/
def flushAndCrash : List (FlushLabel (PointChange Nat)) :=
  flushTwo ++ finish ++
    [.beginOperation 3, moveOut 2 12, .flushAll .ascending, .runFlusher .done]

theorem move_survives_crash_flushAndCrash : ∃ c, Run.run step threeSegments
        ([.beginOperation 2, moveOut 1 10] ++ moveOut 1 11 :: flushAndCrash) = some c ∧
      ((c.segments 0).disk 11 = some 1 ∨
        ∃ newVersion, 2 ≤ newVersion ∧ (c.segments 1).disk 11 = some newVersion) := by
  obtain ⟨c₁, hc₁, h₁⟩ := Option.map_eq_some_iff.mp (show
    (Run.run step threeSegments [.beginOperation 2, moveOut 1 10]).map
      (fun c => (PointChange.points (c.segments 0).history 11, c.lastOp)) = some (some 1, 2) by decide)
  obtain ⟨c₂, hc₂⟩ := Option.isSome_iff_exists.mp (show (Run.run step threeSegments
    ([.beginOperation 2, moveOut 1 10] ++ moveOut 1 11 :: flushAndCrash)).isSome = true by decide)
  obtain ⟨hold, hlastOp⟩ := Prod.mk.injEq .. ▸ h₁
  have hguard : Run.Guarded step (fun c l => (c.isFlatMoveStep l && c.movesInTime l) = true)
      threeSegments ([.beginOperation 2, moveOut 1 10] ++ moveOut 1 11 :: flushAndCrash) := by
    decide
  have hsources : threeSegments.SourcesOnDisk := by
    unfold SourcesOnDisk
    decide
  have hmoved := (move_survives_crash threeSegments_initial.inv.core hsources hc₁ hold hc₂
    (hguard.imp fun c l h => ⟨moveStep_of_isFlatMoveStep c l (Bool.and_eq_true_iff.mp h).1,
      (Bool.and_eq_true_iff.mp h).2⟩)).1
  exact ⟨c₂, hc₂, hlastOp ▸ hmoved⟩

/-- The second point is moved by the same operation after the first one was flushed. -/
def lateMove : List (FlushLabel (PointChange Nat)) :=
  [.beginOperation 2, moveOut 1 10] ++ flushTwo ++ finish ++
    [moveOut 1 11, .beginOperation 3, moveOut 2 12] ++ flushTwo ++ [.finishFlush]

/-- Point `11` is on disk neither in its source nor in its destination, and the dependency
between them is gone. -/
theorem run_lateMove : Run.Guarded step MoveStep threeSegments lateMove ∧
    ∃ c, Run.run step threeSegments lateMove = some c ∧
      (c.segments 0).disk 11 = none ∧ (c.segments 1).disk 11 = none ∧
      PointChange.points (c.segments 1).history 11 = some 2 ∧
      c.flushDependency.dependency 0 1 = none := by
  have hguard : Run.Guarded step (fun c l => c.isFlatMoveStep l = true) threeSegments lateMove := by
    decide
  refine ⟨hguard.imp moveStep_of_isFlatMoveStep, ?_⟩
  have hrun : (Run.run step threeSegments lateMove).map (fun c => ((c.segments 0).disk 11,
      (c.segments 1).disk 11, PointChange.points (c.segments 1).history 11,
      c.flushDependency.dependency 0 1)) = some (none, none, some 2, none) := by
    decide
  obtain ⟨c, hc, heq⟩ := Option.map_eq_some_iff.mp hrun
  simp only [Prod.mk.injEq] at heq
  exact ⟨c, hc, heq⟩

end FlushSystem

end Qdrant
