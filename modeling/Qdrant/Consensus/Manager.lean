-- SUMMARY: The consensus manager: the persisted Raft state beside the WAL, and what Raft reads of both.
import Qdrant.Consensus.WalRepresents

/-!
# The consensus manager

`ConsensusManager` (`lib/storage/src/content_manager/consensus_manager.rs`) is the storage of
the Raft library. It keeps the entries in the consensus WAL and the rest of the Raft state in
a file that is replaced as a whole (`consensus/persistent.rs`). Saving this file is one write,
and so is each change of a file of the WAL; nothing makes two of them atomic.

The membership of the cluster, the addresses of the peers and the collections are left out.
-/

namespace Qdrant.Consensus

open Crash Wal

/-! ## Progress of applying entries -/

/-- The index of the entry to apply next, and of the last one of the batch. -/
structure EntryApplyProgressQueue where
  range : Option (Nat × Nat)
deriving DecidableEq

namespace EntryApplyProgressQueue

def new (first last : Nat) : EntryApplyProgressQueue := ⟨some (first, last)⟩

section

variable (q : EntryApplyProgressQueue)

/-- The oldest entry that is not applied yet. -/
def current : Option Nat :=
  match q.range with
  | some (currentIndex, lastIndex) => if currentIndex > lastIndex then none else some currentIndex
  | none => none

def applied : EntryApplyProgressQueue :=
  ⟨q.range.map fun (currentIndex, lastIndex) => (currentIndex + 1, lastIndex)⟩

def getLastApplied : Option Nat :=
  match q.range with
  | some (0, _) => none
  | some (current, _) => some (current - 1)
  | none => none

end

def setFromSnapshot (snapshotAtCommit : Nat) : EntryApplyProgressQueue :=
  ⟨some (snapshotAtCommit + 1, snapshotAtCommit)⟩

end EntryApplyProgressQueue

/-! ## The persisted state -/

/-- `raft::eraftpb::HardState`. The vote is left out. -/
structure HardState where
  term : Nat
  commit : Nat
deriving DecidableEq

/-- `SnapshotMetadataSer`. -/
structure SnapshotMetadata where
  term : Nat
  index : Nat
deriving DecidableEq

structure Persistent where
  hardState : HardState
  latestSnapshotMeta : SnapshotMetadata
  applyProgressQueue : EntryApplyProgressQueue
deriving DecidableEq

namespace Persistent

/-- The state of a new peer. -/
def init : Persistent where
  hardState := ⟨0, 0⟩
  latestSnapshotMeta := ⟨0, 0⟩
  applyProgressQueue := ⟨none⟩

def updateFromSnapshot (p : Persistent) (snapshot : SnapshotMetadata) : Persistent where
  hardState := { term := max p.hardState.term snapshot.term, commit := snapshot.index }
  latestSnapshotMeta := snapshot
  applyProgressQueue := .setFromSnapshot snapshot.index

def currentUnappliedEntry (p : Persistent) : Option Nat := p.applyProgressQueue.current

def lastAppliedEntry (p : Persistent) : Option Nat := p.applyProgressQueue.getLastApplied

end Persistent

/-! ## The manager -/

structure Manager where
  persistent : Persistent
  wal : ConsensusOpWal
deriving DecidableEq

namespace Manager

def commit (m : Manager) : Nat := m.persistent.hardState.commit

/-- Change the persisted state and save it. -/
def save (f : Persistent → Persistent) : Prog Manager StorageError Unit :=
  .write fun m => .ok ((), { m with persistent := f m.persistent })

/-- Run an operation of the WAL. -/
def onWal {α : Type} (x : Prog ConsensusOpWal StorageError α) : Prog Manager StorageError α :=
  x.zoom Manager.wal fun m wal => { m with wal }

/-- `ConsensusManager::new`, over the files that a manager has left. If the last thing that was
saved is a snapshot, the crash may have come before the WAL was cleared. -/
def new : Prog Manager StorageError Unit := do
  let m ← .get
  let wal ← .ofExcept (ConsensusOpWal.new m.wal.wal)
  .modify fun m => { m with wal }
  let raftIndex := m.persistent.hardState.commit
  let snapshotIndex := m.persistent.latestSnapshotMeta.index
  if raftIndex = snapshotIndex then
    match wal.lastEntry with
    | .ok (some last) =>
      if last.index < snapshotIndex then onWal ConsensusOpWal.clear else pure ()
    | _ => pure ()
  else pure ()

def appendEntries (full : RaftEntry → Bool) (entries : List RaftEntry) :
    Prog Manager StorageError Unit := onWal (ConsensusOpWal.appendEntries full entries)

def setHardState (hardState : HardState) : Prog Manager StorageError Unit :=
  save fun p => { p with hardState }

def setCommitIndex (index : Nat) : Prog Manager StorageError Unit :=
  save fun p => { p with hardState := { p.hardState with commit := index } }

def setUnappliedEntries (firstIndex lastIndex : Nat) : Prog Manager StorageError Unit :=
  save fun p => { p with applyProgressQueue := .new firstIndex lastIndex }

def entryApplied : Prog Manager StorageError Unit :=
  save fun p => { p with applyProgressQueue := p.applyProgressQueue.applied }

/-- The state is saved first and the WAL is cleared second, so that a crash does not leave an
empty WAL under the old state. -/
def applySnapshot (snapshot : SnapshotMetadata) : Prog Manager StorageError Unit := do
  save fun p => p.updateFromSnapshot snapshot
  onWal ConsensusOpWal.clear

/-- Compact the WAL up to the last applied entry, if that is enough of them. -/
def compactWal (minEntriesToCompact : Nat) : Prog Manager StorageError Bool := do
  if minEntriesToCompact = 0 then pure false
  else
    let m ← .get
    match ← .ofExcept m.wal.firstEntry with
    | none => pure false
    | some firstEntry =>
      match m.persistent.lastAppliedEntry with
      | none => pure false
      | some lastAppliedIndex =>
        if firstEntry.index > lastAppliedIndex + 1 then
          throw <| .panicked
            ("Raft WAL is missing " ++ toString (firstEntry.index - lastAppliedIndex - 1) ++
              " unapplied entries (last applied index: " ++ toString lastAppliedIndex ++
              ", first WAL entry index: " ++ toString firstEntry.index ++ ")")
        else if lastAppliedIndex - firstEntry.index < minEntriesToCompact then pure false
        else
          onWal (ConsensusOpWal.compact lastAppliedIndex)
          pure true

/-! ### What Raft reads -/

def firstIndex (m : Manager) : Except RaftError Nat :=
  match m.wal.firstEntry with
  | .error e => .error (.other e)
  | .ok (some entry) => .ok entry.index
  | .ok none => .ok (m.persistent.latestSnapshotMeta.index + 1)

def lastIndex (m : Manager) : Except RaftError Nat :=
  match m.wal.lastEntry with
  | .error e => .error (.other e)
  | .ok (some entry) => .ok entry.index
  | .ok none => .ok m.persistent.latestSnapshotMeta.index

def term (m : Manager) (idx : Nat) : Except RaftError Nat :=
  if idx = m.persistent.latestSnapshotMeta.index then .ok m.persistent.latestSnapshotMeta.term
  else (m.wal.entry idx).map RaftEntry.term

def entries (computeSize : RaftEntry → Nat) (m : Manager) (low high : Nat) (maxSize : Option Nat) :
    Except RaftError (List RaftEntry) :=
  match m.firstIndex with
  | .error e => .error e
  | .ok firstIndex =>
    if low < firstIndex then .error .compacted
    else
      match m.lastIndex with
      | .error e => .error e
      | .ok lastIndex =>
        if high > lastIndex + 1 then
          .error (.other (.panicked
            ("index out of bound (last: " ++ toString (lastIndex + 1) ++ ", high: " ++
              toString high ++ ")")))
        else m.wal.entries computeSize low high maxSize

/-- The entries that Raft gets are read from the WAL. -/
theorem entries_ok {computeSize : RaftEntry → Nat} {m : Manager} {low high : Nat}
    {maxSize : Option Nat} {es : List RaftEntry}
    (h : m.entries computeSize low high maxSize = .ok es) :
    m.wal.entries computeSize low high maxSize = .ok es := by
  unfold entries at h
  grind

/-! ### Lemmas -/

section

variable {α : Type} {m : Manager} {C : Manager → Prop} {R : StorageError → Manager → Prop}
  {Q : α → Manager → Prop}

theorem wp_save {Q : Unit → Manager → Prop} {f : Persistent → Persistent} :
    wp (save f) Q R C m ↔ C m ∧ Q () { m with persistent := f m.persistent } :=
  wp_write rfl

theorem wp_onWal {x : Prog ConsensusOpWal StorageError α} : wp (onWal x) Q R C m ↔
      wp x (fun a wal => Q a { m with wal }) (fun e wal => R e { m with wal })
        (fun wal => C { m with wal }) m.wal :=
  wp_zoom

end

section

variable {m : Manager} {log : RaftLog} {n : Nat}

section

variable (h : m.wal.Represents log n)

include h

theorem lastIndex_eq :
    m.lastIndex = .ok (log.lastIndexOr m.persistent.latestSnapshotMeta.index) := by
  rw [lastIndex, h.lastEntry_eq, RaftLog.lastIndexOr]
  rcases eq_or_ne log.written.entries [] with hnil | hne
  · rw [if_pos hnil, RaftLog.entries, hnil, List.drop_nil]
    rfl
  · obtain ⟨e, he, hindex⟩ := h.wellFormed.exists_getLast? hne
    rw [if_neg hne, he, ← hindex, Nat.add_sub_cancel]

theorem firstIndex_eq :
    m.firstIndex = .ok (if log.written.entries = [] then m.persistent.latestSnapshotMeta.index + 1
      else log.retained) := by
  rw [firstIndex, h.firstEntry_eq]
  rcases eq_or_ne log.written.entries [] with hnil | hne
  · rw [if_pos hnil, RaftLog.entries, hnil, List.drop_nil]
    rfl
  · obtain ⟨e, he, hindex⟩ := h.wellFormed.head?_entries hne
    rw [if_neg hne, he, ← hindex]

end

section

variable {w : ConsensusOpWal} (hopen : ConsensusOpWal.new m.wal.wal = .ok w)
  (h : w.Represents log n)

include hopen h

/-- A log that reaches behind the commit index is kept at the start. -/
theorem wp_new_keeps {C : Manager → Prop}
    (hlt : log.written.entries ≠ [] → m.commit < log.written.next) :
    wp new (fun _ m' => m' = { m with wal := w }) (fun _ _ => False) C m := by
  simp only [new, wp_bind, wp_get, wp_ofExcept_ok hopen, wp_modify, h.lastEntry_eq]
  split
  next heq =>
    split
    next last hlast =>
      have hne : log.written.entries ≠ [] := by
        intro hnil
        simp [RaftLog.entries, hnil] at hlast
      obtain ⟨last', hlast', hindex⟩ := h.wellFormed.exists_getLast? hne
      rw [hlast'] at hlast
      cases hlast
      have hnext := hlt hne
      simp only [commit] at hnext
      rw [if_neg (by omega)]
      exact (wp_pure _).mpr rfl
    next => exact (wp_pure _).mpr rfl
  next => exact (wp_pure _).mpr rfl

/-- A log that ends before the snapshot is cleared at the start. -/
theorem wp_new_clears (hcommit : m.commit = m.persistent.latestSnapshotMeta.index)
    (hne : log.written.entries ≠ []) (hle : log.written.next ≤ m.commit) :
    wp new (fun _ m' => ∃ wal, m' = { m with wal } ∧ wal.Represents log.clear 0) (fun _ _ => False)
      (fun m' => m'.persistent = m.persistent ∧ ConsensusOpWal.Recovers m'.wal.wal log.Clearing) m := by
  obtain ⟨last, hlast, hindex⟩ := h.wellFormed.exists_getLast? hne
  simp only [commit] at hcommit hle
  simp only [new, wp_bind, wp_get, wp_ofExcept_ok hopen, wp_modify, h.lastEntry_eq]
  rw [if_pos hcommit, hlast]
  dsimp only
  rw [if_pos (by omega)]
  apply wp_onWal.mpr
  apply wp_total h.clear
  · exact fun _ wal hrep => ⟨wal, rfl, hrep⟩
  · exact fun wal hrecovers => ⟨rfl, hrecovers⟩

end

/-- The WAL is as it was, or compacted up to the last applied entry. -/
def CompactedFrom (m : Manager) (log : RaftLog) (m' : Manager) : Prop :=
  m' = m ∨ ∃ i wal n, m.persistent.lastAppliedEntry = some i ∧ m' = { m with wal } ∧
    wal.Represents (log.compact i) n

/-- Compaction fails only if entries that are not applied are missing. -/
theorem wp_compactWal (h : m.wal.Represents log n) (minEntriesToCompact : Nat) :
    wp (compactWal minEntriesToCompact) (fun _ => CompactedFrom m log)
      (fun _ m' => m' = m ∧ log.written.entries ≠ [] ∧
        ∃ i, m.persistent.lastAppliedEntry = some i ∧ i + 1 < log.retained)
      (CompactedFrom m log) m := by
  have hsame : CompactedFrom m log m := .inl rfl
  unfold compactWal
  split
  next => exact (wp_pure _).mpr hsame
  next =>
    simp only [wp_bind, wp_get, wp_ofExcept_ok h.firstEntry_eq]
    split
    next => exact (wp_pure _).mpr hsame
    next first hfirst =>
      split
      next => exact (wp_pure _).mpr hsame
      next i hi =>
        split
        next hgt =>
          have hne : log.written.entries ≠ [] := by
            intro hnil
            simp [RaftLog.entries, hnil] at hfirst
          obtain ⟨first', hfirst', hindex⟩ := h.wellFormed.head?_entries hne
          rw [hfirst'] at hfirst
          cases hfirst
          exact (wp_throw _).mpr ⟨rfl, hne, i, hi, hindex ▸ hgt⟩
        next =>
          split
          next => exact (wp_pure _).mpr hsame
          next =>
            simp only [wp_bind, wp_pure]
            apply wp_onWal.mpr
            apply wp_total (h.compact i)
            · rintro _ wal ⟨n', hrep⟩
              exact .inr ⟨i, wal, n', hi, rfl, hrep⟩
            · rintro wal ⟨n', hrep⟩
              exact .inr ⟨i, wal, n', hi, rfl, hrep⟩

end

end Manager

/-! ## The consensus thread

The thread (`src/consensus.rs`) takes batches from the Raft library. A batch can hold a
snapshot, new entries, a new hard state and entries that are committed now. The committed
entries are noted in the apply queue, which is saved, and then applied one by one; each one
that is done moves the queue by one. When the process starts, it tells the library up to
which index entries are applied, and applies what is left in the queue.

The Raft library is not part of the repository. Of its state, only the index is modelled up
to which it takes entries as applied: it hands out the committed entries behind it. When it
starts, it checks that the log it is given reaches the commit index and starts at most right
behind it.
-/

/-! ## Batches -/

/-- `raft::Ready`. Messages to other peers are left out. -/
structure Ready where
  snapshot : Option SnapshotMetadata
  entries : List RaftEntry
  hs : Option HardState
  committedEntries : List RaftEntry

/-- `raft::LightReady`. -/
structure LightReady where
  commitIndex : Option Nat
  committedEntries : List RaftEntry

/-- How the entries of a batch are applied. -/
structure Container where
  applyNormalEntry : RaftEntry → Except StorageError Bool
  /-- Returns whether the consensus has to stop. -/
  applyConfChangeEntry : RaftEntry → Except StorageError Bool

inductive ApplyError where
  | getEntry (index : Nat) (cause : RaftError)
  | applyNormalEntry (cause : StorageError)
  | applyConfChangeEntry (cause : StorageError)
  | unexpectedEntryType
  | storage (context : String) (cause : StorageError)
  /-- The Raft library panics. -/
  | raft (message : String)

def ApplyError.message : ApplyError → String
  | .getEntry index _ => "Failed to get entry at index " ++ toString index
  | .applyNormalEntry _ => "Failed to apply collection meta operation entry"
  | .applyConfChangeEntry _ => "Failed to apply configuration change entry"
  | .unexpectedEntryType => "Unexpected entry type: EntryConfChange"
  | .storage context _ => context
  | .raft message => message

/-! ## The thread -/

/-- What happened to the entries, in order. -/
inductive Effect where
  | applied (index : Nat)
  /-- It was saved that the entry is applied. -/
  | completed (index : Nat)
  /-- It was saved that a snapshot covers the entries up to here. -/
  | snapshot (index : Nat)
  /-- An entry had to be applied, but the WAL did not have it. -/
  | unreadable (index : Nat)
deriving DecidableEq

structure ConsensusThread where
  manager : Manager
  /-- The index up to which the Raft library takes entries as applied. -/
  raftApplied : Nat
  effects : List Effect

namespace ConsensusThread

def onManager {α : Type} (context : String) (x : Prog Manager StorageError α) :
    Prog ConsensusThread ApplyError α :=
  (x.mapError (.storage context)).zoom ConsensusThread.manager fun c manager => { c with manager }

def note (effect : Effect) : Prog ConsensusThread ApplyError Unit :=
  .modify fun c => { c with effects := c.effects ++ [effect] }

def setRaftApplied (index : Nat) : Prog ConsensusThread ApplyError Unit :=
  .modify fun c => { c with raftApplied := index }

/-! ### Applying entries -/

def readEntry (entryIndex : Nat) : Prog ConsensusThread ApplyError RaftEntry := do
  let c ← .get
  match c.manager.wal.entry entryIndex with
  | .ok entry => pure entry
  | .error e =>
    note (.unreadable entryIndex)
    throw (.getEntry entryIndex e)

/-- The outcome of applying an entry: whether the consensus has to stop. An error of the user
counts as applied. -/
def applyEntry (container : Container) (entry : RaftEntry) : Except ApplyError Bool :=
  -- A peer sends an empty entry when it becomes leader.
  if entry.data = [] then .ok false
  else
    match entry.entryType with
    | .entryNormal =>
      match container.applyNormalEntry entry with
      | .ok _ => .ok false
      | .error (.userError _) => .ok false
      | .error e => .error (.applyNormalEntry e)
    | .entryConfChangeV2 =>
      match container.applyConfChangeEntry entry with
      | .ok stopConsensus => .ok stopConsensus
      | .error e => .error (.applyConfChangeEntry e)
    | .entryConfChange => .error .unexpectedEntryType

/-- The loop of `apply_entries`, for as many rounds as there are entries in the queue. What
an entry does to the collections is persisted before the queue moves. -/
def applyLoop (container : Container) : Nat → Prog ConsensusThread ApplyError Bool
  | 0 => pure false
  | rounds + 1 => do
    let c ← .get
    match c.manager.persistent.currentUnappliedEntry with
    | none => pure false
    | some entryIndex =>
      let entry ← readEntry entryIndex
      .write fun c => .ok ((), { c with effects := c.effects ++ [.applied entryIndex] })
      let stopConsensus ← .ofExcept (applyEntry container entry)
      if stopConsensus then pure true
      else
        onManager "Failed to save new state of applied entries queue" Manager.entryApplied
        note (.completed entryIndex)
        applyLoop container rounds

/-- Apply the entries of the queue. Returns whether the consensus has to stop. -/
def applyEntries (container : Container) : Prog ConsensusThread ApplyError Bool := do
  let c ← .get
  match c.manager.persistent.applyProgressQueue.range with
  | none => pure false
  | some (current, last) => applyLoop container (last + 1 - current)

def handleCommittedEntries (container : Container) (entries : List RaftEntry) :
    Prog ConsensusThread ApplyError Bool :=
  match entries.head?, entries.getLast? with
  | some first, some last => do
    setRaftApplied last.index
    onManager "Failed to handle committed entries"
      (Manager.setUnappliedEntries first.index last.index)
    applyEntries container
  | _, _ => pure false

/-! ### Batches -/

/-- As `Manager.applySnapshot`. The library takes the entries of the snapshot as applied. -/
def applySnapshot (snapshot : SnapshotMetadata) : Prog ConsensusThread ApplyError Unit := do
  onManager "Failed to apply snapshot" (Manager.save fun p => p.updateFromSnapshot snapshot)
  note (.snapshot snapshot.index)
  setRaftApplied snapshot.index
  onManager "Failed to apply snapshot" (Manager.onWal ConsensusOpWal.clear)

def processSnapshot : Option SnapshotMetadata → Prog ConsensusThread ApplyError Unit
  | none => pure ()
  | some snapshot => applySnapshot snapshot

def processHardState : Option HardState → Prog ConsensusThread ApplyError Unit
  | none => pure ()
  | some hs => onManager "Failed to set hard state" (Manager.setHardState hs)

/-- Returns whether the consensus has to stop. -/
def processReady (full : RaftEntry → Bool) (container : Container) (ready : Ready) :
    Prog ConsensusThread ApplyError Bool := do
  processSnapshot ready.snapshot
  onManager "Failed to append entries" (Manager.appendEntries full ready.entries)
  processHardState ready.hs
  handleCommittedEntries container ready.committedEntries

def processCommitIndex : Option Nat → Prog ConsensusThread ApplyError Unit
  | none => pure ()
  | some commit => onManager "Failed to set commit index" (Manager.setCommitIndex commit)

/-- The rest of `on_ready`, after the batch. -/
def processLightReady (compactWalEntries : Nat) (container : Container) (lightReady : LightReady) :
    Prog ConsensusThread ApplyError Bool := do
  processCommitIndex lightReady.commitIndex
  let stopConsensus ← handleCommittedEntries container lightReady.committedEntries
  let _ ← onManager "Failed to compact WAL" (Manager.compactWal compactWalEntries)
  pure stopConsensus

/-- `Node::new`. The Raft library reads the log when it starts, and does not run on a log that does
not go on at the commit index. -/
def newNode : Prog ConsensusThread ApplyError Unit := do
  let c ← .get
  match c.manager.firstIndex, c.manager.lastIndex with
  | .ok firstIndex, .ok lastIndex =>
    if firstIndex ≤ c.manager.commit + 1 ∧ c.manager.commit ≤ lastIndex then pure ()
    else
      throw <| .raft
        ("hs.commit " ++ toString c.manager.commit ++ " is out of range [" ++
          toString (firstIndex - 1) ++ ", " ++ toString lastIndex ++ "]")
  | _, _ => throw (.raft "called `Result::unwrap()` on an `Err` value")

/-- Starting the process: `ConsensusManager::new`, then `Consensus::new`. -/
def new (compactWalEntries : Nat) (container : Container) : Prog ConsensusThread ApplyError Bool := do
  onManager "Failed to open consensus WAL" Manager.new
  let c ← .get
  -- Raft will not return entries smaller than or equal to this.
  setRaftApplied (c.manager.persistent.lastAppliedEntry.getD 0)
  newNode
  let _stopConsensus ← applyEntries container
  let _ ← onManager "Failed to compact WAL" (Manager.compactWal compactWalEntries)
  pure false

end ConsensusThread

end Qdrant.Consensus
