-- SUMMARY: Over crashes and restarts, the consensus manager shows only committed history below the commit index.
import Qdrant.Base.Run
import Qdrant.Consensus.Manager

/-!
# Committed history across restarts

A peer runs operations of the consensus manager, crashes between any two writes and is
started again through `Manager.new`. The Raft library is the environment: `Call.Legal` says
what it guarantees, relative to one history of committed entries.

A snapshot is saved first, and the WAL is cleared second. A crash in between leaves old entries
under the new state. `Manager.new` clears them if they end before the snapshot; `Safe` says that
a crash at this point leaves no longer log. An append that replaces all entries deletes the
segments front to back, so that a crash can leave a WAL that starts behind the commit index;
`Safe` excludes this too. If only some segments are to be deleted, a crash leaves a gap, and the
peer does not start any more.
-/

namespace Qdrant.Consensus

open Manager Crash Wal

/-! ## The peer -/

inductive Call where
  | appendEntries (full : RaftEntry → Bool) (entries : List RaftEntry)
  | setHardState (hardState : HardState)
  | setCommitIndex (index : Nat)
  | setUnappliedEntries (firstIndex lastIndex : Nat)
  | entryApplied
  | compactWal (minEntriesToCompact : Nat)
  | applySnapshot (snapshot : SnapshotMetadata)

def Call.prog : Call → Prog Manager StorageError Unit
  | .appendEntries full entries => Manager.appendEntries full entries
  | .setHardState hardState => Manager.setHardState hardState
  | .setCommitIndex index => Manager.setCommitIndex index
  | .setUnappliedEntries first last => Manager.setUnappliedEntries first last
  | .entryApplied => Manager.entryApplied
  | .compactWal minEntriesToCompact => do
    let _ ← Manager.compactWal minEntriesToCompact
    pure ()
  | .applySnapshot snapshot => Manager.applySnapshot snapshot

/-- A process that runs, or the files that a crash has left: of a manager that is down, only they
are read. -/
inductive Peer where
  | up (m : Manager)
  | down (m : Manager)

inductive Event where
  | call (c : Call)
  /-- A crash in the middle of a call, right before write number `k`. -/
  | crashIn (c : Call) (k : Nat)
  | crash
  | restart
  | crashInRestart (k : Nat)

namespace Peer

/-- A new peer. -/
def init : Peer := .up ⟨.init, .create⟩

def step : Peer → Event → Option Peer
  | .up m, .call c => some (.up (c.prog m).state)
  | .up m, .crashIn c k => (c.prog m).interrupted[k]?.map .down
  | .up m, .crash => some (.down m)
  | .down m, .restart =>
    match (Manager.new m).result with
    | .ok () => some (.up (Manager.new m).state)
    | .error _ => some (.down (Manager.new m).state)
  | .down m, .crashInRestart k => (Manager.new m).interrupted[k]?.map .down
  | _, _ => none

end Peer

/-! ## The environment -/

section

-- The committed entry of each index.

variable (history : Nat → RaftEntry)

/-- Raft only commits entries that its log holds, as they are in the history. -/
def Commits (m : Manager) (commit : Nat) : Prop :=
  m.commit ≤ commit ∧ (∀ last, m.lastIndex = .ok last → commit ≤ last) ∧
    ∀ i, m.commit < i → i ≤ commit → m.wal.entry i = .ok (history i)

/-- What the Raft library guarantees about its calls. -/
def Call.Legal (m : Manager) : Call → Prop
  | .appendEntries _ entries =>
    -- Committed entries are never replaced, and there are no gaps.
    ∀ e, entries.head? = some e → SequentialFrom e.index entries ∧ m.commit < e.index ∧
      ∀ last, m.lastIndex = .ok last → e.index ≤ last + 1
  | .setHardState hardState => Commits history m hardState.commit
  | .setCommitIndex index => Commits history m index
  | .setUnappliedEntries first last => first ≤ last ∧ last ≤ m.commit
  | .entryApplied => m.persistent.currentUnappliedEntry ≠ none
  | .compactWal _ => True
  | .applySnapshot snapshot =>
    m.commit < snapshot.index ∧ snapshot.term = (history snapshot.index).term ∧
      m.term snapshot.index ≠ .ok snapshot.term

def Legal : Peer → Event → Prop
  | .up m, .call c => c.Legal history m
  | .up m, .crashIn c _ => c.Legal history m
  | _, _ => True

/-- What a crash in a call leaves: after a snapshot was saved, a log that ends before it, and in an
append, a log that does not start later. -/
def Call.Leaves (m t : Manager) : Call → Prop
  | .applySnapshot snapshot => t.persistent = m.persistent ∨
    ∀ w last, ConsensusOpWal.new t.wal.wal = .ok w → w.lastEntry = .ok (some last) →
      last.index < snapshot.index
  | .appendEntries _ _ => t.wal.wal.firstIndex ≤ m.wal.wal.firstIndex
  | _ => True

def Safe : Peer → Event → Prop
  | .up m, .crashIn c k => ∀ t, (c.prog m).interrupted[k]? = some t → c.Leaves m t
  | _, _ => True

/-- Below the commit index, Raft sees committed history only. -/
structure ShowsCommitted (computeSize : RaftEntry → Nat) (m : Manager) : Prop where
  firstIndex : ∃ i, m.firstIndex = .ok i ∧ i ≤ m.commit + 1
  lastIndex : ∃ i, m.lastIndex = .ok i ∧ m.commit ≤ i
  term : ∀ i t, 1 ≤ i → i ≤ m.commit → m.term i = .ok t → t = (history i).term
  entry : ∀ i e, i ≤ m.commit → m.wal.entry i = .ok e → e = history i
  entries : ∀ low high maxSize es, m.entries computeSize low high maxSize = .ok es →
    ∀ e ∈ es, e.index ≤ m.commit → e = history e.index

/-! ## Invariant -/

/-- Up to the commit index, the log holds committed entries. -/
def Committed (commit : Nat) (log : RaftLog) : Prop :=
  ∀ i e, i ≤ commit → log.written.get? i = some e → e = history i

/-- The log reaches the commit index and holds committed entries up to it. -/
structure Consistent (p : Persistent) (log : RaftLog) : Prop where
  bounds : log.Bounds p.latestSnapshotMeta.index p.hardState.commit p.hardState.commit
  anchored : log.Anchored p.hardState.commit
  snapshot_term : 1 ≤ p.latestSnapshotMeta.index →
    p.latestSnapshotMeta.term = (history p.latestSnapshotMeta.index).term
  queue : ∀ current last, p.applyProgressQueue.range = some (current, last) →
    current ≤ p.hardState.commit + 1 ∧ last ≤ p.hardState.commit
  committed : Committed history p.hardState.commit log

/-- The log ends before the snapshot that was saved. -/
structure Stale (p : Persistent) (log : RaftLog) : Prop where
  commit : p.hardState.commit = p.latestSnapshotMeta.index
  snapshot_term : p.latestSnapshotMeta.term = (history p.latestSnapshotMeta.index).term
  queue : ∀ current last, p.applyProgressQueue.range = some (current, last) →
    current ≤ p.hardState.commit + 1 ∧ last ≤ p.hardState.commit
  compacted_le : log.compacted ≤ p.hardState.commit
  nonempty : log.written.entries ≠ []
  next_le : log.written.next ≤ p.hardState.commit

/-- A running manager is consistent. -/
def UpInv (m : Manager) : Prop :=
  ∃ log n, m.wal.Represents log n ∧ Consistent history m.persistent log

/-- If the WAL that a crash has left can be opened, it is consistent, or it is the one of before a
snapshot. -/
def DownInv (m : Manager) : Prop :=
  ConsensusOpWal.Recovers m.wal.wal fun log =>
    Consistent history m.persistent log ∨ Stale history m.persistent log

def PeerInv : Peer → Prop
  | .up m => UpInv history m
  | .down m => DownInv history m

end

variable {history : Nat → RaftEntry} {m : Manager} {p : Persistent} {log : RaftLog} {n : Nat}

/-! ### What is shown -/

/-- A retained entry was written. -/
theorem written_of_entry (h : m.wal.Represents log n) {i : Nat} {e : RaftEntry}
    (he : m.wal.entry i = .ok e) : log.written.get? i = some e := by
  have hget := h.entry_eq i
  rw [he, RaftLog.get?] at hget
  split at hget
  next => cases hget
  next => exact hget.symm

theorem written_of_mem_slice (h : m.wal.Represents log n) {lo hi : Nat} {e : RaftEntry}
    (he : e ∈ log.slice lo hi) : log.written.get? e.index = some e := by
  have hmem : e ∈ log.written.entries := List.mem_of_mem_drop (List.mem_of_mem_filter he)
  obtain ⟨k, hk⟩ := List.mem_iff_getElem?.mp hmem
  have hindex := h.wellFormed.sequential.index_eq hk
  rw [IndexedLog.get?, if_neg (by omega), hindex, Nat.add_sub_cancel_left, hk]

theorem showsCommitted (h : m.wal.Represents log n) (hc : Consistent history m.persistent log)
    (computeSize : RaftEntry → Nat) : ShowsCommitted history computeSize m where
  firstIndex := by
    refine ⟨_, firstIndex_eq h, ?_⟩
    have hsnapshot := hc.bounds.snapshot_le
    simp only [commit]
    split
    next => omega
    next hne => exact hc.bounds.retained_le hne
  lastIndex := by
    refine ⟨_, lastIndex_eq h, ?_⟩
    unfold RaftLog.lastIndexOr
    split
    next hnil => exact (hc.bounds.empty hnil).le
    next hne => exact Nat.le_sub_one_of_lt (hc.bounds.lt_next hne)
  term := by
    intro i t hpos hi ht
    rw [term] at ht
    split at ht
    next heq =>
      cases ht
      rw [heq, hc.snapshot_term (heq ▸ hpos)]
    next =>
      cases he : m.wal.entry i with
      | error e =>
        rw [he] at ht
        cases ht
      | ok e =>
        rw [he] at ht
        cases ht
        rw [hc.committed i e hi (written_of_entry h he)]
  entry := fun i e hi he => hc.committed i e hi (written_of_entry h he)
  entries := by
    intro low high maxSize es hes e he hi
    apply hc.committed e.index e hi
    have hread := entries_ok hes
    have hmem : e ∈ log.slice low high := by
      rcases eq_or_ne log.written.entries [] with hnil | hne
      · rw [h.entries_nil hnil] at hread
        cases hread
      · cases maxSize with
        | none =>
          rw [h.entries_unlimited hne] at hread
          cases hread
          exact he
        | some limit =>
          obtain ⟨es', hes', hpref, _⟩ := h.entries_limited hne computeSize low high limit
          rw [hes'] at hread
          cases hread
          exact hpref.subset he
    exact written_of_mem_slice h hmem

/-! ### Changes of the log -/

section

variable {commit start : Nat} {log' : RaftLog} {e : RaftEntry} {es : List RaftEntry}

/-- Nothing is committed in an empty log. -/
theorem Committed.of_empty (hnil : log.written.entries = []) : Committed history commit log := by
  intro i e _ he
  rw [IndexedLog.get?, hnil] at he
  split at he
  · cases he
  · cases he

theorem Committed.put (h : Committed history commit log) (hwf : log.WellFormed)
    (hcont : log.Continues commit e.index) : Committed history commit (log.put e) := by
  intro i e' hi he'
  rw [RaftLog.get?_put_of_lt hwf hcont.appendable (hi.trans_lt hcont.commit_lt)] at he'
  exact h i e' hi he'

theorem Committed.truncate (h : Committed history commit log) (hcommit : commit < start) :
    Committed history commit (log.truncate start) := by
  intro i e hi he
  rw [RaftLog.get?_truncate_of_lt (hi.trans_lt hcommit)] at he
  exact h i e hi he

section

variable (h : Consistent history p log) (hwf : log.WellFormed)
  (hcont : log.Continues p.hardState.commit start) (hseq : SequentialFrom start es)

include h hwf hcont hseq

theorem Consistent.append : Consistent history p (log.append es) :=
  ⟨h.bounds.append hwf hcont hseq,
    hcont.append_induction hwf hseq h.anchored fun _ _ _ _ h => h.put, h.snapshot_term, h.queue,
    hcont.append_induction hwf hseq h.committed fun _ _ hwf hcont h => h.put hwf hcont⟩

theorem Consistent.interrupted (hint : log.Interrupted es log') : Consistent history p log' :=
  ⟨h.bounds.interrupted hwf hcont hseq hint,
    hcont.interrupted_induction hwf hseq hint h.anchored (fun _ _ _ _ h => h.put)
      fun _ _ => h.anchored.truncate,
    h.snapshot_term, h.queue,
    hcont.interrupted_induction hwf hseq hint h.committed
      (fun _ _ hwf hcont h => h.put hwf hcont) fun _ => h.committed.truncate⟩

end

theorem Consistent.compact (h : Consistent history p log) {stop : Nat}
    (hstop : stop ≤ p.hardState.commit) : Consistent history p (log.compact stop) := by
  refine ⟨h.bounds.compact hstop, h.anchored.compact hstop, h.snapshot_term, h.queue, ?_⟩
  intro i e hi he
  rw [RaftLog.written_compact] at he
  exact h.committed i e hi he

theorem Consistent.reopen (h : Consistent history p log) (hreopens : log.Reopens log') :
    Consistent history p log' := by
  refine ⟨h.bounds.reopen hreopens, h.anchored.reopen hreopens, h.snapshot_term, h.queue, ?_⟩
  obtain ⟨retained, rfl, -⟩ := hreopens
  exact h.committed

end

/-! ### Steps -/

section

variable (h : UpInv history m)

include h

/-- A crash forgets the logical compaction of the WAL. -/
theorem UpInv.down : DownInv history m := by
  obtain ⟨log, n, hrep, hc⟩ := h
  exact hrep.recovers.mono fun log' hreopens => .inl (hc.reopen hreopens)

theorem UpInv.appendEntries {full : RaftEntry → Bool} {es : List RaftEntry}
    (hlegal : (Call.appendEntries full es).Legal history m) :
    wp (Manager.appendEntries full es) (fun _ => UpInv history) (fun _ => UpInv history)
      (fun t => (Call.appendEntries full es).Leaves m t → DownInv history t) m := by
  rcases eq_or_ne es [] with rfl | hne
  · exact wp_onWal.mpr ((wp_pure _).mpr h)
  obtain ⟨log, n, hrep, hc⟩ := h
  obtain ⟨hseq, hcommit, hlast⟩ := hlegal _ (List.head?_eq_some_head hne)
  have hcont := hc.bounds.continues hcommit (hlast _ (lastIndex_eq hrep))
    (hc.anchored.mono (Nat.le_sub_one_of_lt hcommit))
  apply wp_onWal.mpr
  apply wp_total (hrep.appendContinues hseq (fun _ => hcont) full)
  · exact fun _ w hrep' => ⟨_, n, hrep', hc.append hrep.wellFormed hcont hseq⟩
  · rintro w (hrecovers | ⟨hlater, -⟩) hleaves
    · refine hrecovers.mono fun log' ⟨log'', hint, hreopens⟩ => ?_
      exact .inl ((hc.interrupted hrep.wellFormed hcont hseq hint).reopen hreopens)
    · exact absurd hleaves (Nat.not_le.mpr hlater)

/-- The commit index moves over entries that are committed. -/
theorem UpInv.commits {hardState : HardState} (hlegal : Commits history m hardState.commit) :
    UpInv history { m with persistent := { m.persistent with hardState } } := by
  obtain ⟨log, n, hrep, hc⟩ := h
  obtain ⟨hle, hlast, hcommitted⟩ := hlegal
  simp only [commit] at hle hcommitted
  have hbounds := hc.bounds.setCommit hle (hlast _ (lastIndex_eq hrep))
  refine ⟨log, n, hrep, hbounds.setBound hle le_rfl, hc.anchored.mono hle, hc.snapshot_term, ?_, ?_⟩
  · intro current last hrange
    have := hc.queue current last hrange
    dsimp only
    omega
  · intro i e hi he
    rcases Nat.lt_or_ge m.persistent.hardState.commit i with hnew | hold
    · have hwritten := written_of_entry hrep (hcommitted i hnew hi)
      rw [hwritten] at he
      exact (Option.some.inj he).symm
    · exact hc.committed i e hold he

theorem UpInv.setQueue {applyProgressQueue : EntryApplyProgressQueue}
    (hqueue : ∀ current last, applyProgressQueue.range = some (current, last) →
      current ≤ m.commit + 1 ∧ last ≤ m.commit) :
    UpInv history { m with persistent := { m.persistent with applyProgressQueue } } := by
  obtain ⟨log, n, hrep, hc⟩ := h
  exact ⟨log, n, hrep, hc.bounds, hc.anchored, hc.snapshot_term, hqueue, hc.committed⟩

theorem UpInv.applied (hcurrent : m.persistent.currentUnappliedEntry ≠ none) :
    ∀ current last, m.persistent.applyProgressQueue.applied.range = some (current, last) →
      current ≤ m.commit + 1 ∧ last ≤ m.commit := by
  obtain ⟨log, n, hrep, hc⟩ := h
  intro current last hrange
  cases hq : m.persistent.applyProgressQueue.range with
  | none =>
    rw [EntryApplyProgressQueue.applied, hq] at hrange
    cases hrange
  | some range =>
    obtain ⟨current', last'⟩ := range
    rw [EntryApplyProgressQueue.applied, hq] at hrange
    cases hrange
    have hle : ¬ current' > last := by
      intro hgt
      apply hcurrent
      rw [Persistent.currentUnappliedEntry, EntryApplyProgressQueue.current, hq]
      exact if_pos hgt
    have hbound := hc.queue current' last hq
    simp only [commit]
    omega

end

/-- The last applied entry is committed. -/
theorem Consistent.lastApplied_le (h : Consistent history p log) {i : Nat}
    (hi : p.lastAppliedEntry = some i) : i ≤ p.hardState.commit := by
  rw [Persistent.lastAppliedEntry, EntryApplyProgressQueue.getLastApplied] at hi
  split at hi
  next => cases hi
  next current last _ hrange =>
    cases hi
    have := (h.queue current last hrange).1
    omega
  next => cases hi

theorem UpInv.compactWal (h : UpInv history m) (minEntriesToCompact : Nat) :
    wp (Manager.compactWal minEntriesToCompact) (fun _ => UpInv history) (fun _ => UpInv history)
      (UpInv history) m := by
  have hinv := h
  obtain ⟨log, n, hrep, hc⟩ := h
  have hcompacted : ∀ m', m.CompactedFrom log m' → UpInv history m' := by
    rintro m' (rfl | ⟨i, wal, n', hi, rfl, hrep'⟩)
    · exact hinv
    · exact ⟨_, n', hrep', hc.compact (hc.lastApplied_le hi)⟩
  apply wp_mono (wp_compactWal hrep minEntriesToCompact)
  · exact fun _ => hcompacted
  · rintro _ m' ⟨rfl, _⟩
    exact hinv
  · exact hcompacted

variable {snapshot : SnapshotMetadata}

/-- The state that a snapshot saves, over an empty log. -/
theorem Consistent.of_snapshot (hle : log.compacted ≤ snapshot.index)
    (hterm : snapshot.term = (history snapshot.index).term) (hnil : log.written.entries = []) :
    Consistent history (p.updateFromSnapshot snapshot) log := by
  refine ⟨.of_empty hnil hle, .of_empty hnil, fun _ => hterm, ?_, .of_empty hnil⟩
  rintro current last ⟨⟩
  exact ⟨le_rfl, le_rfl⟩

/-- The state that a snapshot saves, over a log that ends before it. -/
theorem Stale.of_snapshot (hle : log.compacted ≤ snapshot.index)
    (hterm : snapshot.term = (history snapshot.index).term)
    (hends : log.written.entries ≠ [] → log.written.next ≤ snapshot.index) :
    Consistent history (p.updateFromSnapshot snapshot) log ∨
      Stale history (p.updateFromSnapshot snapshot) log := by
  rcases eq_or_ne log.written.entries [] with hnil | hne
  · exact .inl (.of_snapshot hle hterm hnil)
  · refine .inr ⟨rfl, hterm, ?_, hle, hne, hends hne⟩
    rintro current last ⟨⟩
    exact ⟨le_rfl, le_rfl⟩

/-- A snapshot is saved first, and then the WAL is cleared. -/
theorem UpInv.applySnapshot (h : UpInv history m)
    (hlegal : (Call.applySnapshot snapshot).Legal history m) :
    wp (Manager.applySnapshot snapshot) (fun _ => UpInv history) (fun _ => UpInv history)
      (fun t => (Call.applySnapshot snapshot).Leaves m t → DownInv history t) m := by
  have hdown := h.down
  obtain ⟨log, n, hrep, hc⟩ := h
  obtain ⟨hcommit, hterm, _⟩ := hlegal
  have hle : log.compacted ≤ snapshot.index := (hc.bounds.compacted_le.trans_lt hcommit).le
  simp only [Manager.applySnapshot, wp_bind]
  apply Manager.wp_save.mpr
  refine ⟨fun _ => hdown, Manager.wp_onWal.mpr ?_⟩
  apply wp_total hrep.clear
  · exact fun _ w hrep' => ⟨_, 0, hrep', .of_snapshot hle hterm rfl⟩
  · intro t hrecovers hleaves w hw
    obtain ⟨log', n', hrep', hcompacted, -⟩ := hrecovers w hw
    refine ⟨log', n', hrep', Stale.of_snapshot (by omega) hterm fun hne => ?_⟩
    rcases hleaves with hsame | hends
    · have hindex : snapshot.index = m.commit := congrArg (fun p => p.hardState.commit) hsame
      omega
    · obtain ⟨last, hlast, hindex⟩ := hrep'.wellFormed.exists_getLast? hne
      have hlt := hends w last hw (by rw [hrep'.lastEntry_eq, hlast])
      omega

/-- Starting again clears a log that ends before the snapshot, and no other. It fails only if the WAL
cannot be opened. -/
theorem DownInv.new (h : DownInv history m) :
    wp Manager.new (fun _ => UpInv history)
      (fun _ m' => m' = m ∧ ∀ w, ConsensusOpWal.new m.wal.wal ≠ .ok w) (DownInv history) m := by
  cases hopen : ConsensusOpWal.new m.wal.wal with
  | error err =>
    simp only [Manager.new, wp_bind, wp_get, hopen]
    exact (wp_of_error rfl).mpr ⟨rfl, nofun⟩
  | ok w =>
    obtain ⟨log, n, hrep, hinv⟩ := h w hopen
    rcases hinv with hc | hs
    · apply wp_total (wp_new_keeps hopen hrep hc.bounds.lt_next)
      · rintro _ m' rfl
        exact ⟨log, n, hrep, hc⟩
      · exact fun _ ht => ht
    · have hcommit := hs.commit
      apply wp_total (wp_new_clears hopen hrep hcommit hs.nonempty hs.next_le)
      · rintro _ m' ⟨wal, rfl, hrep'⟩
        have hbounds : log.clear.Bounds m.persistent.hardState.commit m.persistent.hardState.commit
            m.persistent.hardState.commit := .of_empty rfl hs.compacted_le
        exact ⟨_, 0, hrep', hcommit ▸ hbounds, .of_empty rfl, fun _ => hs.snapshot_term, hs.queue,
          .of_empty rfl⟩
      · rintro m' ⟨hsame, hrecovers⟩
        refine hrecovers.mono fun log' ⟨hcompacted, _, _, hleft⟩ => ?_
        obtain ⟨hne, hnext⟩ := hleft hs.nonempty
        rw [hsame]
        exact .inr ⟨hcommit, hs.snapshot_term, hs.queue, by omega, hne, hnext.trans hs.next_le⟩

/-! ## Runs -/

/-- Every call of the Raft library keeps the manager consistent, also where a crash can
interrupt it. -/
theorem UpInv.call (h : UpInv history m) {c : Call} (hlegal : c.Legal history m) :
    wp c.prog (fun _ => UpInv history) (fun _ => UpInv history)
      (fun t => c.Leaves m t → DownInv history t) m := by
  cases c with
  | appendEntries full entries => exact h.appendEntries hlegal
  | setHardState hardState =>
    rw [Call.prog, setHardState, wp_save]
    exact ⟨fun _ => h.down, h.commits hlegal⟩
  | setCommitIndex index =>
    have hlegal' : Commits history m { m.persistent.hardState with commit := index }.commit := hlegal
    rw [Call.prog, setCommitIndex, wp_save]
    exact ⟨fun _ => h.down, h.commits hlegal'⟩
  | setUnappliedEntries firstIndex lastIndex =>
    rw [Call.prog, setUnappliedEntries, wp_save]
    refine ⟨fun _ => h.down, h.setQueue ?_⟩
    rintro current last ⟨⟩
    obtain ⟨hle, hcommit⟩ := hlegal
    exact ⟨hle.trans (Nat.le_succ_of_le hcommit), hcommit⟩
  | entryApplied =>
    rw [Call.prog, entryApplied, wp_save]
    exact ⟨fun _ => h.down, h.setQueue (h.applied hlegal)⟩
  | compactWal minEntriesToCompact =>
    simp only [Call.prog, wp_bind, wp_pure]
    exact wp_mono (h.compactWal minEntriesToCompact) (fun _ _ hup => hup) (fun _ _ hup => hup)
      fun _ hup _ => hup.down
  | applySnapshot snapshot => exact h.applySnapshot hlegal

theorem PeerInv.step {s s' : Peer} (h : PeerInv history s) {e : Event}
    (hlegal : Legal history s e) (hsafe : Safe s e) (hstep : s.step e = some s') :
    PeerInv history s' := by
  cases s with
  | up m =>
    have hup : UpInv history m := h
    cases e with
    | call c =>
      cases hstep
      exact wp_state (hup.call hlegal)
    | crashIn c k =>
      obtain ⟨m', hm', rfl⟩ := Option.map_eq_some_iff.mp hstep
      exact wp_interrupted (hup.call hlegal) (List.mem_of_getElem? hm') (hsafe m' hm')
    | crash =>
      cases hstep
      exact hup.down
    | restart => cases hstep
    | crashInRestart k => cases hstep
  | down m =>
    have hdown : DownInv history m := h
    cases e with
    | restart =>
      rw [Peer.step] at hstep
      split at hstep
      next hok =>
        cases hstep
        exact wp_ok hdown.new hok
      next err herr =>
        cases hstep
        obtain ⟨hsame, -⟩ := wp_error hdown.new herr
        rw [hsame]
        exact hdown
    | crashInRestart k =>
      obtain ⟨m', hm', rfl⟩ := Option.map_eq_some_iff.mp hstep
      have hleft : DownInv history m' := wp_interrupted hdown.new (List.mem_of_getElem? hm')
      exact hleft
    | call c | crashIn c k | crash => cases hstep

theorem peerInv_init : PeerInv history .init :=
  ⟨.empty, 0, ConsensusOpWal.represents_create, .of_empty rfl le_rfl, .of_empty rfl,
    fun hpos => absurd hpos (by decide), by simp [Persistent.init],
    .of_empty rfl⟩

/-- In a run whose steps are all safe, a running peer shows committed history only. -/
theorem showsCommitted_of_safe (computeSize : RaftEntry → Nat) {events : List Event} {m : Manager}
    (hguard : Run.Guarded Peer.step (fun s e => Legal history s e ∧ Safe s e) .init events)
    (hrun : Run.run Peer.step .init events = some (.up m)) :
    ShowsCommitted history computeSize m := by
  have hinv : PeerInv history (.up m) := by
    apply Run.run_invariant _ hrun hguard peerInv_init
    rintro s e s' hs ⟨hlegal, hsafe⟩ hstep
    exact hs.step hlegal hsafe hstep
  obtain ⟨log, n, hrep, hc⟩ := hinv
  exact showsCommitted hrep hc computeSize

/-- A history in which everything is from the second term. -/
def secondTerm (i : Nat) : RaftEntry := ⟨.entryNormal, 2, i, []⟩

def firstTerm (i : Nat) : RaftEntry := ⟨.entryNormal, 1, i, []⟩

/-- Two entries are written, and the first one is committed and applied. Then the second one is
replaced, and the process crashes after it was removed. -/
def crashInAppend : List Event :=
  [.call (.appendEntries (fun _ => true) [secondTerm 1, firstTerm 2]),
    .call (.setHardState ⟨2, 1⟩), .call (.setUnappliedEntries 1 1), .call .entryApplied,
    .crashIn (.appendEntries (fun _ => true) [secondTerm 2, secondTerm 3]) 1]

/-- Two entries of a leader that failed, which are not committed; then the snapshot of the
next leader at index `i` is saved, and the process crashes before the WAL is cleared. -/
def crashInSnapshot (i : Nat) : List Event :=
  [.call (.appendEntries (fun _ => false) [firstTerm 1, firstTerm 2]),
    .crashIn (.applySnapshot ⟨2, i⟩) 1, .restart]

/-- The snapshot is ahead of the log, so the restart clears it. -/
theorem showsCommitted_of_safe_ahead :
    ∃ m, Run.run Peer.step .init (crashInSnapshot 5) = some (.up m) ∧
      ShowsCommitted secondTerm (fun _ => 0) m ∧ m.firstIndex = .ok 6 ∧ m.lastIndex = .ok 5 := by
  have hguard : Run.Guarded Peer.step (fun s e => Legal secondTerm s e ∧ Safe s e) .init
      (crashInSnapshot 5) := by
    refine ⟨⟨?_, trivial⟩, ⟨⟨by decide, rfl, by decide⟩, ?_⟩, ⟨trivial, trivial⟩, trivial⟩
    · rintro e ⟨⟩
      refine ⟨by decide, by decide, ?_⟩
      rintro last ⟨⟩
      decide
    · rintro t ⟨⟩
      refine .inr ?_
      rintro w last ⟨⟩ ⟨⟩
      decide
  exact ⟨_, rfl, showsCommitted_of_safe (fun _ => 0) hguard rfl, rfl, rfl⟩

/-- The log is as long as the snapshot, so it stays. Raft then reads entries of the first
term below the commit index. -/
theorem stale_entries_committed :
    Run.Guarded Peer.step (Legal secondTerm) .init (crashInSnapshot 2) ∧
      ∃ m, Run.run Peer.step .init (crashInSnapshot 2) = some (.up m) ∧ m.commit = 2 ∧
        m.entries (fun _ => 0) 1 3 none = .ok [firstTerm 1, firstTerm 2] ∧
        m.term 1 = .ok 1 ∧ (secondTerm 1).term = 2 := by
  refine ⟨⟨?_, ⟨by decide, rfl, by decide⟩, trivial, trivial⟩, _, rfl, rfl, ?_, rfl, rfl⟩
  · rintro e ⟨⟩
    refine ⟨by decide, by decide, ?_⟩
    rintro last ⟨⟩
    decide
  · decide

/-- Entries in segments of their own, which are replaced from index `i` on. The process crashes after
the first file is deleted. -/
def crashInTruncate (i : Nat) : List Event :=
  [.call (.appendEntries (fun _ => true) [firstTerm 1, firstTerm 2, firstTerm 3, firstTerm 4]),
    .crashIn (.appendEntries (fun _ => true) [secondTerm i]) 2, .restart]

/-- If all entries are replaced, the log starts behind the commit index. -/
example : ∃ m, Run.run Peer.step .init (crashInTruncate 1) = some (.up m) ∧ m.commit = 0 ∧
    m.firstIndex = .ok 2 := ⟨_, rfl, rfl, rfl⟩

/-- If some entries stay, the peer does not start any more. -/
example : ∃ m, Run.run Peer.step .init (crashInTruncate 2) = some (.down m) ∧
    Peer.step (.down m) .restart = some (.down m) := ⟨_, rfl, rfl⟩

end Qdrant.Consensus
