-- SUMMARY: Committed entries are applied in order, none is skipped and none that is done is applied again, if every start finds an empty queue.
import Qdrant.Base.Run
import Qdrant.Consensus.Manager

/-!
# Applying committed entries once

The process takes batches from the Raft library, crashes between any two writes and starts
again. The library is the environment: it hands out committed entries contiguously, behind
the index up to which it takes entries as applied. `InOrder` says that each entry that is
applied is the successor of what is done, where an entry is done when that was saved, or
when a snapshot covers it.

`ConsensusThread.new` reads the last applied index before it applies what is left in the
queue. The library is told the old index, so it hands these entries out again. The result
below therefore asks that every start finds an empty queue.

A crash in the middle of a truncation can leave a WAL that cannot be opened, or one that starts
behind the commit index, on which the library does not run. The process then stays down.
-/

namespace Qdrant.Consensus

open Manager Crash Wal List Persistent

/-! ## Effects -/

/-- The index up to which entries are done after these effects. -/
def doneAfter : Nat → List Effect → Nat
  | done, [] => done
  | _, .completed i :: effects => doneAfter i effects
  | _, .snapshot i :: effects => doneAfter i effects
  | done, .applied _ :: effects => doneAfter done effects
  | done, .unreadable _ :: effects => doneAfter done effects

/-- Each entry that is applied is the next one, and can be read. -/
def InOrder : Nat → List Effect → Prop
  | _, [] => True
  | done, .applied i :: effects => i = done + 1 ∧ InOrder done effects
  | done, .completed i :: effects => i = done + 1 ∧ InOrder i effects
  | done, .snapshot i :: effects => done ≤ i ∧ InOrder i effects
  | _, .unreadable _ :: _ => False

theorem doneAfter_append (done : Nat) (effects effects' : List Effect) :
    doneAfter done (effects ++ effects') = doneAfter (doneAfter done effects) effects' := by
  induction effects generalizing done with
  | nil => rfl
  | cons effect effects ih =>
    cases effect with
    | applied i => exact ih done
    | completed i => exact ih i
    | snapshot i => exact ih i
    | unreadable i => exact ih done

variable {effects : List Effect}

theorem inOrder_append {done : Nat} {effects' : List Effect} : InOrder done (effects ++ effects') ↔
      InOrder done effects ∧ InOrder (doneAfter done effects) effects' := by
  induction effects generalizing done with
  | nil => simp [InOrder, doneAfter]
  | cons effect effects ih =>
    cases effect with
    | applied i | completed i | snapshot i =>
      simp only [cons_append, InOrder, doneAfter, ih, and_assoc]
    | unreadable i => simp only [cons_append, InOrder, false_and]

/-- What is applied later stands behind what is done. -/
theorem InOrder.lt_applied {done i : Nat} (h : InOrder done effects)
    (hi : .applied i ∈ effects) : done < i := by
  induction effects generalizing done with
  | nil => cases hi
  | cons effect effects ih =>
    cases effect with
    | applied j =>
      rcases mem_cons.mp hi with heq | hi
      · cases heq
        rw [h.1]
        exact Nat.lt_succ_self done
      · exact ih h.2 hi
    | completed j | snapshot j =>
      have hlt := ih h.2 ((mem_cons.mp hi).resolve_left nofun)
      have hj := h.1
      omega
    | unreadable j => exact h.elim

theorem InOrder.readable {done i : Nat} (h : InOrder done effects) : .unreadable i ∉ effects := by
  intro hi
  obtain ⟨before, after, rfl⟩ := append_of_mem hi
  exact (inOrder_append.mp h).2

/-- Entries are applied in order, can be read, and are not applied again once they are done. -/
structure AppliedOnce (effects : List Effect) : Prop where
  inOrder : InOrder 0 effects
  readable : ∀ i, .unreadable i ∉ effects
  notAgain : ∀ before after i j, effects = before ++ .completed i :: after →
    .applied j ∈ after → i < j

/-! ## The environment -/

/-- The index of the last of some entries, or else another one. -/
def lastOr (entries : List RaftEntry) (i : Nat) : Nat :=
  match entries.getLast? with
  | some e => e.index
  | none => i

/-- Committed entries, contiguously from behind the applied index on. -/
def HandedOut (applied commit : Nat) (entries : List RaftEntry) : Prop :=
  SequentialFrom (applied + 1) entries ∧ applied + entries.length ≤ commit

/-- New entries behind the commit index, at most one past the last one. -/
def Follows (commit last : Nat) (entries : List RaftEntry) : Prop :=
  ∀ e, entries.head? = some e →
    SequentialFrom e.index entries ∧ commit < e.index ∧ e.index ≤ last + 1

/-- The index of the snapshot, if there is one. -/
def snapshotOr (snapshot : Option SnapshotMetadata) (i : Nat) : Nat :=
  match snapshot with
  | some s => s.index
  | none => i

def commitOr (hs : Option HardState) (i : Nat) : Nat :=
  match hs with
  | some hs => hs.commit
  | none => i

/-- What the Raft library guarantees about a batch, given its commit, last and applied index.
A snapshot replaces all three. -/
structure Ready.Legal (r : Ready) (commit last applied : Nat) : Prop where
  snapshot : ∀ s, r.snapshot = some s → commit < s.index
  entries : Follows (snapshotOr r.snapshot commit) (snapshotOr r.snapshot last) r.entries
  hs : ∀ hs, r.hs = some hs → snapshotOr r.snapshot commit ≤ hs.commit ∧
    hs.commit ≤ lastOr r.entries (snapshotOr r.snapshot last)
  committedEntries : HandedOut (snapshotOr r.snapshot applied)
    (commitOr r.hs (snapshotOr r.snapshot commit)) r.committedEntries

structure LightReady.Legal (r : LightReady) (commit last applied : Nat) : Prop where
  commitIndex : ∀ i, r.commitIndex = some i → commit ≤ i ∧ i ≤ last
  committedEntries : HandedOut applied (r.commitIndex.getD commit) r.committedEntries

/-! ## The process -/

namespace ConsensusThread

/-- A process between two batches, one that has still to take the light part of a batch, or
the files that a crash or a stop has left: of a process that is down, only they are read. -/
inductive Process where
  | idle (c : ConsensusThread)
  | advanced (c : ConsensusThread)
  | down (c : ConsensusThread)

def Process.thread : Process → ConsensusThread
  | .idle c | .advanced c | .down c => c

inductive Action where
  | new (compactWalEntries : Nat)
  | ready (full : RaftEntry → Bool) (r : Ready)
  | lightReady (compactWalEntries : Nat) (r : LightReady)

def Action.prog (container : Container) : Action → Prog ConsensusThread ApplyError Bool
  | .new compactWalEntries => ConsensusThread.new compactWalEntries container
  | .ready full r => processReady full container r
  | .lightReady compactWalEntries r => processLightReady compactWalEntries container r

inductive Event where
  /-- An action, or its beginning up to write number `k`, where the process crashes. -/
  | run (a : Action) (container : Container) (crashAt : Option Nat)
  | crash

/-- An action ends, stops the consensus or fails, or a crash interrupts it. -/
def finish (next : ConsensusThread → Process) (o : Crash.Outcome ConsensusThread ApplyError Bool) :
    Option Nat → Option Process
  | some k => o.interrupted[k]?.map .down
  | none =>
    match o.result with
    | .ok false => some (next o.state)
    | _ => some (.down o.state)

namespace Process

/-- A peer before its first start. -/
def init : Process := .down ⟨⟨.init, .create⟩, 0, []⟩

def step : Process → Event → Option Process
  | .down c, .run (.new compactWalEntries) container crashAt =>
    finish .idle ((Action.new compactWalEntries).prog container c) crashAt
  | .idle c, .run (.ready full r) container crashAt =>
    finish .advanced ((Action.ready full r).prog container c) crashAt
  | .advanced c, .run (.lightReady compactWalEntries r) container crashAt =>
    finish .idle ((Action.lightReady compactWalEntries r).prog container c) crashAt
  | .idle c, .crash => some (.down c)
  | .advanced c, .crash => some (.down c)
  | _, _ => none

end Process

def Legal : Process → Event → Prop
  | .idle c, .run (.ready _ r) _ _ =>
    ∀ last, c.manager.lastIndex = .ok last → r.Legal c.manager.commit last c.raftApplied
  | .advanced c, .run (.lightReady _ r) _ _ =>
    ∀ last, c.manager.lastIndex = .ok last → r.Legal c.manager.commit last c.raftApplied
  | _, _ => True

/-- When the process starts, no entry is left in the queue. -/
def StartsEmpty : Process → Event → Prop
  | .down c, .run (.new _) _ _ => c.manager.persistent.currentUnappliedEntry = none
  | _, _ => True

end ConsensusThread

/-! ## Invariant -/

/-- The index up to which the saved state takes entries as applied. -/
def Persistent.done (p : Persistent) : Nat := p.lastAppliedEntry.getD 0

/-- The queue is a range of committed entries, which may be used up. -/
def QueueValid (p : Persistent) : Prop :=
  ∀ current last, p.applyProgressQueue.range = some (current, last) →
    1 ≤ current ∧ current ≤ last + 1 ∧ last ≤ p.hardState.commit

/-- The effects so far are in order and agree with what is saved. -/
structure Tracks (p : Persistent) (effects : List Effect) : Prop where
  queue : QueueValid p
  inOrder : InOrder 0 effects
  done : doneAfter 0 effects = p.done

/-- The log holds the entries that are not done yet. If it starts behind the commit index, then no
entry was removed from it, or the last thing that was saved is a snapshot. -/
structure Grounded (p : Persistent) (log : RaftLog) : Prop where
  bounds : log.Bounds p.latestSnapshotMeta.index p.done p.hardState.commit
  anchored : log.Anchored p.hardState.commit ∨ p.hardState.commit = p.latestSnapshotMeta.index

def Sound (m : Manager) (effects : List Effect) : Prop :=
  Tracks m.persistent effects ∧ ∃ log n, m.wal.Represents log n ∧ Grounded m.persistent log

/-- The log ends before the snapshot that was saved. -/
structure Outdated (p : Persistent) (log : RaftLog) : Prop where
  snapshot : p.latestSnapshotMeta.index = p.hardState.commit
  done : p.done = p.hardState.commit
  compacted_le : log.compacted ≤ p.hardState.commit
  nonempty : log.written.entries ≠ []
  next_le : log.written.next ≤ p.hardState.commit

/-- There is a gap between the commit index and the log. -/
def StartsLate (p : Persistent) (log : RaftLog) : Prop :=
  log.written.entries ≠ [] ∧ p.hardState.commit + 1 < log.retained

/-- What a crash leaves, if the WAL can be opened. -/
def SoundDown (m : Manager) (effects : List Effect) : Prop :=
  Tracks m.persistent effects ∧ ConsensusOpWal.Recovers m.wal.wal fun log =>
    Grounded m.persistent log ∨ Outdated m.persistent log ∨ StartsLate m.persistent log

section

variable {p : Persistent} {m : Manager} {effects : List Effect}
variable {last : Nat} {current : Nat}

theorem Persistent.done_eq
    (h : p.applyProgressQueue.range = some (current, last)) : p.done = current - 1 := by
  rw [done, lastAppliedEntry, EntryApplyProgressQueue.getLastApplied, h]
  cases current with
  | zero => rfl
  | succ current => rfl

variable {i : Nat}

theorem Persistent.done_of_lastApplied (h : p.lastAppliedEntry = some i) : p.done = i := by
  rw [done, h]
  rfl

theorem Persistent.currentUnappliedEntry_eq
    (h : p.applyProgressQueue.range = some (current, last)) :
    p.currentUnappliedEntry = if current > last then none else some current := by
  rw [currentUnappliedEntry, EntryApplyProgressQueue.current, h]

theorem range_applied {q : EntryApplyProgressQueue} (h : q.range = some (current, last)) :
    q.applied.range = some (current + 1, last) := by
  rw [EntryApplyProgressQueue.applied, h]
  rfl

/-- The next entry is done. -/
theorem Persistent.done_applied (h : p.applyProgressQueue.range = some (current, last)) :
    ({ p with applyProgressQueue := p.applyProgressQueue.applied } : Persistent).done = current :=
  done_eq (p := { p with applyProgressQueue := p.applyProgressQueue.applied }) (range_applied h)

theorem Grounded.reopen {log log' : RaftLog} (h : Grounded p log) (hreopens : log.Reopens log') :
    Grounded p log' :=
  ⟨h.bounds.reopen hreopens, h.anchored.imp_left fun hanchored => hanchored.reopen hreopens⟩

theorem Sound.down (h : Sound m effects) : SoundDown m effects := by
  obtain ⟨htracks, log, n, hrep, hlog⟩ := h
  exact ⟨htracks, hrep.recovers.mono fun log' hreopens => .inl (hlog.reopen hreopens)⟩

/-- The entry to apply can be read. -/
theorem Sound.readable (h : Sound m effects)
    (hrange : m.persistent.applyProgressQueue.range = some (current, last)) (hle : current ≤ last) :
    ∃ e, m.wal.entry current = .ok e := by
  obtain ⟨htracks, log, n, hrep, hbounds, -⟩ := h
  obtain ⟨hpos, _, hcommit⟩ := htracks.queue current last hrange
  have hdone := done_eq hrange
  have hsnapshot := hbounds.snapshot_le
  have hne : log.written.entries ≠ [] := by
    intro hnil
    have := hbounds.empty hnil
    omega
  have hretained := hbounds.retained_le hne
  have hfirst := hrep.wellFormed.first_le hne
  have hnext := hbounds.lt_next hne
  simp only [IndexedLog.next] at hnext
  have hget : log.get? current = some log.written.entries[current - log.written.first] := by
    rw [RaftLog.get?, if_neg (by omega), IndexedLog.get?, if_neg (by omega)]
    exact getElem?_eq_getElem (by omega)
  have hentry := hrep.entry_eq current
  rw [hget] at hentry
  cases he : m.wal.entry current with
  | ok e => exact ⟨e, rfl⟩
  | error e =>
    rw [he] at hentry
    cases hentry

/-- An effect that agrees with the saved state. -/
theorem Tracks.applied (h : Tracks p effects) (hi : i = p.done + 1) :
    Tracks p (effects ++ [.applied i]) := by
  refine ⟨h.queue, inOrder_append.mpr ⟨h.inOrder, ?_, trivial⟩, ?_⟩
  · rw [h.done, hi]
  · rw [doneAfter_append, h.done]
    rfl

theorem Tracks.completed (h : Tracks p effects)
    (hrange : p.applyProgressQueue.range = some (current, last)) (hle : current ≤ last) :
    Tracks { p with applyProgressQueue := p.applyProgressQueue.applied }
      (effects ++ [.completed current]) := by
  obtain ⟨hpos, _, hcommit⟩ := h.queue current last hrange
  have hdone := done_eq hrange
  refine ⟨?_, inOrder_append.mpr ⟨h.inOrder, ?_, trivial⟩, ?_⟩
  · intro current' last' heq
    cases (range_applied hrange).symm.trans heq
    dsimp only
    omega
  · rw [h.done]
    omega
  · rw [doneAfter_append, done_applied hrange]
    rfl

variable {s : SnapshotMetadata}

theorem Tracks.snapshot (h : Tracks p effects) (hle : p.done ≤ s.index) :
    Tracks (p.updateFromSnapshot s) (effects ++ [.snapshot s.index]) := by
  refine ⟨?_, inOrder_append.mpr ⟨h.inOrder, ?_, trivial⟩, ?_⟩
  · rintro current last ⟨⟩
    exact ⟨Nat.le_add_left _ _, le_rfl, le_rfl⟩
  · rw [h.done]
    exact hle
  · rw [doneAfter_append]
    rfl

section

variable (h : Sound m effects)

include h

theorem Sound.applied (hi : i = m.persistent.done + 1) :
    Sound m (effects ++ [.applied i]) := ⟨h.1.applied hi, h.2⟩

theorem Sound.completed
    (hrange : m.persistent.applyProgressQueue.range = some (current, last)) (hle : current ≤ last) :
    Sound
      { m with
        persistent :=
          { m.persistent with applyProgressQueue := m.persistent.applyProgressQueue.applied } }
      (effects ++ [.completed current]) := by
  obtain ⟨htracks, log, n, hrep, hbounds, hanchored⟩ := h
  have hcommit := (htracks.queue current last hrange).2.2
  have hdone := done_eq hrange
  refine ⟨htracks.completed hrange hle, log, n, hrep, ?_, hanchored⟩
  rw [done_applied hrange]
  apply hbounds.setBound
  · omega
  · exact hle.trans hcommit

/-- A new queue that starts with the next entry. -/
theorem Sound.setUnapplied {first : Nat}
    (hfirst : first = m.persistent.done + 1) (hle : first ≤ last + 1) (hcommit : last ≤ m.commit) :
    Sound { m with persistent := { m.persistent with applyProgressQueue := .new first last } }
      effects := by
  obtain ⟨htracks, log, n, hrep, hbounds, hanchored⟩ := h
  have hdone : ({ m.persistent with applyProgressQueue := .new first last } : Persistent).done =
      m.persistent.done := by
    rw [done_eq (p := { m.persistent with applyProgressQueue := .new first last }) rfl,
      hfirst, Nat.add_sub_cancel]
  refine ⟨⟨?_, htracks.inOrder, htracks.done.trans hdone.symm⟩, log, n, hrep, ?_, hanchored⟩
  · rintro current last' ⟨⟩
    exact ⟨by omega, hle, hcommit⟩
  · rw [hdone]
    exact hbounds

/-- The commit index moves up to the end of the log at most. -/
theorem Sound.setHardState (hlast : m.lastIndex = .ok last)
    {hardState : HardState} (hle : m.commit ≤ hardState.commit) (hcommit : hardState.commit ≤ last) :
    Sound { m with persistent := { m.persistent with hardState } } effects := by
  obtain ⟨htracks, log, n, hrep, hbounds, hanchored⟩ := h
  rw [lastIndex_eq hrep] at hlast
  cases hlast
  refine ⟨⟨?_, htracks.inOrder, htracks.done⟩, log, n, hrep, hbounds.setCommit hle hcommit, ?_⟩
  · intro current last hrange
    obtain ⟨hpos, hcurrent, hqueue⟩ := htracks.queue current last hrange
    exact ⟨hpos, hcurrent, hqueue.trans hle⟩
  · rcases hanchored with hanchored | hsnapshot
    · exact .inl (hanchored.mono hle)
    · rcases Nat.eq_or_lt_of_le hle with heq | hlt
      · exact .inr (heq.symm.trans hsnapshot)
      · refine .inl fun hne => .inl ?_
        have hretained := hbounds.retained_le hne
        have hdone := hbounds.bound_le
        simp only [commit] at hlt ⊢
        omega

end

theorem lastOr_of_ne {start : Nat} {es : List RaftEntry} (hseq : SequentialFrom start es)
    (hne : es ≠ []) (i : Nat) : lastOr es i = start + es.length - 1 := by
  have hpos := length_pos_iff.mpr hne
  have hget := getElem?_eq_getElem (show es.length - 1 < es.length by omega)
  rw [lastOr, getLast?_eq_getElem?, hget]
  dsimp only
  rw [hseq.index_eq hget]
  omega

/-- An append that replaces the first entry of a log from which entries were removed fails. This can
only happen right after a snapshot, so that the process can start again. -/
theorem Grounded.appendEntries_first {log : RaftLog} {n : Nat} {e : RaftEntry} {es : List RaftEntry}
    (h : Grounded m.persistent log) (htracks : Tracks m.persistent effects)
    (hrep : m.wal.Represents log n) (hcommit : m.commit < e.index)
    (hfirst : ¬ log.Anchored (e.index - 1)) (full : RaftEntry → Bool) :
    wp (Manager.appendEntries full (e :: es)) (fun _ _ => False)
      (fun _ m' => SoundDown m' effects) (fun m' => SoundDown m' effects) m := by
  obtain ⟨hbounds, hanchored⟩ := h
  simp only [commit] at hcommit
  obtain ⟨hne, hlate⟩ := Classical.not_imp.mp hfirst
  obtain ⟨hbehind, hremoved⟩ := not_or.mp hlate
  have hdone := hbounds.bound_le
  have hle := hbounds.retained_le hne
  have hretained := hrep.retained hne
  have hcompacted := hbounds.compacted_le
  have hsnapshot : m.persistent.hardState.commit = m.persistent.latestSnapshotMeta.index := by
    refine hanchored.resolve_left fun hanchored => ?_
    have := hanchored hne
    omega
  have hcleared : ∀ log' : RaftLog, log'.written.entries = [] → log'.compacted ≤ log.compacted →
      Grounded m.persistent log' := by
    intro log' hnil hle'
    have hdone' : m.persistent.done = m.persistent.hardState.commit := by omega
    refine ⟨?_, .inr hsnapshot⟩
    rw [← hsnapshot, hdone']
    exact .of_empty hnil (hle'.trans hcompacted)
  apply wp_onWal.mpr
  apply wp_mono (hrep.appendEntries_first hne (by omega) (by omega) (by omega) full)
  · exact fun _ _ hfalse => hfalse
  · intro _ w hrep'
    have hcont : log.clear.Continues m.persistent.hardState.commit e.index :=
      ⟨⟨by omega, fun hne => absurd rfl hne, fun hne => absurd rfl hne⟩, hcompacted, by omega,
        fun _ => by omega⟩
    obtain ⟨hempty, -⟩ := hcleared log.clear rfl le_rfl
    exact Sound.down ⟨htracks, _, 0, hrep', hempty.put (.clear log) hcont, .inr hsnapshot⟩
  · rintro w ((hrecovers | ⟨-, hrecovers⟩) | hrecovers)
    · refine ⟨htracks, hrecovers.mono ?_⟩
      rintro log' ⟨_, ⟨i, hi, rfl⟩, hreopens⟩
      exact .inl ⟨(hbounds.truncate (by omega)).reopen hreopens, .inr hsnapshot⟩
    · refine ⟨htracks, hrecovers.mono ?_⟩
      rintro log' ⟨hne', hlate'⟩
      refine .inr (.inr ⟨hne', ?_⟩)
      dsimp only
      omega
    · refine ⟨htracks, hrecovers.mono fun log' hreopens => .inl ?_⟩
      exact (hcleared log.clear rfl le_rfl).reopen hreopens

theorem Sound.appendEntries (h : Sound m effects) (hlast : m.lastIndex = .ok last)
    {es : List RaftEntry} (hes : Follows m.commit last es) (full : RaftEntry → Bool) :
    wp (Manager.appendEntries full es)
      (fun _ m' => Sound m' effects ∧ m'.persistent = m.persistent ∧
        m'.lastIndex = .ok (lastOr es last))
      (fun _ m' => SoundDown m' effects) (fun m' => SoundDown m' effects) m := by
  rcases eq_or_ne es [] with rfl | hne
  · exact wp_onWal.mpr ((wp_pure _).mpr ⟨h, rfl, hlast⟩)
  obtain ⟨htracks, log, n, hrep, hlog⟩ := h
  obtain ⟨hseq, hcommit, hle⟩ := hes _ (head?_eq_some_head hne)
  rw [lastIndex_eq hrep] at hlast
  cases hlast
  rcases Classical.em (log.Anchored ((es.head hne).index - 1)) with hanchored | hfirst
  · have hbounds := hlog.bounds
    have hcont := hbounds.continues hcommit hle hanchored
    apply wp_onWal.mpr
    apply wp_total (hrep.appendContinues hseq (fun _ => hcont) full)
    · intro _ w hrep'
      refine ⟨⟨htracks, _, n, hrep', hbounds.append hrep.wellFormed hcont hseq, ?_⟩, rfl, ?_⟩
      · exact hlog.anchored.imp_left fun hanchored =>
          hcont.append_induction hrep.wellFormed hseq hanchored fun _ _ _ _ h => h.put
      · rw [lastIndex_eq hrep', RaftLog.lastIndexOr, if_neg (log.append_entries_ne hne),
          hcont.next_append hrep.wellFormed hseq hne, lastOr_of_ne hseq hne]
    · rintro w (hrecovers | ⟨-, hrecovers⟩)
      · refine ⟨htracks, hrecovers.mono ?_⟩
        rintro _ ⟨log'', hint, hreopens⟩
        have hlog' : Grounded m.persistent log'' :=
          ⟨hbounds.interrupted hrep.wellFormed hcont hseq hint,
            hlog.anchored.imp_left fun hanchored =>
              hcont.interrupted_induction hrep.wellFormed hseq hint hanchored (fun _ _ _ _ h => h.put)
                fun _ _ => hanchored.truncate⟩
        exact .inl (hlog'.reopen hreopens)
      · refine ⟨htracks, hrecovers.mono ?_⟩
        rintro log' ⟨hne', hlate⟩
        refine .inr (.inr ⟨hne', ?_⟩)
        simp only [commit] at hcommit
        dsimp only
        omega
  · cases es with
    | nil => exact absurd rfl hne
    | cons e es =>
      apply wp_mono (hlog.appendEntries_first htracks hrep hcommit hfirst full)
      · exact fun _ _ hfalse => hfalse.elim
      · exact fun _ _ hdown => hdown
      · exact fun _ hdown => hdown

/-- Only entries that are done are compacted, so none is missed. -/
theorem Sound.compactWal (h : Sound m effects) (minEntriesToCompact : Nat) :
    wp (Manager.compactWal minEntriesToCompact)
      (fun _ m' => Sound m' effects ∧ m'.persistent = m.persistent ∧ m'.lastIndex = m.lastIndex)
      (fun _ _ => False) (fun m' => Sound m' effects) m := by
  have hsound := h
  obtain ⟨htracks, log, n, hrep, hbounds, hanchored⟩ := h
  have hcompacted : ∀ m', m.CompactedFrom log m' →
      Sound m' effects ∧ m'.persistent = m.persistent ∧ m'.lastIndex = m.lastIndex := by
    rintro m' (rfl | ⟨i, wal, n', hi, rfl, hrep'⟩)
    · exact ⟨hsound, rfl, rfl⟩
    · have hdone := done_of_lastApplied hi
      refine ⟨⟨htracks, _, n', hrep', hbounds.compact hdone.symm.le, ?_⟩, rfl, ?_⟩
      · exact hanchored.imp_left fun hanchored => hanchored.compact (hdone ▸ hbounds.bound_le)
      · rw [lastIndex_eq hrep, lastIndex_eq hrep', RaftLog.lastIndexOr, RaftLog.written_compact]
        rfl
  apply wp_mono (wp_compactWal hrep minEntriesToCompact)
  · exact fun _ => hcompacted
  · rintro _ m' ⟨_, hne, i, hi, hlt⟩
    have hdone := done_of_lastApplied hi
    have hretained := hbounds.retained_le hne
    omega
  · exact fun m' hm' => (hcompacted m' hm').1

/-- The state that a snapshot saves, over an empty log. -/
theorem Grounded.of_snapshot {log : RaftLog} (hnil : log.written.entries = [])
    (hle : log.compacted ≤ s.index) : Grounded (p.updateFromSnapshot s) log :=
  ⟨.of_empty hnil hle, .inr rfl⟩

/-- A snapshot is saved, and the WAL is not cleared as a whole. -/
theorem Grounded.clearing {log log' : RaftLog} (h : Grounded p log) (hlt : p.hardState.commit < s.index)
    (hclearing : log.Clearing log') : Grounded (p.updateFromSnapshot s) log' ∨
      Outdated (p.updateFromSnapshot s) log' ∨ StartsLate (p.updateFromSnapshot s) log' := by
  obtain ⟨hcompacted, hfirst, hempty, -⟩ := hclearing
  have hle : log'.compacted ≤ s.index := by omega
  rcases eq_or_ne log'.written.entries [] with hnil | hne
  · exact .inl (.of_snapshot hnil hle)
  rcases Nat.lt_or_ge s.index log'.written.next with hnext | hnext
  · rcases Nat.lt_or_ge (s.index + 1) log'.retained with hlate | hretained
    · exact .inr (.inr ⟨hne, hlate⟩)
    · -- The log goes on behind the snapshot, and is kept.
      refine .inl ⟨⟨le_rfl, le_rfl, hle, fun hnil => absurd hnil hne, fun _ => ?_,
        fun _ => hretained, fun _ => hnext⟩, .inr rfl⟩
      have hold := h.bounds.first_le (mt hempty hne)
      have hbound := h.bounds.bound_le
      have hsnapshot := h.bounds.snapshot_le
      simp only [updateFromSnapshot]
      omega
  · exact .inr (.inl ⟨rfl, rfl, hle, hne, hnext⟩)

/-- The start clears a log that ends before the snapshot. It fails if the WAL cannot be opened. -/
theorem SoundDown.new (h : SoundDown m effects) :
    wp Manager.new
      (fun _ m' => SoundDown m' effects ∧ m'.persistent = m.persistent ∧ ∃ log n,
        m'.wal.Represents log n ∧ (Grounded m.persistent log ∨ StartsLate m.persistent log))
      (fun _ m' => m' = m) (fun m' => SoundDown m' effects) m := by
  have hdown := h
  obtain ⟨htracks, hrecovers⟩ := h
  cases hopen : ConsensusOpWal.new m.wal.wal with
  | error err =>
    simp only [Manager.new, wp_bind, wp_get, hopen]
    exact (wp_of_error rfl).mpr rfl
  | ok w =>
    obtain ⟨log, n, hrep, hlog⟩ := hrecovers w hopen
    have hsame : SoundDown { m with wal := w } effects := by
      obtain ⟨rfl, -⟩ := ConsensusOpWal.new_ok hopen
      exact hdown
    have hkeep (hlog : Grounded m.persistent log ∨ StartsLate m.persistent log)
        (hlt : log.written.entries ≠ [] → m.commit < log.written.next) :
        wp Manager.new (fun _ m' => SoundDown m' effects ∧ m'.persistent = m.persistent ∧ ∃ log n,
            m'.wal.Represents log n ∧ (Grounded m.persistent log ∨ StartsLate m.persistent log))
          (fun _ m' => m' = m) (fun m' => SoundDown m' effects) m := by
      apply wp_total (wp_new_keeps hopen hrep hlt)
      · rintro _ m' rfl
        exact ⟨hsame, rfl, log, n, hrep, hlog⟩
      · exact fun _ hC => hC
    rcases hlog with hlog | hout | hlate
    · exact hkeep (.inl hlog) hlog.bounds.lt_next
    · apply wp_total (wp_new_clears hopen hrep hout.snapshot.symm hout.nonempty hout.next_le)
      · rintro _ m' ⟨wal, rfl, hrep'⟩
        have hlog' : Grounded m.persistent log.clear := by
          refine ⟨?_, .inr hout.snapshot.symm⟩
          rw [hout.snapshot, hout.done]
          exact .of_empty rfl hout.compacted_le
        exact ⟨Sound.down ⟨htracks, _, 0, hrep', hlog'⟩, rfl, _, 0, hrep', .inl hlog'⟩
      · rintro m' ⟨hpersistent, hclearing⟩
        refine ⟨hpersistent ▸ htracks, hclearing.mono fun log' ⟨hcompacted, _, _, hleft⟩ => ?_⟩
        obtain ⟨hne, hnext⟩ := hleft hout.nonempty
        rw [hpersistent]
        exact .inr (.inl ⟨hout.snapshot, hout.done, by omega, hne, hnext.trans hout.next_le⟩)
    · refine hkeep (.inr hlate) fun hne => ?_
      have hretained := hrep.wellFormed.retained_lt hne
      have hbehind := hlate.2
      simp only [commit]
      omega

end

/-! ## The parts of a batch -/

namespace ConsensusThread

variable {c : ConsensusThread} {commit last applied : Nat}
variable {context : String}
variable {R : ApplyError → ConsensusThread → Prop} {C : ConsensusThread → Prop}

theorem wp_onManager {α : Type} {x : Prog Manager StorageError α} {Q : α → ConsensusThread → Prop} :
    wp (onManager context x) Q R C c ↔ wp x (fun a manager => Q a { c with manager })
        (fun e manager => R (.storage context e) { c with manager })
        (fun manager => C { c with manager }) c.manager := by
  rw [onManager, wp_zoom, wp_mapError]

/-- A crash finds a state from which the process can start again. -/
def Restartable (c : ConsensusThread) : Prop := SoundDown c.manager c.effects

/-- The queue is used up, and the Raft library is at these indices. -/
structure At (c : ConsensusThread) (commit last applied : Nat) : Prop where
  sound : Sound c.manager c.effects
  commit : c.manager.commit = commit
  last : c.manager.lastIndex = .ok last
  idle : c.manager.persistent.currentUnappliedEntry = none
  raftApplied : c.raftApplied = applied
  done : c.manager.persistent.done = applied

theorem At.restartable (h : At c commit last applied) : c.Restartable := h.sound.down

/-- The apply loop works off the queue: it stops or fails in between, or the queue is used up
in the end. -/
theorem wp_applyLoop (container : Container) (rounds : Nat) {current lastIndex : Nat}
    (hsound : Sound c.manager c.effects)
    (hrange : c.manager.persistent.applyProgressQueue.range = some (current, lastIndex))
    (hrounds : rounds = lastIndex + 1 - current) :
    wp (applyLoop container rounds) (fun stop c' => Sound c'.manager c'.effects ∧ (stop = false →
        c'.manager = { c.manager with
          persistent := { c.manager.persistent with
            applyProgressQueue := ⟨some (lastIndex + 1, lastIndex)⟩ } } ∧
        c'.raftApplied = c.raftApplied))
      (fun _ c' => Sound c'.manager c'.effects) Restartable c := by
  induction rounds generalizing c current with
  | zero =>
    obtain ⟨_, hle, _⟩ := hsound.1.queue current lastIndex hrange
    have hcurrent : current = lastIndex + 1 := by omega
    apply (wp_pure _).mpr
    refine ⟨hsound, fun _ => ⟨?_, rfl⟩⟩
    rw [← hcurrent, ← hrange]
  | succ rounds ih =>
    have hle : current ≤ lastIndex := by omega
    have hpos := (hsound.1.queue current lastIndex hrange).1
    have hdone := done_eq hrange
    obtain ⟨e, he⟩ := hsound.readable hrange hle
    simp only [applyLoop, wp_bind, wp_get, currentUnappliedEntry_eq hrange,
      if_neg (not_lt.mpr hle), readEntry, he, wp_pure]
    apply (wp_write rfl).mpr
    -- The entry is applied, but this is not saved yet.
    have happlied := hsound.applied (show current = c.manager.persistent.done + 1 by omega)
    refine ⟨hsound.down, ?_⟩
    cases happly : applyEntry container e with
    | error err => exact (wp_of_error rfl).mpr happlied
    | ok stop =>
      apply (wp_ofExcept_ok rfl).mpr
      cases stop with
      | true => exact (wp_pure _).mpr ⟨happlied, by simp⟩
      | false =>
        simp only [Bool.false_eq_true, if_false, wp_bind, note, wp_modify]
        apply wp_onManager.mpr
        apply wp_save.mpr
        refine ⟨happlied.down, ?_⟩
        exact ih (happlied.completed hrange hle) (range_applied hrange) (by omega)

section

variable (h : At c commit last applied)

include h

/-- The manager changes, but not what it has saved. -/
theorem At.setManager {manager : Manager} {last' : Nat}
    (hsound : Sound manager c.effects) (hsame : manager.persistent = c.manager.persistent)
    (hlast : manager.lastIndex = .ok last') : At { c with manager } commit last' applied where
  sound := hsound
  commit := by
    have hcommit := h.commit
    simp only [Manager.commit] at hcommit ⊢
    rw [hsame, hcommit]
  last := hlast
  idle := by
    rw [hsame, h.idle]
  raftApplied := h.raftApplied
  done := by
    rw [hsame, h.done]

theorem At.processSnapshot {snapshot : Option SnapshotMetadata}
    (hlegal : ∀ s, snapshot = some s → commit < s.index) :
    wp (processSnapshot snapshot)
      (fun _ c' => At c' (snapshotOr snapshot commit) (snapshotOr snapshot last)
        (snapshotOr snapshot applied))
      (fun _ _ => False) Restartable c := by
  cases snapshot with
  | none => exact (wp_pure _).mpr h
  | some s =>
    have hlt : c.manager.commit < s.index := h.commit ▸ hlegal s rfl
    obtain ⟨htracks, log, n, hrep, hlog⟩ := h.sound
    have hcompacted := hlog.bounds.compacted_le
    have hdone := hlog.bounds.bound_le
    simp only [Manager.commit] at hlt
    have htracks' := htracks.snapshot (s := s) (by omega)
    simp only [ConsensusThread.processSnapshot, applySnapshot, wp_bind, note, setRaftApplied,
      wp_modify]
    apply wp_onManager.mpr
    apply wp_save.mpr
    refine ⟨h.restartable, ?_⟩
    apply wp_onManager.mpr
    apply wp_onWal.mpr
    apply wp_total hrep.clear
    · intro _ w hrep'
      have hsound : Sound ⟨c.manager.persistent.updateFromSnapshot s, w⟩
          (c.effects ++ [.snapshot s.index]) :=
        ⟨htracks', _, 0, hrep', .of_snapshot rfl (hcompacted.trans hlt.le)⟩
      refine ⟨hsound, rfl, ?_, ?_, rfl, rfl⟩
      · exact lastIndex_eq (m := ⟨c.manager.persistent.updateFromSnapshot s, w⟩) hrep'
      · exact if_pos (Nat.lt_succ_self _)
    · exact fun w hrecovers =>
        ⟨htracks', hrecovers.mono fun log' hclearing => hlog.clearing hlt hclearing⟩

theorem At.appendEntries {es : List RaftEntry}
    (hes : Follows commit last es) {full : RaftEntry → Bool} :
    wp (onManager context (Manager.appendEntries full es))
      (fun _ c' => At c' commit (lastOr es last) applied) (fun _ => Restartable) Restartable c := by
  apply wp_onManager.mpr
  apply wp_mono (h.sound.appendEntries h.last (h.commit ▸ hes) full)
  · exact fun _ manager ⟨hsound, hsame, hlast⟩ => h.setManager hsound hsame hlast
  · exact fun _ _ hdown => hdown
  · exact fun _ hdown => hdown

/-- The commit index moves. -/
theorem At.setHardState (hardState : HardState)
    (hle : commit ≤ hardState.commit) (hlast : hardState.commit ≤ last) :
    At { c with manager := { c.manager with
      persistent := { c.manager.persistent with hardState } } } hardState.commit last applied where
  sound := h.sound.setHardState h.last (h.commit ▸ hle) hlast
  commit := rfl
  last := h.last
  idle := h.idle
  raftApplied := h.raftApplied
  done := h.done

theorem At.processHardState {hs : Option HardState} (hlegal : ∀ hardState, hs = some hardState →
      commit ≤ hardState.commit ∧ hardState.commit ≤ last) :
    wp (processHardState hs) (fun _ c' => At c' (commitOr hs commit) last applied)
      (fun _ _ => False) Restartable c := by
  cases hs with
  | none => exact (wp_pure _).mpr h
  | some hardState =>
    obtain ⟨hle, hlast⟩ := hlegal hardState rfl
    apply wp_onManager.mpr
    apply wp_save.mpr
    exact ⟨h.restartable, h.setHardState hardState hle hlast⟩

theorem At.processCommitIndex {commitIndex : Option Nat}
    (hlegal : ∀ i, commitIndex = some i → commit ≤ i ∧ i ≤ last) :
    wp (processCommitIndex commitIndex) (fun _ c' => At c' (commitIndex.getD commit) last applied)
      (fun _ _ => False) Restartable c := by
  cases commitIndex with
  | none => exact (wp_pure _).mpr h
  | some i =>
    obtain ⟨hle, hlast⟩ := hlegal i rfl
    apply wp_onManager.mpr
    apply wp_save.mpr
    exact ⟨h.restartable,
      h.setHardState { c.manager.persistent.hardState with commit := i } hle hlast⟩

/-- The queue is overwritten, but nothing was left in it. -/
theorem At.handleCommittedEntries {es : List RaftEntry}
    (hes : HandedOut applied commit es) (container : Container) :
    wp (handleCommittedEntries container es) (fun stop c' => Sound c'.manager c'.effects ∧
        (stop = false → At c' commit last (applied + es.length)))
      (fun _ => Restartable) Restartable c := by
  obtain ⟨hseq, hle⟩ := hes
  cases es with
  | nil => exact (wp_pure _).mpr ⟨h.sound, fun _ => h⟩
  | cons e es =>
    have hfirst : e.index = applied + 1 := hseq.1
    have hget := getElem?_eq_getElem (show (e :: es).length - 1 < (e :: es).length by simp)
    have hindex := hseq.index_eq hget
    have hpos : 1 ≤ (e :: es).length := Nat.le_add_left 1 _
    have hlast : (e :: es)[(e :: es).length - 1].index = applied + (e :: es).length := by omega
    simp only [ConsensusThread.handleCommittedEntries, head?_cons,
      getLast?_eq_getElem?, hget, hfirst, hlast, wp_bind, setRaftApplied, wp_modify]
    apply wp_onManager.mpr
    apply wp_save.mpr
    refine ⟨h.restartable, ?_⟩
    have hqueue : Sound { c.manager with persistent := { c.manager.persistent with
        applyProgressQueue := .new (applied + 1) (applied + (e :: es).length) } } c.effects := by
      apply h.sound.setUnapplied
      · rw [h.done]
      · omega
      · exact h.commit ▸ hle
    simp only [applyEntries, wp_bind, wp_get]
    apply wp_mono (wp_applyLoop container _ hqueue rfl rfl)
    · rintro stop c' ⟨hsound, hdone⟩
      refine ⟨hsound, fun hstop => ?_⟩
      obtain ⟨hmanager, happlied⟩ := hdone hstop
      have hrange : c'.manager.persistent.applyProgressQueue.range =
          some (applied + (e :: es).length + 1, applied + (e :: es).length) := by rw [hmanager]
      refine ⟨hsound, ?_, ?_, ?_, happlied, done_eq hrange⟩
      · rw [hmanager, ← h.commit]
        rfl
      · rw [hmanager, ← h.last]
        rfl
      · rw [currentUnappliedEntry_eq hrange, if_pos (Nat.lt_succ_self _)]
    · exact fun _ _ hsound => hsound.down
    · exact fun _ ht => ht

end

theorem wp_compactWal (h : Sound c.manager c.effects) (minEntriesToCompact : Nat) :
    wp (onManager context (Manager.compactWal minEntriesToCompact))
      (fun _ c' => Sound c'.manager c'.effects ∧
        (At c commit last applied → At c' commit last applied))
      (fun _ _ => False) Restartable c := by
  apply wp_onManager.mpr
  apply wp_total (h.compactWal minEntriesToCompact)
  · exact fun _ manager ⟨hsound, hsame, hlast⟩ =>
      ⟨hsound, fun hat => hat.setManager hsound hsame (hlast.trans hat.last)⟩
  · exact fun _ hsound => hsound.down

/-! ## Steps -/

/-- The process goes on at some indices, or stops. -/
def Continued (stop : Bool) (c : ConsensusThread) : Prop :=
  Restartable c ∧ (stop = false → ∃ commit last applied, At c commit last applied)

theorem At.processReady (h : At c commit last applied) {r : Ready}
    (hlegal : r.Legal commit last applied) (full : RaftEntry → Bool) (container : Container) :
    wp (processReady full container r) Continued (fun _ => Restartable) Restartable c := by
  have himp : ∀ (e : ApplyError) (c' : ConsensusThread), False → c'.Restartable :=
    fun _ _ hfalse => hfalse.elim
  simp only [ConsensusThread.processReady, wp_bind]
  apply wp_mono (h.processSnapshot hlegal.snapshot) _ himp (fun _ ht => ht)
  intro _ c₁ h₁
  apply wp_conseq (h₁.appendEntries hlegal.entries)
  intro _ c₂ h₂
  apply wp_mono (h₂.processHardState hlegal.hs) _ himp (fun _ ht => ht)
  intro _ c₃ h₃
  apply wp_conseq (h₃.handleCommittedEntries hlegal.committedEntries container)
  exact fun stop c₄ ⟨hsound, hat⟩ => ⟨hsound.down, fun hstop => ⟨_, _, _, hat hstop⟩⟩

theorem At.processLightReady (h : At c commit last applied) {r : LightReady}
    (hlegal : r.Legal commit last applied) (compactWalEntries : Nat) (container : Container) :
    wp (processLightReady compactWalEntries container r) Continued (fun _ => Restartable)
      Restartable c := by
  simp only [ConsensusThread.processLightReady, wp_bind, wp_pure]
  apply wp_total (h.processCommitIndex hlegal.commitIndex)
  · intro _ c₁ h₁
    apply wp_conseq (h₁.handleCommittedEntries hlegal.committedEntries container)
    rintro stop c₂ ⟨hsound, hat⟩
    apply wp_total (wp_compactWal hsound compactWalEntries)
    · rintro _ c₃ ⟨hsound₃, hkeep⟩
      exact ⟨hsound₃.down, fun hstop => ⟨_, _, _, hkeep (hat hstop)⟩⟩
    · exact fun _ hc => hc
  · exact fun _ hc => hc

/-- Nothing is left to apply. -/
theorem wp_applyEntries_idle {container : Container} {Q : Bool → ConsensusThread → Prop}
    (hidle : c.manager.persistent.currentUnappliedEntry = none) (hc : Q false c) :
    wp (applyEntries container) Q R C c := by
  simp only [applyEntries, wp_bind, wp_get]
  split
  next => exact (wp_pure _).mpr hc
  next current last hrange =>
    have hgt : last + 1 - current = 0 := by
      rw [currentUnappliedEntry_eq hrange] at hidle
      split at hidle
      next hgt => omega
      next => cases hidle
    rw [hgt]
    exact (wp_pure _).mpr hc

/-- The Raft library starts on a log that goes on at the commit index. -/
theorem wp_newNode {Q : Unit → ConsensusThread → Prop} {log : RaftLog} {n : Nat}
    (hrep : c.manager.wal.Represents log n) (hQ : Grounded c.manager.persistent log → Q () c)
    (hR : ∀ err, R err c)
    (hlog : Grounded c.manager.persistent log ∨ StartsLate c.manager.persistent log) :
    wp newNode Q R C c := by
  simp only [newNode, wp_bind, wp_get, firstIndex_eq hrep, lastIndex_eq hrep]
  rcases hlog with hlog | ⟨hne, hlate⟩
  · have hbounds := hlog.bounds
    have hsnapshot := hbounds.snapshot_le
    have hdone := hbounds.bound_le
    rw [if_pos, wp_pure]
    · exact hQ hlog
    · simp only [Manager.commit, RaftLog.lastIndexOr]
      split
      next hnil =>
        have := hbounds.empty hnil
        omega
      next hne =>
        have := hbounds.retained_le hne
        have := hbounds.lt_next hne
        omega
  · rw [if_neg, wp_throw]
    · exact hR _
    · rw [if_neg hne]
      simp only [Manager.commit]
      omega

/-- With an empty queue, the start tells the library the right index. -/
theorem Restartable.new (h : c.Restartable)
    (hidle : c.manager.persistent.currentUnappliedEntry = none) (compactWalEntries : Nat)
    (container : Container) :
    wp (ConsensusThread.new compactWalEntries container) Continued (fun _ => Restartable)
      Restartable c := by
  simp only [ConsensusThread.new, wp_bind, wp_get, setRaftApplied, wp_modify, wp_pure]
  apply wp_onManager.mpr
  apply wp_mono (SoundDown.new h)
  · rintro _ manager ⟨hdown, hsame, log, n, hrep, hlog⟩
    rw [← hsame] at hlog
    refine wp_newNode hrep (fun hlog => ?_) (fun _ => hdown) hlog
    have hsound : Sound manager c.effects := ⟨hdown.1, log, n, hrep, hlog⟩
    have hat : At { c with manager, raftApplied := manager.persistent.done } manager.commit
        (log.lastIndexOr manager.persistent.latestSnapshotMeta.index) manager.persistent.done :=
      ⟨hsound, rfl, lastIndex_eq hrep, hsame ▸ hidle, rfl, rfl⟩
    apply wp_applyEntries_idle hat.idle
    apply wp_total (wp_compactWal hat.sound compactWalEntries)
    · rintro _ c' ⟨hsound', hkeep⟩
      exact ⟨hsound'.down, fun _ => ⟨_, _, _, hkeep hat⟩⟩
    · exact fun _ hc => hc
  · rintro _ manager rfl
    exact h
  · exact fun _ hdown => hdown

/-- A process that runs is at some indices. -/
def ProcessInv : Process → Prop
  | .idle c | .advanced c => ∃ commit last applied, At c commit last applied
  | .down c => c.Restartable

variable {s : Process}

/-- An action that goes on or stops, or that a crash interrupts, keeps the invariant. -/
theorem ProcessInv.finish {x : Prog ConsensusThread ApplyError Bool}
    (h : wp x Continued (fun _ => Restartable) Restartable c) (next : ConsensusThread → Process)
    (hnext : ∀ c, (∃ commit last applied, At c commit last applied) → ProcessInv (next c))
    {crashAt : Option Nat}
    (hs : ConsensusThread.finish next (x c) crashAt = some s) : ProcessInv s := by
  cases crashAt with
  | some k =>
    obtain ⟨c', hc', rfl⟩ := Option.map_eq_some_iff.mp hs
    have hleft : c'.Restartable := wp_interrupted h (mem_of_getElem? hc')
    exact hleft
  | none =>
    have hdown : (x c).state.Restartable := by
      apply wp_state
      apply wp_conseq h
      exact fun _ _ hcontinued => hcontinued.1
    rw [ConsensusThread.finish] at hs
    split at hs
    · next hr =>
      cases hs
      exact hnext _ ((wp_ok h hr).2 rfl)
    · cases hs
      exact hdown

theorem ProcessInv.step {s' : Process} (h : ProcessInv s) {e : Event} (hlegal : Legal s e)
    (hempty : StartsEmpty s e) (hstep : s.step e = some s') : ProcessInv s' := by
  unfold Process.step at hstep
  split at hstep
  · next c compactWalEntries container crashAt =>
    exact ProcessInv.finish (Restartable.new h hempty compactWalEntries container) .idle (fun _ => id) hstep
  · next c full r container crashAt =>
    obtain ⟨commit, last, applied, hat⟩ := h
    have hr : r.Legal commit last applied := hat.commit ▸ hat.raftApplied ▸ hlegal last hat.last
    exact ProcessInv.finish (hat.processReady hr full container) .advanced (fun _ => id) hstep
  · next c compactWalEntries r container crashAt =>
    obtain ⟨commit, last, applied, hat⟩ := h
    have hr : r.Legal commit last applied := hat.commit ▸ hat.raftApplied ▸ hlegal last hat.last
    exact ProcessInv.finish (hat.processLightReady hr compactWalEntries container) .idle (fun _ => id) hstep
  · obtain ⟨_, _, _, hat⟩ := h
    cases hstep
    exact hat.restartable
  · obtain ⟨_, _, _, hat⟩ := h
    cases hstep
    exact hat.restartable
  · cases hstep

theorem processInv_init : ProcessInv .init :=
  Sound.down (m := ⟨.init, .create⟩) ⟨⟨nofun, trivial, rfl⟩, .empty, 0,
    ConsensusOpWal.represents_create, .of_empty rfl le_rfl, .inr rfl⟩

theorem ProcessInv.inOrder (h : ProcessInv s) : InOrder 0 s.thread.effects := by
  cases s with
  | idle c | advanced c =>
    obtain ⟨_, _, _, hat⟩ := h
    exact hat.sound.1.inOrder
  | down c => exact h.1.inOrder

/-! ## Runs -/

/-- The entry with index `i`, which creates a collection. -/
def entryAt (i : Nat) : RaftEntry := ⟨.entryNormal, 1, i, [0]⟩

/-- Every entry is applied with success. -/
def succeeding : Container := ⟨fun _ => .ok true, fun _ => .ok false⟩

/-- The Raft library appends entry `i`, commits it and hands it out. -/
def readyWith (i : Nat) : Ready := ⟨none, [entryAt i], some ⟨1, i⟩, [entryAt i]⟩

theorem readyWith_legal (i : Nat) : (readyWith (i + 1)).Legal i i i where
  snapshot := nofun
  entries := by
    rintro e ⟨⟩
    exact ⟨⟨rfl, trivial⟩, Nat.lt_succ_self i, le_rfl⟩
  hs := by
    rintro hs ⟨⟩
    exact ⟨Nat.le_succ i, le_rfl⟩
  committedEntries := ⟨⟨rfl, trivial⟩, le_rfl⟩

/-- A peer takes a batch, crashes, starts again and takes the next one. -/
def twoBatches : List Event :=
  [.run (.new 128) succeeding none, .run (.ready (fun _ => false) (readyWith 1)) succeeding none,
    .crash, .run (.new 128) succeeding none,
    .run (.ready (fun _ => false) (readyWith 2)) succeeding none]

/-- A peer crashes between saving the queue and applying its only entry, and starts again. The
Raft library hands the entry out once more. -/
def crashInBatch : List Event :=
  [.run (.new 128) succeeding none,
    .run (.ready (fun _ => false) (readyWith 1)) succeeding (some 3),
    .run (.new 128) succeeding none,
    .run (.ready (fun _ => false) ⟨none, [], none, [entryAt 1]⟩) succeeding none]

end ConsensusThread

end Qdrant.Consensus
