-- SUMMARY: The WAL of the consensus refines a Raft log: the latest entry for each index that is retained.
import Qdrant.Consensus.ConsensusWal

/-!
# The consensus WAL refines a Raft log

`RaftLog` is what the WAL is for: the entries that were written since it was last cleared,
the latest one for each index, and the index from which on they are retained. Appending
replaces a suffix, compaction moves the first retained index up to the last entry at most.
After the WAL is opened again, entries that were compacted but not yet removed can be back.

The WAL holds the entries of the log without the first `n`, and the first of them has WAL
index `n`. So the offset between the two kinds of indices is the index of the first entry
that was written, whether it is still there or not.
-/

namespace Qdrant.Consensus

open List Crash Wal SegmentList

/-! ## Sequential entries -/

/-- The entries have the indices from `start` on. -/
def SequentialFrom : Nat → List RaftEntry → Prop
  | _, [] => True
  | start, e :: es => e.index = start ∧ SequentialFrom (start + 1) es

instance SequentialFrom.decidable : (start : Nat) → (es : List RaftEntry) →
    Decidable (SequentialFrom start es)
  | _, [] => .isTrue trivial
  | start, _ :: es =>
    have := SequentialFrom.decidable (start + 1) es
    inferInstanceAs (Decidable (_ ∧ _))

namespace SequentialFrom

variable {start : Nat} {es es' : List RaftEntry}

theorem append : SequentialFrom start (es ++ es') ↔
    SequentialFrom start es ∧ SequentialFrom (start + es.length) es' := by
  induction es generalizing start with
  | nil => simp [SequentialFrom]
  | cons e es ih =>
    rw [cons_append, SequentialFrom, SequentialFrom, ih, length_cons, and_assoc,
      Nat.add_assoc, Nat.add_comm 1]

section

variable (h : SequentialFrom start es)

include h

theorem index_eq {k : Nat} {e : RaftEntry} (he : es[k]? = some e) : e.index = start + k := by
  induction es generalizing start k with
  | nil => simp at he
  | cons e' es ih =>
    cases k with
    | zero =>
      cases he
      exact h.1
    | succ k =>
      rw [ih h.2 he, Nat.add_right_comm, Nat.add_assoc]

theorem drop (n : Nat) : SequentialFrom (start + n) (es.drop n) := by
  induction n generalizing start es with
  | zero => exact h
  | succ n ih =>
    cases es with
    | nil => trivial
    | cons e es =>
      rw [drop_succ_cons, Nat.add_comm n, ← Nat.add_assoc]
      exact ih h.2

theorem take (n : Nat) : SequentialFrom start (es.take n) := by
  rw [← take_append_drop n es] at h
  exact (append.mp h).1

/-- Among sequential entries, those in a range of indices stand next to each other. -/
theorem filter_eq (lo hi : Nat) : es.filter (fun e => decide (lo ≤ e.index ∧ e.index < hi)) =
      (es.take (hi - start)).drop (lo - start) := by
  induction es generalizing start with
  | nil => simp
  | cons e es ih =>
    obtain ⟨rfl, hes⟩ := h
    rw [filter_cons, ih hes, Nat.sub_add_eq, Nat.sub_add_eq]
    cases hcut : hi - e.index with
    | zero => rw [if_neg (by simp; omega), take_zero, take_zero, drop_nil, drop_nil]
    | succ n =>
      rw [take_succ_cons]
      cases hskip : lo - e.index with
      | zero => exact if_pos (by simp; omega)
      | succ m => exact if_neg (by simp; omega)

end

end SequentialFrom

/-! ## The Raft log -/

structure RaftLog where
  /-- The latest entry that was written for each index. -/
  written : IndexedLog RaftEntry
  /-- Entries are retained from this index on. -/
  retained : Nat
  /-- Entries below this index are refused. -/
  compacted : Nat
deriving DecidableEq

namespace RaftLog

def empty : RaftLog := ⟨⟨0, []⟩, 0, 0⟩

section

variable (log : RaftLog)

/-- The retained entry with this index. -/
def get? (i : Nat) : Option RaftEntry :=
  if i < log.retained then none else log.written.get? i

/-- The retained entries. -/
def entries : List RaftEntry :=
  log.written.entries.drop (log.retained - log.written.first)

/-- The retained entries with indices from `lo` to `hi`, which is excluded. -/
def slice (lo hi : Nat) : List RaftEntry :=
  log.entries.filter fun e => decide (lo ≤ e.index ∧ e.index < hi)

/-- Remove the entries from index `i` on. -/
def truncate (i : Nat) : RaftLog := { log with written := log.written.truncate i }

/-- Write an entry at its index, in place of the entries from there on. -/
def put (e : RaftEntry) : RaftLog :=
  if log.written.entries = [] then
    { log with written := ⟨e.index, [e]⟩, retained := e.index }
  else { log with written := (log.written.truncate e.index).push e }

def append (es : List RaftEntry) : RaftLog := es.foldl put log

/-- Nothing can be written to an empty log below the compaction point. -/
def Refuses (es : List RaftEntry) : Prop :=
  log.written.entries = [] ∧ ∃ e, es.head? = some e ∧ e.index < log.compacted

/-- What an append that does not come to its end leaves: some of the conflicting entries are
removed, or some of the new ones are written. -/
def Interrupted (es : List RaftEntry) (log' : RaftLog) : Prop :=
  (∃ pre, pre <+: es ∧ log' = log.append pre) ∨
    ∃ e i, es.head? = some e ∧ e.index ≤ i ∧ log' = log.truncate i

/-- Compact the log, but keep its last entry. -/
def compact (stop : Nat) : RaftLog :=
  if log.written.entries = [] then log
  else
    let stop := min stop (log.written.next - 1)
    { log with retained := max log.retained stop, compacted := max log.compacted stop }

def clear : RaftLog := { log with written := ⟨0, []⟩ }

/-- What a clear that does not come to its end leaves, after the log is opened again: a part of the
entries, but not none of them. -/
def Clearing (log' : RaftLog) : Prop :=
  log'.compacted = 0 ∧ log'.written.first = log.written.first ∧
    (log.written.entries = [] → log'.written.entries = []) ∧
    (log.written.entries ≠ [] → log'.written.entries ≠ [] ∧ log'.written.next ≤ log.written.next)

/-- Open the log again. Entries from an earlier index on can be back. -/
def reopen (retained : Nat) : RaftLog := { log with retained, compacted := 0 }

/-- How far entries come back depends on the segments that were removed. -/
def Reopens (log' : RaftLog) : Prop :=
  ∃ retained, log' = log.reopen retained ∧ retained ≤ log.retained ∧
    (log.written.entries ≠ [] → log.written.first ≤ retained)

end

/-- The indices of the entries follow each other, and the first retained index is the one of
an entry. -/
structure WellFormed (log : RaftLog) : Prop where
  sequential : SequentialFrom log.written.first log.written.entries
  one_le : log.written.entries ≠ [] → 1 ≤ log.written.first
  first_le : log.written.entries ≠ [] → log.written.first ≤ log.retained
  compacted_le : log.written.entries ≠ [] → log.compacted ≤ log.retained
  retained_lt : log.written.entries ≠ [] → log.retained < log.written.next

/-- An entry with index `i` can be written: there is no gap, and the first retained entry is
only replaced if it is the first one at all. -/
structure Appendable (log : RaftLog) (i : Nat) : Prop where
  one_le : 1 ≤ i
  above : log.written.entries ≠ [] →
    log.retained < i ∨ i = log.retained ∧ i = log.written.first
  le_next : log.written.entries ≠ [] → i ≤ log.written.next

section

variable {log : RaftLog} {e : RaftEntry} {i : Nat}

theorem put_nil (h : log.written.entries = []) :
    log.put e = { log with written := ⟨e.index, [e]⟩, retained := e.index } := if_pos h

theorem put_of_ne (h : log.written.entries ≠ []) :
    log.put e = { log with written := (log.written.truncate e.index).push e } := if_neg h

theorem compacted_put (log : RaftLog) (e : RaftEntry) : (log.put e).compacted = log.compacted := by
  unfold put
  split
  · rfl
  · rfl

theorem put_entries_ne (log : RaftLog) (e : RaftEntry) : (log.put e).written.entries ≠ [] := by
  unfold put
  split
  · simp
  · simp [IndexedLog.push]

theorem append_entries_ne (log : RaftLog) {es : List RaftEntry} (hne : es ≠ []) :
    (log.append es).written.entries ≠ [] := by
  rcases eq_nil_or_concat es with rfl | ⟨pre, e, rfl⟩
  · exact absurd rfl hne
  · rw [concat_eq_append, append, foldl_append]
    exact put_entries_ne _ e

theorem entries_ne_of_truncate (hne : (log.truncate i).written.entries ≠ []) :
    log.written.entries ≠ [] := by
  intro hnil
  exact hne (by rw [truncate, IndexedLog.truncate, hnil, take_nil])

/-- Truncation behind the last entry does nothing. -/
theorem truncate_next (hi : log.written.next ≤ i) : log.truncate i = log := by
  have hall : log.written.entries.take (i - log.written.first) = log.written.entries := by
    apply take_of_length_le
    rw [IndexedLog.next] at hi
    omega
  rw [truncate, IndexedLog.truncate, hall]

theorem get?_of_same_first {R : Type} {first j : Nat} {rs rs' : List R}
    (h : first ≤ j → rs[j - first]? = rs'[j - first]?) :
    IndexedLog.get? ⟨first, rs⟩ j = IndexedLog.get? ⟨first, rs'⟩ j := by
  rw [IndexedLog.get?, IndexedLog.get?]
  split
  · rfl
  · next hge => exact h (Nat.le_of_not_lt hge)

theorem get?_truncate_of_lt {j : Nat} (hj : j < i) :
    (log.truncate i).written.get? j = log.written.get? j :=
  get?_of_same_first fun _ => getElem?_take_of_lt (by omega)

/-- A log that is truncated before its first entry is empty. -/
theorem truncate_first (hi : i ≤ log.written.first) : (log.truncate i).written.entries = [] := by
  have hzero : i - log.written.first = 0 := Nat.sub_eq_zero_of_le hi
  rw [truncate, IndexedLog.truncate, hzero, take_zero]

theorem WellFormed.empty : RaftLog.empty.WellFormed :=
  ⟨trivial, fun h => absurd rfl h, fun h => absurd rfl h, fun h => absurd rfl h,
    fun h => absurd rfl h⟩

theorem WellFormed.truncate (h : log.WellFormed) (hi : log.retained < i ∨ i ≤ log.written.first) :
    (log.truncate i).WellFormed where
  sequential := h.sequential.take _
  one_le hne := h.one_le (entries_ne_of_truncate hne)
  first_le hne := h.first_le (entries_ne_of_truncate hne)
  compacted_le hne := h.compacted_le (entries_ne_of_truncate hne)
  retained_lt hne := by
    rcases hi with hlt | hle
    · have hret := h.retained_lt (entries_ne_of_truncate hne)
      simp only [RaftLog.truncate, IndexedLog.truncate, IndexedLog.next, length_take] at hret ⊢
      omega
    · exact absurd (truncate_first hle) hne

/-- The entries before a written one. -/
theorem Appendable.length_take (h : log.Appendable i) (hwf : log.WellFormed)
    (hne : log.written.entries ≠ []) :
    log.written.first ≤ i ∧
      (log.written.entries.take (i - log.written.first)).length = i - log.written.first := by
  have hnext := h.le_next hne
  have hfirst := hwf.first_le hne
  have habove := h.above hne
  rw [IndexedLog.next] at hnext
  rw [List.length_take]
  omega

/-- Writing an entry does not change the entries before it. -/
theorem get?_put_of_lt (hwf : log.WellFormed) (h : log.Appendable e.index) (hi : i < e.index) :
    (log.put e).written.get? i = log.written.get? i := by
  rcases eq_or_ne log.written.entries [] with hnil | hne
  · rw [put_nil hnil, IndexedLog.get?, if_pos hi, IndexedLog.get?, hnil]
    simp
  · obtain ⟨hfirst, hlength⟩ := h.length_take hwf hne
    refine Eq.trans ?_ (get?_truncate_of_lt hi)
    rw [put_of_ne hne]
    refine get?_of_same_first fun hge => getElem?_append_left (?_ : _ < List.length (.take _ _))
    change i - log.written.first < _
    change log.written.first ≤ i at hge
    omega

/-- After an entry is written, the log ends with it. -/
theorem Appendable.next_put (h : log.Appendable e.index) (hwf : log.WellFormed) :
    (log.put e).written.next = e.index + 1 := by
  rcases eq_or_ne log.written.entries [] with hnil | hne
  · rw [put_nil hnil]
    rfl
  · obtain ⟨hfirst, hlength⟩ := h.length_take hwf hne
    rw [put_of_ne hne]
    simp only [IndexedLog.push, IndexedLog.truncate, IndexedLog.next, length_append, hlength,
      length_singleton]
    omega

theorem WellFormed.put (h : log.WellFormed) (happ : log.Appendable e.index)
    (hcompacted : log.compacted ≤ e.index) : (log.put e).WellFormed := by
  have hnext := happ.next_put h
  rcases eq_or_ne log.written.entries [] with hnil | hne
  · rw [put_nil hnil] at hnext ⊢
    exact ⟨⟨rfl, trivial⟩, fun _ => happ.one_le, fun _ => le_rfl, fun _ => hcompacted,
      fun _ => Nat.lt_succ_self _⟩
  · obtain ⟨hfirst, hlength⟩ := happ.length_take h hne
    rw [put_of_ne hne] at hnext ⊢
    refine ⟨?_, fun _ => h.one_le hne, fun _ => h.first_le hne, fun _ => h.compacted_le hne, ?_⟩
    · refine SequentialFrom.append.mpr ⟨h.sequential.take _, ?_, trivial⟩
      show e.index = log.written.first + (log.written.entries.take _).length
      rw [hlength, Nat.add_sub_cancel' hfirst]
    · intro _
      dsimp only at hnext ⊢
      have habove := happ.above hne
      omega

/-- The next entry can be written after the one before it. -/
theorem Appendable.put (h : log.Appendable e.index) (hwf : log.WellFormed) :
    (log.put e).Appendable (e.index + 1) := by
  have hnext := h.next_put hwf
  refine ⟨Nat.le_add_left 1 _, fun _ => .inl ?_, fun _ => hnext ▸ le_rfl⟩
  rcases eq_or_ne log.written.entries [] with hnil | hne
  · rw [put_nil hnil]
    exact Nat.lt_succ_self _
  · rw [put_of_ne hne]
    have habove := h.above hne
    dsimp only
    omega

/-- The last entry is always retained. -/
theorem WellFormed.entries_ne (h : log.WellFormed) (hne : log.written.entries ≠ []) :
    log.entries ≠ [] := by
  have hret := h.retained_lt hne
  have hfirst := h.first_le hne
  rw [IndexedLog.next] at hret
  intro hnil
  have := drop_eq_nil_iff.mp hnil
  omega

theorem WellFormed.getLast?_entries (h : log.WellFormed) :
    log.entries.getLast? = log.written.entries.getLast? := by
  rcases eq_or_ne log.written.entries [] with hnil | hne
  · rw [entries, hnil, drop_nil]
  · rw [entries, getLast?_drop, if_neg]
    exact fun hle => h.entries_ne hne (drop_eq_nil_iff.mpr hle)

/-- The first retained entry has the first retained index. -/
theorem WellFormed.head?_entries (h : log.WellFormed) (hne : log.written.entries ≠ []) :
    ∃ e, log.entries.head? = some e ∧ e.index = log.retained := by
  have hlt := h.retained_lt hne
  have hle := h.first_le hne
  rw [IndexedLog.next] at hlt
  have hget := getElem?_eq_getElem (show log.retained - log.written.first <
    log.written.entries.length by omega)
  refine ⟨_, by rw [entries, head?_drop, hget], ?_⟩
  rw [h.sequential.index_eq hget]
  omega

/-- The last entry stands right before the next index. -/
theorem WellFormed.exists_getLast? (h : log.WellFormed) (hne : log.written.entries ≠ []) :
    ∃ e, log.entries.getLast? = some e ∧ e.index + 1 = log.written.next := by
  have hpos := length_pos_iff.mpr hne
  have hget := getElem?_eq_getElem (show log.written.entries.length - 1 <
    log.written.entries.length by omega)
  refine ⟨_, by rw [h.getLast?_entries, getLast?_eq_getElem?, hget], ?_⟩
  rw [h.sequential.index_eq hget, IndexedLog.next]
  omega

theorem written_compact (log : RaftLog) (stop : Nat) : (log.compact stop).written = log.written := by
  unfold compact
  split
  · rfl
  · rfl

theorem WellFormed.compact (h : log.WellFormed) (stop : Nat) : (log.compact stop).WellFormed := by
  unfold RaftLog.compact
  split
  next => exact h
  next hne =>
    have hfirst := h.first_le hne
    have hcompacted := h.compacted_le hne
    have hret := h.retained_lt hne
    refine ⟨h.sequential, h.one_le, fun _ => ?_, fun _ => ?_, fun _ => ?_⟩
    · exact hfirst.trans (Nat.le_max_left _ _)
    · dsimp only
      omega
    · dsimp only
      omega

/-- Compaction below the compaction point does nothing. -/
theorem compact_of_le {stop : Nat} (hle : stop ≤ log.compacted) (h : log.WellFormed) :
    log.compact stop = log := by
  unfold compact
  split
  next => rfl
  next hne =>
    have hcompacted := h.compacted_le hne
    have hmin : min stop (log.written.next - 1) ≤ log.compacted := Nat.le_trans (Nat.min_le_left _ _) hle
    dsimp only
    rw [Nat.max_eq_left hmin, Nat.max_eq_left (hmin.trans hcompacted)]

theorem WellFormed.clear (log : RaftLog) : log.clear.WellFormed :=
  ⟨trivial, fun h => absurd rfl h, fun h => absurd rfl h, fun h => absurd rfl h,
    fun h => absurd rfl h⟩

theorem WellFormed.reopen (h : log.WellFormed) {retained : Nat} (hle : retained ≤ log.retained)
    (hfirst : log.written.entries ≠ [] → log.written.first ≤ retained) :
    (log.reopen retained).WellFormed :=
  ⟨h.sequential, h.one_le, hfirst, fun _ => Nat.zero_le _,
    fun hne => hle.trans_lt (h.retained_lt hne)⟩

end

/-! ## Bounds of a Raft log

A log continues the last snapshot and reaches the commit index; what is compacted is not
needed any more. `Bounds snapshot bound commit log` states this with a `bound` up to which
entries may be compacted. New entries start behind the commit index, so they never touch
what is committed.
-/

variable {snapshot bound commit start : Nat} {log log' : RaftLog} {e : RaftEntry}
  {es : List RaftEntry}

/-! ## New entries -/

/-- New entries from index `start` on can be appended without touching committed ones. -/
structure Continues (commit : Nat) (log : RaftLog) (start : Nat) : Prop where
  appendable : log.Appendable start
  compacted_le : log.compacted ≤ commit
  commit_lt : commit < start
  empty : log.written.entries = [] → start = commit + 1

theorem Continues.put (h : Continues commit log e.index) (hwf : log.WellFormed) :
    Continues commit (log.put e) (e.index + 1) where
  appendable := h.appendable.put hwf
  compacted_le := log.compacted_put e ▸ h.compacted_le
  commit_lt := Nat.lt_succ_of_lt h.commit_lt
  empty hnil := absurd hnil (log.put_entries_ne e)

theorem Continues.wellFormed_put (h : Continues commit log e.index) (hwf : log.WellFormed) :
    (log.put e).WellFormed :=
  hwf.put h.appendable (h.compacted_le.trans_lt h.commit_lt).le

section

variable (h : Continues commit log start) (hwf : log.WellFormed) (hseq : SequentialFrom start es)

include h hwf hseq

/-- What holds of a log and is kept by writing one entry holds after an append. -/
theorem Continues.append_induction {P : RaftLog → Prop} (hlog : P log)
    (hput : ∀ log e, log.WellFormed → Continues commit log e.index → P log → P (log.put e)) :
    P (log.append es) := by
  induction es generalizing log start with
  | nil => exact hlog
  | cons e es ih =>
    obtain ⟨rfl, hseq⟩ := hseq
    exact ih (h.put hwf) (h.wellFormed_put hwf) hseq (hput log e hwf h hlog)

/-- The same where an append does not come to its end. -/
theorem Continues.interrupted_induction {P : RaftLog → Prop} (hint : log.Interrupted es log')
    (hlog : P log)
    (hput : ∀ log e, log.WellFormed → Continues commit log e.index → P log → P (log.put e))
    (htruncate : ∀ i, commit < i → P (log.truncate i)) : P log' := by
  rcases hint with ⟨pre, ⟨rest, rfl⟩, rfl⟩ | ⟨e, i, he, hi, rfl⟩
  · exact h.append_induction hwf (SequentialFrom.append.mp hseq).1 hlog hput
  · cases es with
    | nil => cases he
    | cons e' es =>
      cases he
      obtain ⟨rfl, _⟩ := hseq
      exact htruncate i (h.commit_lt.trans_le hi)

/-- New entries end the log. -/
theorem Continues.next_append (hne : es ≠ []) :
    (log.append es).written.next = start + es.length := by
  induction es generalizing log start with
  | nil => exact absurd rfl hne
  | cons e es ih =>
    obtain ⟨rfl, hseq⟩ := hseq
    rcases eq_or_ne es [] with rfl | hes
    · exact h.appendable.next_put hwf
    · have hnext := ih (h.put hwf) (h.wellFormed_put hwf) hseq hes
      rw [Nat.add_assoc, Nat.add_comm 1] at hnext
      exact hnext

end

/-! ## Bounds -/

/-- Entries up to the index are retained, or no entry was removed. New entries behind the index then
do not replace the first retained one, unless it is the first one at all. -/
def Anchored (i : Nat) (log : RaftLog) : Prop :=
  log.written.entries ≠ [] → log.retained ≤ i ∨ log.retained = log.written.first

namespace Anchored

variable {i : Nat} (h : log.Anchored i)

include h

theorem mono {j : Nat} (hle : i ≤ j) : log.Anchored j := fun hne => (h hne).imp_left hle.trans'

theorem put : (log.put e).Anchored i := by
  intro _
  rcases eq_or_ne log.written.entries [] with hnil | hne
  · rw [put_nil hnil]
    exact .inr rfl
  · rw [put_of_ne hne]
    exact h hne

theorem truncate : (log.truncate start).Anchored i := fun hne => h (entries_ne_of_truncate hne)

theorem compact {stop : Nat} (hstop : stop ≤ i) : (log.compact stop).Anchored i := by
  unfold RaftLog.compact
  split
  next => exact h
  next =>
    intro hne
    have hretained := h hne
    dsimp only
    omega

theorem reopen (hreopens : log.Reopens log') : log'.Anchored i := by
  obtain ⟨retained, rfl, hle, hfirst⟩ := hreopens
  intro hne
  have hretained := h hne
  have hge := hfirst hne
  simp only [RaftLog.reopen]
  omega

end Anchored

theorem Anchored.of_empty {i : Nat} (hnil : log.written.entries = []) : log.Anchored i :=
  fun hne => absurd hnil hne

/-- The log continues the snapshot, holds the entries behind `bound` and reaches the commit
index. -/
structure Bounds (snapshot bound commit : Nat) (log : RaftLog) : Prop where
  snapshot_le : snapshot ≤ bound
  bound_le : bound ≤ commit
  compacted_le : log.compacted ≤ commit
  empty : log.written.entries = [] → commit = snapshot
  first_le : log.written.entries ≠ [] → log.written.first ≤ snapshot + 1
  retained_le : log.written.entries ≠ [] → log.retained ≤ bound + 1
  lt_next : log.written.entries ≠ [] → commit < log.written.next

/-- The last index that Raft sees, with the index of the snapshot for an empty log. -/
def lastIndexOr (log : RaftLog) (snapshot : Nat) : Nat :=
  if log.written.entries = [] then snapshot else log.written.next - 1

namespace Bounds

/-- An empty log whose commit index is the one of the snapshot. -/
theorem of_empty (hnil : log.written.entries = []) (hcompacted : log.compacted ≤ commit) :
    Bounds commit commit commit log :=
  ⟨le_rfl, le_rfl, hcompacted, fun _ => rfl, fun hne => absurd hnil hne,
    fun hne => absurd hnil hne, fun hne => absurd hnil hne⟩

section

variable (h : Bounds snapshot bound commit log)

include h

/-- Entries that start behind the commit index, at most one past the end of the log. -/
theorem continues (hcommit : commit < start) (hle : start ≤ log.lastIndexOr snapshot + 1)
    (hanchored : log.Anchored (start - 1)) : Continues commit log start := by
  have hbound := h.bound_le
  rw [lastIndexOr] at hle
  refine ⟨⟨by omega, fun hne => ?_, fun hne => ?_⟩, h.compacted_le, hcommit, fun hnil => ?_⟩
  · have hretained := hanchored hne
    have hle := h.retained_le hne
    omega
  · rw [if_neg hne] at hle
    have := h.lt_next hne
    omega
  · rw [if_pos hnil] at hle
    have := h.empty hnil
    omega

theorem put (hwf : log.WellFormed)
    (hcont : Continues commit log e.index) : Bounds snapshot bound commit (log.put e) where
  snapshot_le := h.snapshot_le
  bound_le := h.bound_le
  compacted_le := log.compacted_put e ▸ h.compacted_le
  empty hnil := absurd hnil (log.put_entries_ne e)
  first_le _ := by
    rcases eq_or_ne log.written.entries [] with hnil | hne
    · rw [put_nil hnil, hcont.empty hnil, h.empty hnil]
    · rw [put_of_ne hne]
      exact h.first_le hne
  retained_le _ := by
    rcases eq_or_ne log.written.entries [] with hnil | hne
    · have hempty := h.empty hnil
      have hsnapshot := h.snapshot_le
      rw [put_nil hnil, hcont.empty hnil]
      dsimp only
      omega
    · rw [put_of_ne hne]
      exact h.retained_le hne
  lt_next _ := by
    rw [hcont.appendable.next_put hwf]
    exact Nat.lt_succ_of_lt hcont.commit_lt

/-- Entries behind the commit index can be removed. -/
theorem truncate (hcommit : commit < start) :
    Bounds snapshot bound commit (log.truncate start) where
  snapshot_le := h.snapshot_le
  bound_le := h.bound_le
  compacted_le := h.compacted_le
  empty hnil := by
    rcases eq_or_ne log.written.entries [] with hempty | hne
    · exact h.empty hempty
    · -- Nothing is left, so the first entry was behind the commit index.
      have hpos := List.length_pos_iff.mpr hne
      have hzero : min (start - log.written.first) log.written.entries.length = 0 := by
        rw [← List.length_take]
        exact List.length_eq_zero_iff.mpr hnil
      have hfirst := h.first_le hne
      have hsnapshot := h.snapshot_le
      have hbound := h.bound_le
      omega
  first_le hne := h.first_le (entries_ne_of_truncate hne)
  retained_le hne := h.retained_le (entries_ne_of_truncate hne)
  lt_next hne := by
    have hlt := h.lt_next (entries_ne_of_truncate hne)
    simp only [RaftLog.truncate, IndexedLog.truncate, IndexedLog.next, List.length_take] at hlt ⊢
    omega

section

variable (hwf : log.WellFormed) (hcont : Continues commit log start)
  (hseq : SequentialFrom start es)

include hwf hcont hseq

theorem append : Bounds snapshot bound commit (log.append es) :=
  hcont.append_induction hwf hseq h fun _ _ hwf hcont h => h.put hwf hcont

theorem interrupted (hint : log.Interrupted es log') : Bounds snapshot bound commit log' :=
  hcont.interrupted_induction hwf hseq hint h (fun _ _ hwf hcont h => h.put hwf hcont)
    fun _ => h.truncate

end

theorem compact {stop : Nat} (hstop : stop ≤ bound) :
    Bounds snapshot bound commit (log.compact stop) := by
  unfold RaftLog.compact
  split
  next => exact h
  next hne =>
    have hcompacted := h.compacted_le
    have hbound := h.bound_le
    have hle := h.retained_le hne
    refine ⟨h.snapshot_le, hbound, ?_, h.empty, h.first_le, fun _ => ?_, h.lt_next⟩
    · dsimp only
      omega
    · dsimp only
      omega

theorem reopen (hreopens : log.Reopens log') : Bounds snapshot bound commit log' := by
  obtain ⟨retained, rfl, hle, -⟩ := hreopens
  exact ⟨h.snapshot_le, h.bound_le, Nat.zero_le _, h.empty, h.first_le,
    fun hne => hle.trans (h.retained_le hne), h.lt_next⟩

/-- The commit index moves up to the end of the log at most. -/
theorem setCommit {commit' : Nat} (hle : commit ≤ commit')
    (hlast : commit' ≤ log.lastIndexOr snapshot) : Bounds snapshot bound commit' log := by
  rw [lastIndexOr] at hlast
  refine ⟨h.snapshot_le, h.bound_le.trans hle, h.compacted_le.trans hle, fun hnil => ?_,
    h.first_le, h.retained_le, fun hne => ?_⟩
  · rw [if_pos hnil] at hlast
    have := h.empty hnil
    omega
  · rw [if_neg hne] at hlast
    have := h.lt_next hne
    omega

/-- Entries up to a larger index may be compacted. -/
theorem setBound {bound' : Nat} (hle : bound ≤ bound')
    (hcommit : bound' ≤ commit) : Bounds snapshot bound' commit log := by
  refine ⟨h.snapshot_le.trans hle, hcommit, h.compacted_le, h.empty, h.first_le,
    fun hne => ?_, h.lt_next⟩
  have := h.retained_le hne
  omega

end

end Bounds

end RaftLog

end Qdrant.Consensus
