-- SUMMARY: Every run of the consensus WAL shows the Raft log that its calls give.
import Qdrant.Base.Run
import Qdrant.Consensus.WalRepresents

/-!
# Runs of the consensus WAL

A run is a sequence of appends, compactions, clears and reopenings. The abstract log takes
the same calls; only how far a reopening brings entries back is left open there, since that
depends on the segments that were removed. In every state of a run, all reads of the WAL
give what the log gives.
-/

namespace Qdrant.Consensus

open Crash Wal SegmentList ConsensusOpWal

namespace ConsensusOpWal

/-! ## Calls -/

inductive Call where
  | appendEntries (full : RaftEntry → Bool) (newEntries : List RaftEntry)
  | compact (untilRaftIndex : Nat)
  | clear
  | reopen

/-- One call on the WAL, whether it succeeds or fails. A WAL that cannot be opened is lost. -/
def step (w : ConsensusOpWal) : Call → Option ConsensusOpWal
  | .appendEntries full newEntries => some (appendEntries full newEntries w).state
  | .compact untilRaftIndex => some (compact untilRaftIndex w).state
  | .clear => some (clear w).state
  | .reopen => (new w.wal).toOption

/-- New entries have contiguous Raft indices that start above the first retained entry and
at most one past the last one. -/
def InDomain (w : ConsensusOpWal) : Call → Prop
  | .appendEntries _ newEntries =>
    ∀ e, newEntries.head? = some e → 1 ≤ e.index ∧ SequentialFrom e.index newEntries ∧
      (∀ first, w.firstEntry = .ok (some first) → first.index < e.index) ∧
      ∀ last, w.lastEntry = .ok (some last) → e.index ≤ last.index + 1
  | _ => True

end ConsensusOpWal

namespace RaftLog

/-- What a call does to the log. -/
inductive Step (log : RaftLog) : ConsensusOpWal.Call → RaftLog → Prop
  | append {full : RaftEntry → Bool} {es : List RaftEntry} (h : ¬ log.Refuses es) :
      Step log (.appendEntries full es) (log.append es)
  | refused {full : RaftEntry → Bool} {es : List RaftEntry} (h : log.Refuses es) :
      Step log (.appendEntries full es) log
  | compact {stop : Nat} : Step log (.compact stop) (log.compact stop)
  | clear : Step log .clear log.clear
  | reopen {retained : Nat} (hle : retained ≤ log.retained)
      (hfirst : log.written.entries ≠ [] → log.written.first ≤ retained) :
      Step log .reopen (log.reopen retained)

/-- The log after a sequence of calls. -/
inductive Reaches : RaftLog → List ConsensusOpWal.Call → RaftLog → Prop
  | nil {log : RaftLog} : Reaches log [] log
  | cons {log log' log'' : RaftLog} {c : ConsensusOpWal.Call} {cs : List ConsensusOpWal.Call}
      (hstep : Step log c log') (hrest : Reaches log' cs log'') : Reaches log (c :: cs) log''

end RaftLog

namespace ConsensusOpWal

variable {w : ConsensusOpWal} {log : RaftLog} {n : Nat}

/-- The answers of the WAL are those of the log. -/
structure Shows (computeSize : RaftEntry → Nat) (w : ConsensusOpWal) (log : RaftLog) : Prop where
  wellFormed : log.WellFormed
  firstEntry : w.firstEntry = .ok log.entries.head?
  lastEntry : w.lastEntry = .ok log.entries.getLast?
  entry : ∀ i, (w.entry i).toOption = log.get? i
  entries : log.entries ≠ [] →
    ∀ lo hi, w.entries computeSize lo hi none = .ok (log.slice lo hi)
  entriesLimited : log.entries ≠ [] →
    ∀ lo hi limit, ∃ es, w.entries computeSize lo hi (some limit) = .ok es ∧
      es <+: log.slice lo hi ∧ (log.slice lo hi ≠ [] → es ≠ [])
  entriesEmpty : log.entries = [] →
    ∀ lo hi limit, w.entries computeSize lo hi limit = .error .unavailable
  /-- Compaction succeeds and does not remove the last entry. -/
  compact : ∀ stop, (compact stop w).result = .ok () ∧ (compact stop w).state.lastEntry = w.lastEntry
  /-- An append succeeds, or is refused as a whole. -/
  append : ∀ full es, InDomain w (.appendEntries full es) →
    (¬ log.Refuses es ∧ (appendEntries full es w).result = .ok ()) ∨
      log.Refuses es ∧ (appendEntries full es w).state = w ∧ ∃ e, es.head? = some e ∧
        (appendEntries full es w).result = .error (logicallyCompacted e.index log.compacted)
  /-- The WAL can be opened again. -/
  reopen : ∃ w', new w.wal = .ok w'

namespace Represents

variable {full : RaftEntry → Bool} {es : List RaftEntry}

section

variable (h : w.Represents log n) (hdom : InDomain w (.appendEntries full es))

include h hdom

/-- In the domain, entries can be written to the log. -/
theorem appendable {e : RaftEntry} (he : es.head? = some e) :
    SequentialFrom e.index es ∧ log.Appendable e.index := by
  obtain ⟨hpos, hseq, hfirst, hlast⟩ := hdom e he
  refine ⟨hseq, hpos, fun hne => .inl ?_, fun hne => ?_⟩
  · obtain ⟨e', he', hindex⟩ := h.wellFormed.head?_entries hne
    have hlt := hfirst e' (by rw [h.firstEntry_eq, he'])
    omega
  · obtain ⟨e', he', hindex⟩ := h.wellFormed.exists_getLast? hne
    have hle := hlast e' (by rw [h.lastEntry_eq, he'])
    omega

theorem append_spec : ∃ start, wp (ConsensusOpWal.appendEntries full es)
      (fun _ w' => ¬ log.Refuses es ∧ w'.Represents (log.append es) n)
      (fun err w' => w' = w ∧ log.Refuses es ∧ err = logicallyCompacted start log.compacted)
      (fun w' => Left w start (log.Interrupted es) w'.wal) w ∧
      ∀ e, es.head? = some e → start = e.index := by
  cases hes : es with
  | nil =>
    have hseq : SequentialFrom 0 [] := trivial
    exact ⟨0, h.appendEntries hseq (fun hne => absurd rfl hne) full, by simp⟩
  | cons e rest =>
    obtain ⟨hseq, happ⟩ := h.appendable hdom (e := e) (by rw [hes]; rfl)
    subst hes
    refine ⟨e.index, h.appendEntries hseq (fun _ => happ) full, ?_⟩
    rintro e' ⟨⟩
    rfl

end

/-- What the WAL answers follows from what it represents. -/
theorem shows (h : w.Represents log n) (computeSize : RaftEntry → Nat) :
    w.Shows computeSize log where
  wellFormed := h.wellFormed
  firstEntry := h.firstEntry_eq
  lastEntry := h.lastEntry_eq
  entry := h.entry_eq
  entries hne := h.entries_unlimited (fun hnil => hne (by rw [RaftLog.entries, hnil, List.drop_nil]))
    computeSize
  entriesLimited hne := h.entries_limited
    (fun hnil => hne (by rw [RaftLog.entries, hnil, List.drop_nil])) computeSize
  entriesEmpty hempty := h.entries_nil
    (Decidable.by_contra fun hne => h.wellFormed.entries_ne hne hempty) computeSize
  compact stop := by
    have hwp := h.compact stop
    cases hr : (ConsensusOpWal.compact stop w).result with
    | error e => exact absurd (wp_error hwp hr) not_false
    | ok _ =>
      obtain ⟨n', hrep⟩ := wp_ok hwp hr
      refine ⟨rfl, ?_⟩
      rw [hrep.lastEntry_eq, h.lastEntry_eq, hrep.wellFormed.getLast?_entries,
        h.wellFormed.getLast?_entries, RaftLog.written_compact]
  append full es hdom := by
    obtain ⟨start, hwp, hstart⟩ := h.append_spec hdom
    cases hr : (ConsensusOpWal.appendEntries full es w).result with
    | ok _ => exact .inl ⟨(wp_ok hwp hr).1, rfl⟩
    | error err =>
      obtain ⟨hsame, hrefuses, rfl⟩ := wp_error hwp hr
      obtain ⟨e, he, _⟩ := hrefuses.2
      exact .inr ⟨hrefuses, hsame, e, he, by rw [hstart e he]⟩
  reopen := ⟨_, new_of_contiguous h.contiguous⟩

/-- The WAL represents what a call makes of the log. -/
def After (log : RaftLog) (c : Call) (w' : ConsensusOpWal) : Prop :=
  ∃ log' n', RaftLog.Step log c log' ∧ w'.Represents log' n'

/-- One call on the WAL is a step of the log. -/
theorem step (h : w.Represents log n) {c : Call} (hdom : InDomain w c) {w' : ConsensusOpWal}
    (hstep : step w c = some w') : After log c w' := by
  cases c with
  | appendEntries full es =>
    cases hstep
    obtain ⟨start, hwp, _⟩ := h.append_spec hdom
    apply wp_state (P := After log _)
    apply wp_mono hwp
    · rintro _ w' ⟨hok, hrep⟩
      exact ⟨_, n, .append hok, hrep⟩
    · rintro _ w' ⟨rfl, hrefuses, _⟩
      exact ⟨log, n, .refused hrefuses, h⟩
    · exact fun _ hC => hC
  | compact stop =>
    cases hstep
    apply wp_state (P := After log _)
    apply wp_total (h.compact stop)
    · rintro _ w' ⟨n', hrep⟩
      exact ⟨_, n', .compact, hrep⟩
    · exact fun _ hC => hC
  | clear =>
    cases hstep
    apply wp_state (P := After log _)
    apply wp_total h.clear
    · exact fun _ w' hrep => ⟨_, 0, .clear, hrep⟩
    · exact fun _ hC => hC
  | reopen =>
    obtain ⟨w'', log', hw'', ⟨retained, rfl, hle, hfirst⟩, hrep⟩ := h.reopen
    rw [ConsensusOpWal.step, hw''] at hstep
    cases hstep
    exact ⟨_, n, .reopen hle hfirst, hrep⟩

end Represents

/-- Over every run of appends, compactions, clears and reopenings, the WAL shows the Raft log
that these calls give. -/
theorem refines_raftLog (computeSize : RaftEntry → Nat) {calls : List Call} {w : ConsensusOpWal}
    (hdom : Run.Guarded step InDomain create calls)
    (hrun : Run.run step create calls = some w) :
    ∃ log, RaftLog.Reaches .empty calls log ∧ w.Shows computeSize log := by
  suffices hreach : ∀ {w₀ log₀ n₀}, w₀.Represents log₀ n₀ →
      Run.Guarded step InDomain w₀ calls →
      Run.run step w₀ calls = some w →
      ∃ log n, RaftLog.Reaches log₀ calls log ∧ w.Represents log n by
    obtain ⟨log, n, hreaches, hrep⟩ := hreach represents_create hdom hrun
    exact ⟨log, hreaches, hrep.shows computeSize⟩
  clear hdom hrun
  induction calls with
  | nil =>
    intro w₀ log₀ n₀ h _ hrun
    cases hrun
    exact ⟨log₀, n₀, .nil, h⟩
  | cons c cs ih =>
    intro w₀ log₀ n₀ h hdom hrun
    obtain ⟨w₁, hw₁, hrest⟩ := Run.run_cons_eq_some.mp hrun
    obtain ⟨hc, hcs⟩ := hdom
    rw [hw₁] at hcs
    obtain ⟨log₁, n₁, hstep, hrep⟩ := h.step hc hw₁
    obtain ⟨log, n, hreaches, hfinal⟩ := ih hrep hcs hrest
    exact ⟨log, n, .cons hstep hreaches, hfinal⟩

def normalEntry (term index : Nat) : RaftEntry := ⟨.entryNormal, term, index, []⟩

/-- Three entries in three segments, of which the last one is overwritten; then all but the
last entry are compacted, and the WAL is opened again. -/
def overwriteAndCompact : List Call :=
  [.appendEntries (fun _ => true) [normalEntry 1 1, normalEntry 1 2, normalEntry 1 3],
    .appendEntries (fun _ => true) [normalEntry 2 3, normalEntry 2 4], .compact 4, .reopen]

/-- One entry that was compacted is back. -/
theorem refines_raftLog_overwritten :
    ∃ w log, Run.run step create overwriteAndCompact = some w ∧
      RaftLog.Reaches .empty overwriteAndCompact log ∧ w.Shows (fun _ => 0) log ∧
      w.entries (fun _ => 0) 1 10 none = .ok [normalEntry 2 3, normalEntry 2 4] := by
  have hdom : Run.Guarded step InDomain create overwriteAndCompact := by
    refine ⟨?_, ?_, trivial, trivial, trivial⟩
    · rintro e ⟨⟩
      refine ⟨by decide, by decide, ?_, ?_⟩
      · rintro first ⟨⟩
      · rintro last ⟨⟩
    · rintro e ⟨⟩
      refine ⟨by decide, by decide, ?_, ?_⟩
      · rintro first ⟨⟩
        decide
      · rintro last ⟨⟩
        decide
  obtain ⟨log, hreaches, hshows⟩ := refines_raftLog (fun _ => 0) hdom rfl
  exact ⟨_, log, rfl, hreaches, hshows, by decide⟩

/-! ## Appending to compacted history

`append_entries` converts the Raft index of a new entry to a WAL index and refuses the entry if
there is none. After a compaction the WAL does not start at index 0, so an entry below its
first one can still have a WAL index. It is refused then only if the compaction point, which a
restart forgets, says so (`appendEntries_refused_iff`). Otherwise `Wal::truncate` removes the
whole log.
-/

/-! ## Reachable states -/

/-- The program of a call. -/
def Call.program : Call → Prog ConsensusOpWal StorageError Unit
  | .appendEntries full newEntries => ConsensusOpWal.appendEntries full newEntries
  | .compact untilRaftIndex => ConsensusOpWal.compact untilRaftIndex
  | .clear => ConsensusOpWal.clear
  | .reopen => do
    let w ← .get
    let w ← .ofExcept (new w.wal)
    .modify fun _ => w

/-- States after any calls on a new WAL, with crashes inside of them after which it can be opened. -/
inductive Reachable : ConsensusOpWal → Prop
  | create : Reachable create
  | call {w : ConsensusOpWal} (h : Reachable w) (c : Call) : Reachable (c.program w).state
  | crash {w w' t : ConsensusOpWal} (h : Reachable w) (c : Call)
      (ht : t ∈ (c.program w).interrupted) (hopen : new t.wal = .ok w') : Reachable w'

/-- A property of segments without gap that appends keep, whatever they truncate first. -/
structure Kept (P : SegmentList (List RaftEntry) → Prop) : Prop where
  contiguous : ∀ wal, P wal → wal.Contiguous
  truncate : ∀ wal start, P wal → ∃ wal', wal.truncate start = .ok wal' ∧ P wal'
  append : ∀ wal full e, P wal → P (wal.append full e).1

theorem kept_contiguous : Kept Contiguous where
  contiguous _ h := h
  truncate wal start h := by
    rcases Nat.lt_or_ge wal.firstIndex start with hlt | hge
    · obtain ⟨wal', htruncate, hc, -⟩ := h.truncate_eq hlt
      exact ⟨wal', htruncate, hc⟩
    · exact ⟨_, h.truncate_first hge, trivial⟩
  append _ full e h := (h.append full e).1

theorem kept_from_zero : Kept fun wal => wal.Contiguous ∧ wal.firstIndex = 0 where
  contiguous _ h := h.1
  truncate wal start := by
    rintro ⟨hc, hzero⟩
    rcases Nat.lt_or_ge wal.firstIndex start with hlt | hge
    · obtain ⟨wal', htruncate, hc', hlog⟩ := hc.truncate_eq hlt
      exact ⟨wal', htruncate, hc', (congrArg IndexedLog.first hlog).trans hzero⟩
    · exact ⟨_, hc.truncate_first hge, trivial, rfl⟩
  append _ full e := by
    rintro ⟨hc, hzero⟩
    obtain ⟨hc', hlog, -⟩ := hc.append full e
    exact ⟨hc', (congrArg IndexedLog.first hlog).trans hzero⟩

section

variable {P : SegmentList (List RaftEntry) → Prop} {w : ConsensusOpWal}

/-- The segments of the WAL have the property. If a crash comes, at least none of them is empty. -/
def Keeps {α : Type} (P : SegmentList (List RaftEntry) → Prop) (x : Prog ConsensusOpWal StorageError α)
    (w : ConsensusOpWal) : Prop :=
  wp x (fun _ w' => P w'.wal) (fun _ w' => P w'.wal)
    (fun w' => ∀ s ∈ w'.wal.closedSegments, s.segment ≠ []) w

theorem keeps_bind {α β : Type} {x : Prog ConsensusOpWal StorageError α}
    {f : α → Prog ConsensusOpWal StorageError β} (hx : Keeps P x w)
    (hf : ∀ a w', P w'.wal → Keeps P (f a) w') : Keeps P (x >>= f) w := by
  apply wp_seq hx
  exact hf

theorem keeps_ofExcept {α : Type} (h : P w.wal) (v : Except StorageError α) : Keeps P (.ofExcept v) w := by
  cases v with
  | ok a => exact (wp_ofExcept_ok rfl).mpr h
  | error e => exact (wp_of_error rfl).mpr h

section

variable (hP : Kept P) (h : P w.wal)

include hP h

theorem keeps_walTruncate (start : Nat) : Keeps P (onSegments (truncateFiles start)) w := by
  obtain ⟨wal', htruncate, h'⟩ := hP.truncate w.wal start h
  exact wp_walTruncate htruncate h' fun t ht => (hP.contiguous _ h).torn_ne_nil ht

theorem keeps_truncateConflicting (e : RaftEntry) (offset : Option IndexOffset) :
    Keeps P (truncateConflicting e offset) w := by
  cases offset with
  | none => exact (wp_pure _).mpr h
  | some offset =>
    apply wp_get_bind
    cases offset.tryRaftToWal e.index with
    | none => exact (wp_throw _).mpr h
    | some walIndex =>
      dsimp only
      split
      · exact (wp_throw _).mpr h
      split
      · exact keeps_walTruncate hP h walIndex
      · exact (wp_pure _).mpr h

/-- The part of `appendEntry` that follows the truncation. -/
theorem keeps_insert (full : Bool) (offset : Option IndexOffset) (e : RaftEntry) : Keeps P (do
      let newEntryWalIndex ← onSegments (appendFiles full e)
      .ofExcept (assertInserted offset e newEntryWalIndex)
      updateOffset offset) w := by
  have happend : Keeps P (onSegments (appendFiles full e)) w :=
    wp_walAppend (hP.contiguous _ h) (hP.append _ _ _ h) fun t hc _ => (contiguous_iff.mpr hc).2
  apply keeps_bind happend
  intro _ w₁ h₁
  apply keeps_bind (keeps_ofExcept h₁ _)
  intro _ w₂ h₂
  cases offset with
  | some offset => exact (wp_pure _).mpr h₂
  | none =>
    apply wp_get_bind
    exact keeps_ofExcept h₂ _

section

variable (full : RaftEntry → Bool) (offset : Option IndexOffset)

theorem keeps_appendEntry (e : RaftEntry) : Keeps P (appendEntry full offset e) w := by
  apply wp_get_bind
  split
  · exact (wp_throw _).mpr h
  · apply keeps_bind (keeps_truncateConflicting hP h e offset)
    intro _ w₁ h₁
    exact keeps_insert hP h₁ _ offset e

theorem keeps_appendAll (es : List RaftEntry) : Keeps P (es.foldlM (appendEntry full) offset) w :=
  wp_foldlM (fun _ _ (w' : ConsensusOpWal) => P w'.wal)
    (fun e _ offset _ h => keeps_appendEntry hP h full offset e) es h

end

theorem keeps_appendEntries (full : RaftEntry → Bool) (es : List RaftEntry) :
    Keeps P (appendEntries full es) w := by
  unfold appendEntries
  split
  · exact (wp_pure _).mpr h
  · apply wp_get_bind
    apply keeps_bind (keeps_ofExcept h _)
    intro offset w₁ h₁
    apply keeps_bind (keeps_appendAll hP h₁ full offset es)
    intro _ w₂ h₂
    exact (wp_pure _).mpr h₂

end

end

variable {w : ConsensusOpWal}

theorem keeps_walPrefixTruncate (h : w.wal.Contiguous) (stop : Nat) :
    Keeps Contiguous (onSegments (prefixTruncateFiles retainClosed stop)) w := by
  obtain ⟨wal, -, htruncate, hc, -⟩ := h.exists_prefixTruncate retainClosed stop
  apply wp_walPrefixTruncate htruncate hc
  rintro t ⟨rest, hrest, -, rfl⟩ s hs
  exact (contiguous_iff.mpr h).2 s (hrest.subset hs)

theorem keeps_program (h : w.wal.Contiguous) (c : Call) : Keeps Contiguous c.program w := by
  cases c with
  | appendEntries full es => exact keeps_appendEntries kept_contiguous h full es
  | reopen =>
    apply wp_get_bind
    apply wp_bind.mpr
    apply (wp_ofExcept_ok (new_of_contiguous h)).mpr
    exact (wp_modify _).mpr h
  | clear => exact wp_clear h trivial fun t ht => h.torn_ne_nil ht
  | compact stop =>
    apply wp_get_bind
    apply keeps_bind (keeps_ofExcept h _)
    intro offset w₁ h₁
    cases offset with
    | none => exact (wp_pure _).mpr h₁
    | some offset =>
      dsimp only
      split
      · exact (wp_pure _).mpr h₁
      cases offset.tryRaftToWal stop with
      | none => exact (wp_modify _).mpr h₁
      | some stop =>
        apply wp_bind.mpr
        apply (wp_modify _).mpr
        apply keeps_walPrefixTruncate
        exact h₁

/-- In a reachable state the segments follow each other. -/
theorem Reachable.contiguous (h : Reachable w) : w.wal.Contiguous := by
  induction h with
  | create => trivial
  | call _ c ih => exact wp_state (keeps_program ih c)
  | @crash w w' t _ c ht hopen ih =>
    have hkeeps : Keeps Contiguous c.program w := keeps_program ih c
    have hne : ∀ s ∈ t.wal.closedSegments, s.segment ≠ [] := wp_interrupted (x := c.program) hkeeps ht
    obtain ⟨hc, rfl⟩ := contiguous_of_new hopen hne
    exact hc

/-! ## Appending below the first entry -/

/-- The call returns an error and leaves the WAL as it was. -/
def Refused (full : RaftEntry → Bool) (es : List RaftEntry) (w : ConsensusOpWal) : Prop :=
  (∃ e, (appendEntries full es w).result = .error e) ∧ (appendEntries full es w).state = w

/-- The first entry of the WAL as it is stored, compacted or not. -/
def firstPhysicalEntry (w : ConsensusOpWal) : Except StorageError (Option RaftEntry) :=
  w.entryByWalIndexImpl w.wal.firstIndex

section

variable {w : ConsensusOpWal} {first e : RaftEntry} {es rest : List RaftEntry} {full : RaftEntry → Bool}

theorem refused_of_wp (h : wp (appendEntries full es) (fun _ _ => False) (fun _ w' => w' = w) (fun _ => True) w) :
    w.Refused full es := by
  obtain ⟨-, h⟩ := h
  unfold Refused
  cases hresult : (appendEntries full es w).result with
  | ok a =>
    rw [hresult] at h
    exact h.elim
  | error err =>
    rw [hresult] at h
    exact ⟨⟨err, rfl⟩, h⟩

/-- The index of the first entry is above its WAL index, which gives the offset. -/
theorem indexOffsetImpl_of_firstPhysicalEntry (h : w.firstPhysicalEntry = .ok (some first)) :
    w.wal.firstIndex < first.index ∧
      w.indexOffsetImpl = .ok (some (.new w.wal.firstIndex first)) := by
  have hoffset : w.indexOffsetImpl = .ok (some (.new w.wal.firstIndex first)) := by
    unfold firstPhysicalEntry at h
    rw [indexOffsetImpl, h]
    rfl
  refine ⟨?_, hoffset⟩
  unfold firstPhysicalEntry entryByWalIndexImpl at h
  split at h
  next => cases h
  next => cases h
  next =>
    split at h
    next hlt =>
      cases h
      exact hlt
    next => cases h

/-- An entry whose WAL index is below the first one clears the WAL, which starts at index 0 from
then on. -/
theorem wp_appendEntries_below {offset : IndexOffset} {walIndex : Nat} (h : w.wal.Contiguous)
    (hoffset : w.indexOffsetImpl = .ok (some offset)) (hcompacted : ¬ e.index < w.compactedUntilRaftIndex)
    (hconvert : offset.tryRaftToWal e.index = some walIndex) (hbelow : walIndex ≤ w.wal.firstIndex) :
    wp (appendEntries full (e :: rest)) (fun _ w' => w'.wal.Contiguous ∧ w'.wal.firstIndex = 0)
      (fun _ w' => w'.wal.Contiguous ∧ w'.wal.firstIndex = 0) (fun _ => True) w := by
  have hnext : walIndex < w.wal.lastIndex + 1 := by
    rw [h.lastIndex_eq]
    have hlog : w.wal.log.first = w.wal.firstIndex := rfl
    omega
  apply wp_appendEntries_cons hoffset
  apply wp_get_bind
  rw [if_neg hcompacted]
  apply wp_bind.mpr
  apply wp_get_bind
  rw [hconvert]
  dsimp only
  rw [if_neg (by omega), if_pos hnext]
  apply wp_walTruncate (h.truncate_first hbelow) _ fun _ _ => trivial
  have hempty : (SegmentList.mk [] []).Contiguous (R := RaftEntry) ∧
      (SegmentList.mk [] ([] : List RaftEntry)).firstIndex = 0 := ⟨trivial, rfl⟩
  apply wp_mono (keeps_insert (w := { w with wal := ⟨[], []⟩ }) kept_from_zero hempty _ _ _)
  · intro offset' w₁ h₁
    apply wp_mono (keeps_appendAll kept_from_zero h₁ full offset' rest)
    · exact fun _ _ h₂ => h₂
    · exact fun _ _ h₂ => h₂
    · exact fun _ _ => trivial
  · exact fun _ _ h₁ => h₁
  · exact fun _ _ => trivial

/-- An entry below the first one is refused exactly if it is below the compaction point or has no
WAL index. -/
theorem appendEntries_refused_iff (h : Reachable w) (hfirst : w.firstPhysicalEntry = .ok (some first))
    (hhead : es.head? = some e) (hbelow : e.index < first.index) (full : RaftEntry → Bool) :
    w.Refused full es ↔
      e.index < w.compactedUntilRaftIndex ∨ e.index < first.index - w.wal.firstIndex := by
  obtain ⟨hlt, hoffset⟩ := indexOffsetImpl_of_firstPhysicalEntry hfirst
  obtain ⟨rest, rfl⟩ : ∃ rest, es = e :: rest := by
    cases es with
    | nil => cases hhead
    | cons e' rest =>
      cases hhead
      exact ⟨rest, rfl⟩
  constructor
  · rintro ⟨-, hstate⟩
    by_contra hnot
    obtain ⟨hcompacted, hwal⟩ := not_or.mp hnot
    have hconvert : (IndexOffset.new w.wal.firstIndex first).tryRaftToWal e.index =
        some (e.index - (first.index - w.wal.firstIndex)) := if_neg hwal
    have hwp : wp (appendEntries full (e :: rest)) _ _ _ w :=
      wp_appendEntries_below h.contiguous hoffset hcompacted hconvert (by omega)
    have hfinal := wp_state hwp
    rw [hstate] at hfinal
    omega
  · intro hrefused
    apply refused_of_wp
    apply wp_appendEntries_cons hoffset
    apply wp_get_bind
    split
    next => exact (wp_throw _).mpr rfl
    next hcompacted =>
      have hconvert : (IndexOffset.new w.wal.firstIndex first).tryRaftToWal e.index = none :=
        if_pos (hrefused.resolve_left hcompacted)
      apply wp_bind.mpr
      apply wp_get_bind
      rw [hconvert]
      exact (wp_throw _).mpr rfl

end

/-- Three entries in three segments of which the first two are compacted. -/
def compactTwo : List Call :=
  [.appendEntries (fun _ => true) [normalEntry 1 1, normalEntry 1 2, normalEntry 1 3], .compact 3]

theorem reachable_of_run {w' : ConsensusOpWal} {calls : List Call} (h : Reachable w)
    (hrun : Run.run ConsensusOpWal.step w calls = some w') : Reachable w' := by
  induction calls generalizing w with
  | nil =>
    cases hrun
    exact h
  | cons c calls ih =>
    obtain ⟨t, ht, hrest⟩ := Run.run_cons_eq_some.mp hrun
    refine ih ?_ hrest
    have hcall := h.call c
    cases c with
    | appendEntries full es | compact stop | clear =>
      cases ht
      exact hcall
    | reopen =>
      have hnew := new_of_contiguous h.contiguous
      have hstate : (Call.reopen.program w).state = ⟨w.wal, 0⟩ := by
        simp [Call.program, Bind.bind, Prog.bind, Prog.get, Prog.ofExcept, Prog.modify, hnew]
      rw [step, hnew] at ht
      cases ht
      rwa [hstate] at hcall

/-- As long as the compaction point is known, an entry below it is refused. -/
theorem appendEntries_refused_compactTwo :
    ∃ w, Run.run ConsensusOpWal.step create compactTwo = some w ∧
      w.Refused (fun _ => true) [normalEntry 2 1] := by
  obtain ⟨w, hrun, hfirst, hcompacted⟩ : ∃ w, Run.run ConsensusOpWal.step create compactTwo = some w ∧
      w.firstPhysicalEntry = .ok (some (normalEntry 1 2)) ∧ w.compactedUntilRaftIndex = 3 :=
    ⟨_, rfl, rfl, rfl⟩
  refine ⟨w, hrun, ?_⟩
  refine (appendEntries_refused_iff (reachable_of_run .create hrun) hfirst rfl (by decide) _).mpr (.inl ?_)
  rw [hcompacted]
  decide

/-- After a restart the same entry is accepted, and everything that was stored is gone. -/
theorem appendEntries_clears_log :
    ∃ w, Run.run ConsensusOpWal.step create (compactTwo ++ [.reopen]) = some w ∧
      w.firstPhysicalEntry = .ok (some (normalEntry 1 2)) ∧
      (appendEntries (fun _ => true) [normalEntry 2 1] w).result = .ok () ∧
      (appendEntries (fun _ => true) [normalEntry 2 1] w).state.wal.log = ⟨0, [normalEntry 2 1]⟩ :=
  ⟨_, rfl, rfl, rfl, rfl⟩

end ConsensusOpWal

end Qdrant.Consensus
