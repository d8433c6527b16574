-- SUMMARY: The file with the last applied operation number, and the bound that a restart derives from it.
import Qdrant.Base.Run
import Qdrant.Wal.LoadFromWal

/-!
# The applied sequence number

The update worker keeps the number of the last operation it applied and writes it to a
file once in a while (`lib/collection/src/update_workers/applied_seq.rs`). After a
restart the number in the file, plus the interval at which it is written, is taken as a
bound of what had been applied.

The system here is a shard with its WAL, its update worker and the file. A run can be
cut off at any point: what is in memory is lost, and `load_from_wal` starts again from
the file and the WAL. The bound is right as long as no more operations than the interval
are handled between two saves, and failures and replays count as well.
-/

namespace Qdrant

open List

def appliedSeqSaveInterval : Nat := 64

/-- The file on disk. A file that cannot be parsed may also fail to be removed. -/
inductive AppliedSeqFile where
  | absent
  | saved (opNum : Nat)
  | malformed (removable : Bool)
deriving DecidableEq

/-- `active` is false if there is no usable file. -/
structure AppliedSeqHandler where
  active : Bool
  opNum : Nat
  updateCount : Nat
deriving DecidableEq

namespace AppliedSeqHandler

def opNumUpperBound (handler : AppliedSeqHandler) : Option Nat :=
  if handler.active then some (handler.opNum + appliedSeqSaveInterval + 1) else none

/-- Without a file the last number in the WAL is taken; nothing is written yet. -/
def loadOrInit (file : AppliedSeqFile) (walLastIndex : Nat) : AppliedSeqHandler :=
  match file with
  | .absent => { active := true, opNum := walLastIndex, updateCount := 0 }
  | .saved opNum => { active := true, opNum, updateCount := 0 }
  | .malformed removable => { active := removable, opNum := walLastIndex, updateCount := 0 }

/-- The file that `load_or_init` leaves behind. -/
def fileAfterLoad : AppliedSeqFile → AppliedSeqFile
  | .malformed true => .absent
  | file => file

/-- The first update is never written, then one in every interval. -/
def update (opNum : Nat) (handler : AppliedSeqHandler) (file : AppliedSeqFile) :
    AppliedSeqHandler × AppliedSeqFile :=
  let handler' := { handler with opNum, updateCount := handler.updateCount + 1 }
  if handler.updateCount = 0 then (handler', file)
  else if handler.updateCount % appliedSeqSaveInterval = 0 ∧ handler.active then
    (handler', .saved opNum)
  else (handler', file)

end AppliedSeqHandler

/-! ## The system -/

/-- `firstIndex` is the first record that is not acknowledged, `nextIndex` the number of the next
record. `applied` lists what was applied to the segments, `pending` is an operation that was
applied but not recorded yet. -/
structure UpdateRun where
  firstIndex : Nat
  nextIndex : Nat
  queueSize : Nat
  file : AppliedSeqFile
  handler : AppliedSeqHandler
  replaying : List Nat
  queue : List Nat
  pending : Option Nat
  applied : List Nat
  /-- Operations behind the saved one that were handled since the save, whether they succeeded or not.
  No step depends on it. -/
  sinceSave : Nat
deriving DecidableEq

inductive UpdateStep where
  /-- An operation is written to the WAL and sent to the worker. -/
  | write
  /-- Records below a number are acknowledged. -/
  | ack (untilIndex : Nat)
  /-- Recovery applies the next record. -/
  | replay (succeeds : Bool)
  /-- The worker takes the next operation from its queue and applies it. -/
  | process (succeeds : Bool)
  /-- The worker records the operation it applied. -/
  | record
  /-- The process dies and the shard is loaded again. -/
  | restart
deriving DecidableEq

namespace UpdateRun

def lastIndex (s : UpdateRun) : Nat :=
  s.nextIndex - 1

/-- The operations behind the saved one. -/
def isBehindSaved (s : UpdateRun) (opNum : Nat) : Bool :=
  match s.file with
  | .saved saved => saved < opNum
  | _ => true

/-- Operations that were acknowledged are not replayed. -/
def ackedSinceSave (s : UpdateRun) : Nat :=
  match s.file with
  | .saved saved => s.firstIndex - (saved + 1)
  | _ => 0

/-- The numbers that are handled next, up to one that has no record yet. -/
def upcoming (s : UpdateRun) : List Nat :=
  s.replaying ++ (s.queue ++ [s.nextIndex])

/-- The handler after a restart. -/
def reloaded (s : UpdateRun) : AppliedSeqHandler :=
  AppliedSeqHandler.loadOrInit s.file s.lastIndex

def replayTarget (s : UpdateRun) : Nat :=
  Qdrant.replayTarget s.nextIndex s.reloaded.opNumUpperBound s.queueSize

def step (s : UpdateRun) : UpdateStep → Option UpdateRun
  | .write =>
    if s.replaying = [] then
      some { s with nextIndex := s.nextIndex + 1, queue := s.queue ++ [s.nextIndex] }
    else none
  | .ack untilIndex =>
    if untilIndex ≤ s.nextIndex then some { s with firstIndex := max s.firstIndex untilIndex }
    else none
  | .replay succeeds =>
    match s.replaying with
    | [] => none
    | opNum :: rest =>
      some { s with
        replaying := rest
        applied := if succeeds then opNum :: s.applied else s.applied
        sinceSave := if s.isBehindSaved opNum then s.sinceSave + 1 else s.sinceSave }
  | .process succeeds =>
    match s.replaying, s.pending, s.queue with
    | [], none, opNum :: rest =>
      -- a number without a record is skipped
      if succeeds ∧ opNum < s.nextIndex then
        some { s with
          queue := rest
          pending := some opNum
          applied := opNum :: s.applied
          sinceSave := s.sinceSave + 1 }
      else some { s with queue := rest, sinceSave := s.sinceSave + 1 }
    | _, _, _ => none
  | .record =>
    match s.pending with
    | some opNum =>
      let (handler, file) := s.handler.update opNum s.file
      some { s with
        handler
        file
        pending := none
        sinceSave := if file = .saved opNum then 0 else s.sinceSave }
    | none => none
  | .restart =>
    some { s with
      handler := s.reloaded
      file := AppliedSeqHandler.fileAfterLoad s.file
      replaying := List.range' s.firstIndex (s.replayTarget - s.firstIndex)
      queue :=
        if s.replayTarget < s.nextIndex then
          List.range' s.replayTarget (s.nextIndex + 1 - s.replayTarget)
        else []
      pending := none
      sinceSave := s.ackedSinceSave }

/-- A new shard, after its first start. -/
def initial (queueSize : Nat) : UpdateRun where
  firstIndex := 0
  nextIndex := 0
  queueSize := queueSize
  file := .absent
  handler := AppliedSeqHandler.loadOrInit .absent 0
  replaying := []
  queue := []
  pending := none
  applied := []
  sinceSave := 0

/-- A restart now would find a bound above everything that was applied. -/
def Bounded (s : UpdateRun) : Prop :=
  ∀ opNum ∈ s.applied, ∀ bound ∈ s.reloaded.opNumUpperBound, opNum < bound

/-- An operation behind the saved one is only applied if fewer operations than the save interval were
handled since the save. -/
def WithinInterval (s : UpdateRun) : UpdateStep → Prop
  | .replay true => ∀ opNum ∈ s.replaying.head?, s.file ≠ .absent → s.isBehindSaved opNum = true →
      s.sinceSave < appliedSeqSaveInterval
  | .process true => s.file ≠ .absent → s.sinceSave < appliedSeqSaveInterval
  | _ => True

instance (s : UpdateRun) : DecidablePred s.WithinInterval
  | .replay true => inferInstanceAs (Decidable (∀ opNum ∈ s.replaying.head?, s.file ≠ .absent →
      s.isBehindSaved opNum = true → s.sinceSave < appliedSeqSaveInterval))
  | .process true => inferInstanceAs (Decidable (s.file ≠ .absent → s.sinceSave < appliedSeqSaveInterval))
  | .replay false | .process false | .write | .ack _ | .record | .restart => .isTrue trivial

/-! ## The bound -/

/-- What was applied is in the WAL and within the save interval of the file; what is queued comes
after it. -/
structure Consistent (s : UpdateRun) : Prop where
  applied_lt : ∀ n ∈ s.applied, n < s.nextIndex
  applied_saved : ∀ saved, s.file = .saved saved → ∀ n ∈ s.applied,
    n ≤ saved + appliedSeqSaveInterval
  applied_queue : ∀ n ∈ s.applied, ∀ q ∈ s.queue, n ≤ q
  applied_pending : ∀ c ∈ s.pending, ∀ n ∈ s.applied, n ≤ c
  replaying_lt : ∀ r ∈ s.replaying, r < s.nextIndex
  replaying_queue : ∀ r ∈ s.replaying, ∀ q ∈ s.queue, r ≤ q
  replaying_pending : s.replaying ≠ [] → s.pending = none
  queue_sorted : s.queue.Pairwise (· ≤ ·)
  queue_le : ∀ q ∈ s.queue, q ≤ s.nextIndex

/-- No number is left out of what is handled: the next one is behind what was counted since the
save, and behind the one that is to be recorded. -/
structure Steady (s : UpdateRun) : Prop where
  chain : s.upcoming.IsChain fun a b => b ≤ a + 1
  saved : ∀ saved, s.file = .saved saved → ∀ b ∈ s.upcoming.head?, b ≤ saved + s.sinceSave + 1
  pending : ∀ c ∈ s.pending, ∀ b ∈ s.upcoming.head?, b ≤ c + 1

variable {s s' : UpdateRun} {label : UpdateStep}

theorem Consistent.bounded (h : s.Consistent) : s.Bounded := by
  intro n hn bound hbound
  have hlt := h.applied_lt n hn
  unfold reloaded lastIndex AppliedSeqHandler.opNumUpperBound AppliedSeqHandler.loadOrInit at hbound
  cases hfile : s.file with
  | absent =>
    simp only [hfile, if_true, Option.mem_some_iff] at hbound
    omega
  | saved opNum =>
    have hle := h.applied_saved opNum hfile n hn
    simp only [hfile, if_true, Option.mem_some_iff] at hbound
    omega
  | malformed removable =>
    cases removable with
    | true =>
      simp only [hfile, if_true, Option.mem_some_iff] at hbound
      omega
    | false => simp [hfile] at hbound

/-- Records that are left to the queue are above the bound. -/
theorem Consistent.lt_replayTarget (h : s.Consistent) (htarget : s.replayTarget < s.nextIndex) :
    ∀ n ∈ s.applied, n < s.replayTarget := by
  intro n hn
  unfold replayTarget Qdrant.replayTarget at htarget ⊢
  cases hbound : s.reloaded.opNumUpperBound with
  | none =>
    simp only [hbound, Option.getD_none] at htarget
    omega
  | some bound =>
    have hlt := h.bounded n hn bound hbound
    simp only [hbound, Option.getD_some] at htarget ⊢
    omega

theorem Consistent.write (h : s.Consistent) (hreplaying : s.replaying = []) :
    Consistent { s with nextIndex := s.nextIndex + 1, queue := s.queue ++ [s.nextIndex] } := by
  refine ⟨fun n hn => Nat.lt_succ_of_lt (h.applied_lt n hn), h.applied_saved, fun n hn q hq => ?_,
    h.applied_pending, fun r hr => Nat.lt_succ_of_lt (h.replaying_lt r hr), fun r hr => ?_,
    h.replaying_pending, ?_, fun q hq => ?_⟩
  · cases mem_append.mp hq with
    | inl hold => exact h.applied_queue n hn q hold
    | inr hnew =>
      rw [mem_singleton.mp hnew]
      exact (h.applied_lt n hn).le
  · rw [hreplaying] at hr
    cases hr
  · apply pairwise_append.mpr
    refine ⟨h.queue_sorted, pairwise_singleton _ _, fun q hq q' hq' => ?_⟩
    rw [mem_singleton.mp hq']
    exact h.queue_le q hq
  · cases mem_append.mp hq with
    | inl hold => exact Nat.le_succ_of_le (h.queue_le q hold)
    | inr hnew =>
      rw [mem_singleton.mp hnew]
      exact Nat.le_succ _

variable {opNum : Nat} {rest : List Nat}

/-- Recovery applies a record, or skips it. -/
theorem Consistent.replay (h : s.Consistent)
    (hreplaying : s.replaying = opNum :: rest) {succeeds : Bool}
    (hwithin : succeeds = true → ∀ saved, s.file = .saved saved →
      opNum ≤ saved + appliedSeqSaveInterval) :
    Consistent { s with
      replaying := rest
      applied := if succeeds then opNum :: s.applied else s.applied } := by
  have hpending : s.pending = none := h.replaying_pending (by simp [hreplaying])
  have hmem : ∀ r ∈ rest, r ∈ s.replaying := by
    rw [hreplaying]
    exact fun r => mem_cons_of_mem _
  have hself : opNum ∈ s.replaying := by simp [hreplaying]
  have happlied : ∀ P : Nat → Prop, (succeeds = true → P opNum) → (∀ n ∈ s.applied, P n) →
      ∀ n ∈ (if succeeds then opNum :: s.applied else s.applied), P n := by
    intro P hnew hold n hn
    split at hn
    · next hsucceeds =>
      cases mem_cons.mp hn with
      | inl heq => exact heq ▸ hnew hsucceeds
      | inr hmem => exact hold n hmem
    · exact hold n hn
  refine ⟨?_, fun saved hfile => ?_, ?_, ?_, fun r hr => h.replaying_lt r (hmem r hr),
    fun r hr => h.replaying_queue r (hmem r hr), fun _ => hpending, h.queue_sorted, h.queue_le⟩
  · exact happlied _ (fun _ => h.replaying_lt opNum hself) h.applied_lt
  · exact happlied _ (fun hsucceeds => hwithin hsucceeds saved hfile) (h.applied_saved saved hfile)
  · exact happlied _ (fun _ => h.replaying_queue opNum hself) h.applied_queue
  · rw [hpending]
    exact fun c hc => absurd hc (Option.not_mem_none c)

theorem Consistent.skip (h : s.Consistent)
    (hqueue : s.queue = opNum :: rest) : Consistent { s with queue := rest } := by
  have hsorted := h.queue_sorted
  rw [hqueue, pairwise_cons] at hsorted
  have hrest : ∀ q ∈ rest, q ∈ s.queue := by
    rw [hqueue]
    exact fun q => mem_cons_of_mem _
  exact ⟨h.applied_lt, h.applied_saved, fun n hn q hq => h.applied_queue n hn q (hrest q hq),
    h.applied_pending, h.replaying_lt, fun r hr q hq => h.replaying_queue r hr q (hrest q hq),
    h.replaying_pending, hsorted.2, fun q hq => h.queue_le q (hrest q hq)⟩

/-- The worker applies an operation that has a record. -/
theorem Consistent.process (h : s.Consistent)
    (hreplaying : s.replaying = []) (hqueue : s.queue = opNum :: rest) (hlt : opNum < s.nextIndex)
    (hwithin : ∀ saved, s.file = .saved saved → opNum ≤ saved + appliedSeqSaveInterval) :
    Consistent { s with queue := rest, pending := some opNum, applied := opNum :: s.applied } := by
  have hskip := h.skip hqueue
  have hsorted := h.queue_sorted
  rw [hqueue, pairwise_cons] at hsorted
  refine ⟨forall_mem_cons.mpr ⟨hlt, h.applied_lt⟩, fun saved hfile => ?_,
    forall_mem_cons.mpr ⟨hsorted.1, hskip.applied_queue⟩, ?_, h.replaying_lt,
    hskip.replaying_queue, fun hne => absurd hreplaying hne, hsorted.2, hskip.queue_le⟩
  · exact forall_mem_cons.mpr
      ⟨hwithin saved hfile, h.applied_saved saved hfile⟩
  · rintro c ⟨⟩
    exact forall_mem_cons.mpr ⟨le_rfl, fun n hn => h.applied_queue n hn opNum (by simp [hqueue])⟩

theorem update_file (opNum : Nat) (handler : AppliedSeqHandler) (file : AppliedSeqFile) :
    (handler.update opNum file).2 = file ∨ (handler.update opNum file).2 = .saved opNum := by
  unfold AppliedSeqHandler.update
  split
  · exact .inl rfl
  · split
    · exact .inr rfl
    · exact .inl rfl

/-- What is recorded is the last operation that was applied. -/
theorem Consistent.record (h : s.Consistent) (hpending : s.pending = some opNum)
    (handler : AppliedSeqHandler) {file : AppliedSeqFile}
    (hfile : file = s.file ∨ file = .saved opNum) :
    Consistent { s with handler, file, pending := none } := by
  refine { h with
    applied_saved := fun saved hsaved n hn => ?_
    applied_pending := fun c hc => absurd hc (Option.not_mem_none c)
    replaying_pending := fun _ => rfl }
  cases hfile with
  | inl hsame => exact h.applied_saved saved (hsame ▸ hsaved) n hn
  | inr hnew =>
    cases hnew.symm.trans hsaved
    exact (h.applied_pending opNum hpending n hn).trans (Nat.le_add_right _ _)

theorem eq_saved_of_fileAfterLoad {file : AppliedSeqFile} {saved : Nat}
    (h : AppliedSeqHandler.fileAfterLoad file = .saved saved) : file = .saved saved := by
  cases file with
  | malformed removable => cases removable <;> cases h
  | _ => exact h

theorem Consistent.restart (h : s.Consistent) (hstep : s.step .restart = some s') :
    s'.Consistent := by
  cases hstep
  have htarget : s.replayTarget ≤ s.nextIndex := replayTarget_le _ _ _
  have hreplaying : ∀ r ∈ List.range' s.firstIndex (s.replayTarget - s.firstIndex),
      r < s.replayTarget := by
    intro r hr
    rw [mem_range'_1] at hr
    omega
  have hqueue : ∀ q ∈ (if s.replayTarget < s.nextIndex then
      List.range' s.replayTarget (s.nextIndex + 1 - s.replayTarget) else []),
      s.replayTarget < s.nextIndex ∧ s.replayTarget ≤ q ∧ q ≤ s.nextIndex := by
    intro q hq
    split at hq
    · next hlt =>
      rw [mem_range'_1] at hq
      omega
    · cases hq
  refine ⟨h.applied_lt, fun saved hfile => ?_, fun n hn q hq => ?_,
    fun c hc => absurd hc (Option.not_mem_none c),
    fun r hr => (hreplaying r hr).trans_le htarget, fun r hr q hq => ?_, fun _ => rfl, ?_,
    fun q hq => (hqueue q hq).2.2⟩
  · exact h.applied_saved saved (eq_saved_of_fileAfterLoad hfile)
  · obtain ⟨hlt, hle, -⟩ := hqueue q hq
    exact ((h.lt_replayTarget hlt n hn).trans_le hle).le
  · exact (hreplaying r hr).le.trans (hqueue q hq).2.1
  · split
    · exact (pairwise_lt_range').imp fun hlt => hlt.le
    · exact List.Pairwise.nil

/-! ### Counted operations -/

theorem isChain_range' (start count : Nat) : (List.range' start count).IsChain fun a b => b ≤ a + 1 := by
  induction count generalizing start with
  | zero => simp
  | succ count ih =>
    rw [List.range'_succ, isChain_cons]
    refine ⟨fun b hb => ?_, ih _⟩
    cases count with
    | zero => simp at hb
    | succ count => simp_all [List.range'_succ]

/-- The next number is handled. -/
theorem Steady.pop (h : s.Steady) {rest : List Nat} (hupcoming : s.upcoming = opNum :: rest)
    (hrest : s'.upcoming = rest) (hfile : s'.file = s.file)
    (hcount : ∀ saved, s.file = .saved saved → saved < opNum → s'.sinceSave = s.sinceSave + 1)
    (hpending : ∀ c ∈ s'.pending, c = opNum) : s'.Steady := by
  obtain ⟨hnext, hchain⟩ := isChain_cons.mp (hupcoming ▸ h.chain)
  rw [← hrest] at hnext hchain
  refine ⟨hchain, fun saved hsaved b hb => ?_, fun c hc => hpending c hc ▸ hnext⟩
  rw [hfile] at hsaved
  have hb := hnext b hb
  have hop := h.saved saved hsaved opNum (by simp [hupcoming])
  rcases Nat.lt_or_ge saved opNum with hlt | hle
  · have := hcount saved hsaved hlt
    omega
  · omega

theorem Steady.write (h : s.Steady) (hreplaying : s.replaying = []) :
    Steady { s with nextIndex := s.nextIndex + 1, queue := s.queue ++ [s.nextIndex] } := by
  have hupcoming : upcoming { s with nextIndex := s.nextIndex + 1, queue := s.queue ++ [s.nextIndex] } =
      s.upcoming ++ [s.nextIndex + 1] := by
    simp [upcoming, hreplaying]
  have hhead : (s.upcoming ++ [s.nextIndex + 1]).head? = s.upcoming.head? := by
    simp [upcoming, hreplaying]
  refine ⟨?_, ?_, ?_⟩
  · rw [hupcoming, isChain_append]
    refine ⟨h.chain, isChain_singleton _, ?_⟩
    simp [upcoming]
  · rw [hupcoming, hhead]
    exact h.saved
  · rw [hupcoming, hhead]
    exact h.pending

theorem Steady.record (h : s.Steady) (hpending : s.pending = some opNum) (handler : AppliedSeqHandler)
    {file : AppliedSeqFile} (hfile : file = s.file ∨ file = .saved opNum) :
    Steady { s with
      handler
      file
      pending := none
      sinceSave := if file = .saved opNum then 0 else s.sinceSave } := by
  refine ⟨h.chain, fun saved hsaved => ?_, fun c hc => absurd hc (Option.not_mem_none c)⟩
  split
  next hnew =>
    cases hnew.symm.trans hsaved
    exact h.pending opNum hpending
  next hnew => exact h.saved saved ((hfile.resolve_right hnew).symm.trans hsaved)

/-- What was acknowledged is counted, and the numbers up to the end of the WAL follow. -/
theorem Steady.restart (hstep : s.step .restart = some s') : s'.Steady := by
  cases hstep
  have htarget : s.replayTarget ≤ s.nextIndex := replayTarget_le _ _ _
  have hqueue : ∃ rest, (if s.replayTarget < s.nextIndex then
      List.range' s.replayTarget (s.nextIndex + 1 - s.replayTarget) else []) ++ [s.nextIndex] =
        s.replayTarget :: rest ∧ (s.replayTarget :: rest).IsChain fun a b => b ≤ a + 1 := by
    split
    next hlt =>
      obtain ⟨count, hcount⟩ : ∃ count, s.nextIndex + 1 - s.replayTarget = count + 1 :=
        ⟨s.nextIndex - s.replayTarget, by omega⟩
      refine ⟨List.range' (s.replayTarget + 1) count ++ [s.nextIndex],
        by simp [hcount, List.range'_succ], ?_⟩
      rw [← cons_append, ← List.range'_succ, isChain_append]
      refine ⟨isChain_range' _ _, isChain_singleton _, ?_⟩
      simp [getLast?_range']
      omega
    next hge => exact ⟨[], by simp; omega, isChain_singleton _⟩
  obtain ⟨rest, hrest, hchain⟩ := hqueue
  have hhead : ∀ b ∈ (List.range' s.firstIndex (s.replayTarget - s.firstIndex) ++
      s.replayTarget :: rest).head?, b = min s.firstIndex s.replayTarget := by
    cases hcount : s.replayTarget - s.firstIndex with
    | zero => simp; omega
    | succ count => simp [List.range'_succ]; omega
  refine ⟨?_, fun saved hsaved b hb => ?_, fun c hc => absurd hc (Option.not_mem_none c)⟩
  · unfold upcoming
    rw [hrest, isChain_append]
    refine ⟨isChain_range' _ _, hchain, ?_⟩
    simp [getLast?_range']
    omega
  · unfold upcoming at hb
    rw [hrest] at hb
    have := hhead b hb
    simp only [ackedSinceSave, eq_saved_of_fileAfterLoad hsaved]
    omega

/-- Every step keeps both if what it applies is within the save interval. -/
theorem Consistent.step (h : s.Consistent) (hsteady : s.Steady) (hwithin : s.WithinInterval label)
    (hstep : s.step label = some s') : s'.Consistent ∧ s'.Steady := by
  cases label with
  | write =>
    rw [UpdateRun.step] at hstep
    split at hstep
    · next hreplaying =>
      cases hstep
      exact ⟨h.write hreplaying, hsteady.write hreplaying⟩
    · cases hstep
  | ack untilIndex =>
    rw [UpdateRun.step] at hstep
    split at hstep
    · cases hstep
      exact ⟨{ h with }, { hsteady with }⟩
    · cases hstep
  | replay succeeds =>
    rw [UpdateRun.step] at hstep
    split at hstep
    · cases hstep
    · next opNum rest hreplaying =>
      cases hstep
      have hpending := h.replaying_pending (by simp [hreplaying])
      have hupcoming : s.upcoming = opNum :: (rest ++ (s.queue ++ [s.nextIndex])) := by
        simp [upcoming, hreplaying]
      constructor
      · refine { h.replay hreplaying fun hsucceeds saved hfile => ?_ with }
        subst hsucceeds
        have hle := hsteady.saved saved hfile opNum (by simp [hupcoming])
        have hlt := hwithin opNum (by simp [hreplaying]) (by simp [hfile])
        simp only [isBehindSaved, hfile, decide_eq_true_eq] at hlt
        omega
      · refine hsteady.pop hupcoming rfl rfl ?_ (by simp [hpending])
        intro saved hsaved hlt
        simp [isBehindSaved, hsaved, hlt]
  | process succeeds =>
    rw [UpdateRun.step] at hstep
    split at hstep
    · next opNum rest hreplaying hpending hqueue =>
      have hupcoming : s.upcoming = opNum :: (rest ++ [s.nextIndex]) := by
        simp [upcoming, hreplaying, hqueue]
      split at hstep
      · next happlied =>
        cases hstep
        rw [happlied.1] at hwithin
        constructor
        · refine { h.process hreplaying hqueue happlied.2 fun saved hfile => ?_ with }
          have hle := hsteady.saved saved hfile opNum (by simp [hupcoming])
          have hlt := hwithin (by simp [hfile])
          omega
        · exact hsteady.pop hupcoming (by simp [upcoming, hreplaying]) rfl (fun _ _ _ => rfl) (by simp)
      · cases hstep
        refine ⟨{ h.skip hqueue with }, ?_⟩
        exact hsteady.pop hupcoming (by simp [upcoming, hreplaying]) rfl (fun _ _ _ => rfl)
          (by simp [hpending])
    · cases hstep
  | record =>
    rw [UpdateRun.step] at hstep
    split at hstep
    · next opNum hpending =>
      cases hstep
      have hfile := update_file opNum s.handler s.file
      exact ⟨{ h.record hpending (s.handler.update opNum s.file).1 hfile with },
        hsteady.record hpending _ hfile⟩
    · cases hstep
  | restart => exact ⟨h.restart hstep, .restart hstep⟩

theorem consistent_initial (queueSize : Nat) : (initial queueSize).Consistent := by
  refine ⟨?_, ?_, ?_, ?_, ?_, ?_, fun _ => rfl, List.Pairwise.nil, ?_⟩ <;> simp [initial]

theorem steady_initial (queueSize : Nat) : (initial queueSize).Steady := by
  refine ⟨?_, ?_, ?_⟩ <;> simp [initial, upcoming]

/-- One operation that succeeds and is recorded. -/
def applyOne : List UpdateStep := [.write, .process true, .record]

/-- Number 64 is saved. Then one operation fails and 62 are applied, the process dies, and recovery
replays what is behind the saved number. -/
def crashAndReplay : List UpdateStep :=
  (List.replicate 65 applyOne).flatten ++ [.write, .process false] ++
    (List.replicate 62 applyOne).flatten ++ [.ack 100, .restart] ++ List.replicate 28 (.replay true)

/-- With 65 operations the number 64 is saved. Then 64 operations fail, which is not recorded, and the
next one is applied: its number 129 is the bound. -/
def failures : List UpdateStep :=
  (List.replicate 65 applyOne).flatten ++ (List.replicate 64 [.write, .process false]).flatten ++
    [.write, .process true]

/-- After a restart the first 64 operations are not saved again. -/
def restarted : List UpdateStep :=
  (List.replicate 65 applyOne).flatten ++ [.ack 65, .restart] ++
    (List.replicate 64 applyOne).flatten ++ [.write, .process true]

end UpdateRun

end Qdrant
