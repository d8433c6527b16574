-- SUMMARY: Queue proxy transfers beside the flush worker: which WAL records stay readable and which are delivered.
import Qdrant.Wal.SerdeWal

/-!
# Queue proxies

A queue proxy (`lib/collection/src/shards/queue_proxy_shard.rs`) sends the tail of the WAL
of a local shard to a remote one, in batches. While it exists it bounds what the flush
worker (`update_workers/flush_workers.rs`) may acknowledge, with an atomic that the worker
loads before it takes the WAL lock.

The state below has the WAL, the atomic, the local variables of the flush worker and of
`transfer_all_missed_updates`, and three ghosts: every record ever written, the records
that reached the remote, and what had reached it when a transfer returned `Ok`.
-/

namespace Qdrant.QueueProxy

open List

open Wal (IndexedLog)

variable {R : Type}

/-! ## Code -/

def u64Max : Nat := 2 ^ 64 - 1

def batchSize : Nat := 10

/-- `MAX_RETRY_COUNT` of the transfer driver. -/
def batchRetries : Nat := 3

/-- Where the flush worker stands. -/
inductive Flush where
  | idle
  /-- The segments are flushed up to this version. -/
  | confirmed (version : Nat)
  /-- The bound was loaded; this version is to be acknowledged. -/
  | loaded (ack : Nat)
deriving DecidableEq

/-- Where `transfer_all_missed_updates` stands. -/
inductive Transfer (R : Type) where
  /-- It is not called. -/
  | idle
  /-- Before the next batch. -/
  | between
  | sending (batch : List (Nat × R)) (lastBatch : Bool) (remainingAttempts : Nat)
  /-- The last batch is sent and the update lock released. -/
  | sent
deriving DecidableEq

structure Proxy (R : Type) where
  startedAt : Nat
  transferFrom : Nat
  transfer : Transfer R
  /-- What has reached the remote, in order. -/
  delivered : List (Nat × R)
  /-- `transferFrom` and `delivered` whenever a transfer returned `Ok`. -/
  returned : List (Nat × List (Nat × R))
deriving DecidableEq

/-- The update lock is kept while the last batch is sent. -/
def Proxy.updateLocked (p : Proxy R) : Bool :=
  match p.transfer with
  | .sending _ lastBatch _ => lastBatch
  | _ => false

structure State (R : Type) where
  wal : Wal.SerdeWal R
  /-- All records that were ever written. -/
  history : List R
  walKeepFrom : Nat
  flush : Flush
  proxy : Option (Proxy R)
deriving DecidableEq

inductive Label (R : Type) where
  /-- An update is written to the WAL. -/
  | update (full : Bool) (record : R)
  | flushCompute (version : Nat)
  | flushLoad
  | flushAck
  /-- `new`, or `new_from_version` if a version is given. -/
  | create (version : Option Nat)
  | beginTransfer
  | takeBatch
  | sendOk
  /-- An attempt fails, but some records of the batch may have arrived. -/
  | sendFail (arrived : Nat)
  | finish
  /-- The transfer is dropped; some records of the batch may have arrived. -/
  | cancel (arrived : Nat)
  | finalize

def collectBatch {ε α : Type} : List (Except ε α) → Except ε (List α)
  | [] => .ok []
  | .error e :: _ => .error e
  | .ok a :: rest =>
    match collectBatch rest with
    | .error e => .error e
    | .ok batch => .ok (a :: batch)

namespace State

def create (retainClosed : ℕ+) : State R where
  wal := .create retainClosed
  history := []
  walKeepFrom := u64Max
  flush := .idle
  proxy := none

section

variable (s : State R)

/-- The first version to transfer, if it is within the bounds of the WAL. -/
def startVersion : Option Nat → Option Nat
  | none => some (s.wal.lastIndex + 1)
  | some version =>
    if s.wal.firstClosedIndex ≤ version ∧ version ≤ s.wal.lastIndex + 1 then some version
    else none

def newFromVersion (version : Nat) : State R :=
  { s with
    walKeepFrom := version
    proxy := some
      { startedAt := version, transferFrom := version, transfer := .idle, delivered := [],
        returned := [] } }

/-- The first half of `transfer_wal_batch`. -/
def takeBatch (p : Proxy R) : Transfer R :=
  let pendingCount := (s.wal.lastIndex + 1) - p.transferFrom
  match collectBatch ((s.wal.read p.transferFrom).take batchSize) with
  | .error _ => .idle
  | .ok batch =>
    .sending batch (decide (pendingCount ≤ batchSize) || batch.isEmpty) (batchRetries - 1)

def withProxy (p : Proxy R) : State R := { s with proxy := some p }

def step : Label R → Option (State R)
  | .update full record =>
    if (s.proxy.map Proxy.updateLocked).getD false then none
    else some { s with wal := (s.wal.write full record).1, history := s.history ++ [record] }
  | .flushCompute version =>
    match s.flush with
    | .idle => some { s with flush := .confirmed version }
    | _ => none
  | .flushLoad =>
    match s.flush with
    | .confirmed version =>
      if s.walKeepFrom = 0 then some { s with flush := .idle }
      else some { s with flush := .loaded (min version (s.walKeepFrom - 1)) }
    | _ => none
  | .flushAck =>
    match s.flush with
    | .loaded ack =>
      match s.wal.ack ack with
      | .ok wal => some { s with wal, flush := .idle }
      | .error _ => some { s with flush := .idle }
    | _ => none
  | .create version =>
    match s.proxy with
    | none => (s.startVersion version).map s.newFromVersion
    | some _ => none
  | .beginTransfer => s.proxy.bind fun p =>
    match p.transfer with
    | .idle => some (s.withProxy { p with transfer := .between })
    | _ => none
  | .takeBatch => s.proxy.bind fun p =>
    match p.transfer with
    | .between => some (s.withProxy { p with transfer := s.takeBatch p })
    | _ => none
  | .sendOk => s.proxy.bind fun p =>
    match p.transfer with
    | .sending batch lastBatch _ =>
      some (s.withProxy { p with
        transferFrom := (batch.getLast?.map fun r => r.1 + 1).getD p.transferFrom
        transfer := if lastBatch then .sent else .between
        delivered := p.delivered ++ batch })
    | _ => none
  | .sendFail arrived => s.proxy.bind fun p =>
    match p.transfer with
    | .sending batch lastBatch remainingAttempts =>
      some (s.withProxy { p with
        transfer :=
          if remainingAttempts > 0 then .sending batch lastBatch (remainingAttempts - 1)
          else .idle
        delivered := p.delivered ++ batch.take arrived })
    | _ => none
  | .finish => s.proxy.bind fun p =>
    match p.transfer with
    | .sent =>
      some { s.withProxy { p with
        transfer := .idle
        returned := p.returned ++ [(p.transferFrom, p.delivered)] } with
        walKeepFrom := p.transferFrom }
    | _ => none
  | .cancel arrived => s.proxy.bind fun p =>
    match p.transfer with
    | .sending batch _ _ =>
      some (s.withProxy { p with
        transfer := .idle
        delivered := p.delivered ++ batch.take arrived })
    | _ => some (s.withProxy { p with transfer := .idle })
  | .finalize => s.proxy.map fun _ => { s with walKeepFrom := u64Max, proxy := none }

end

end State

/-! ## Batches -/

theorem collectBatch_ok {ε α : Type} {l : List (Except ε α)} {batch : List α}
    (h : collectBatch l = .ok batch) : l = batch.map .ok := by
  induction l generalizing batch with
  | nil => cases h; rfl
  | cons x rest ih =>
    cases x with
    | error e => cases h
    | ok a =>
      rw [collectBatch] at h
      cases hrest : collectBatch rest with
      | error e => rw [hrest] at h; cases h
      | ok batch' =>
        rw [hrest] at h
        cases h
        rw [ih hrest]
        rfl

variable {history : List R}

theorem getElem?_grow {i : Nat} {r : R} (h : history[i]? = some r)
    (more : List R) : (history ++ more)[i]? = some r :=
  (List.getElem?_append_left (List.getElem?_eq_some_iff.mp h).1).trans h

/-- The batch has the records from index `start` on, without gaps. -/
def Follows (history : List R) (start : Nat) (batch : List (Nat × R)) : Prop :=
  ∀ (j : Nat) (r : Nat × R), batch[j]? = some r → r.1 = start + j ∧ history[r.1]? = some r.2

variable {start : Nat} {batch : List (Nat × R)}

section

variable (h : Follows history start batch)

include h

theorem Follows.take (n : Nat) : Follows history start (batch.take n) := by
  intro j r hj
  rw [getElem?_take] at hj
  split at hj
  · exact h j r hj
  · cases hj

theorem Follows.grow (more : List R) : Follows (history ++ more) start batch :=
  fun j r hj => ⟨(h j r hj).1, getElem?_grow (h j r hj).2 more⟩

theorem Follows.indices : batch.map Prod.fst = List.range' start batch.length := by
  apply ext_getElem (by simp)
  intro j hj _
  rw [length_map] at hj
  simp [(h j batch[j] (getElem?_eq_getElem hj)).1]

/-- The index after the batch. -/
theorem Follows.getLast? :
    (batch.getLast?.map fun r => r.1 + 1).getD start = start + batch.length := by
  have hlast := congrArg List.getLast? h.indices
  rw [getLast?_map, getLast?_range'] at hlast
  cases hb : batch.getLast? with
  | none =>
    rw [getLast?_eq_none_iff.mp hb]
    rfl
  | some r =>
    rw [hb] at hlast
    split at hlast
    · cases hlast
    · have := Option.some.inj hlast
      rw [Option.map_some, Option.getD_some]
      omega

end

/-! ## Deliveries -/

theorem eraseDups_append_range' {seen : List Nat} {a b t : Nat} (hat : a ≤ t) (htb : t ≤ b)
    (hseen : seen.eraseDups = List.range' a (b - a)) (n : Nat) :
    (seen ++ List.range' t n).eraseDups = List.range' a (max b (t + n) - a) := by
  induction n with
  | zero =>
    have hmax : max b (t + 0) = b := Nat.max_eq_left htb
    rw [List.range'_zero, append_nil, hmax]
    exact hseen
  | succ n ih =>
    have hmem : t + n ∈ seen ++ List.range' t n ↔ t + n < b := by
      rw [← mem_eraseDups, ih, mem_range'_1]
      omega
    rw [List.range'_1_concat, ← append_assoc, eraseDups_append, ih]
    rcases Nat.lt_or_ge (t + n) b with hlt | hge
    · -- The index has been seen before.
      have hnone : [t + n].removeAll (seen ++ List.range' t n) = [] := by
        simp only [removeAll, filter_cons, elem_eq_mem, hmem.mpr hlt]
        rfl
      have hmax : max b (t + (n + 1)) = max b (t + n) := by omega
      rw [hnone, hmax]
      exact append_nil _
    · have hone : [t + n].removeAll (seen ++ List.range' t n) = [t + n] := by
        simp only [removeAll, filter_cons, elem_eq_mem, mt hmem.mp (not_lt.mpr hge)]
        rfl
      have hmax : max b (t + n) - a = t + n - a := by omega
      have hmax' : max b (t + (n + 1)) - a = (t + n - a) + 1 := by omega
      rw [hone, hmax, hmax', List.range'_1_concat, Nat.add_sub_cancel' (by omega)]
      rfl

/-- Every record from `start` to before `stop` has arrived. The first deliveries are in the
order of their indices and have no gaps. -/
structure Delivered (history : List R) (start stop : Nat) (delivered : List (Nat × R)) : Prop where
  records : ∀ r ∈ delivered, history[r.1]? = some r.2
  firsts : ∃ next, stop ≤ next ∧
    (delivered.map Prod.fst).eraseDups = List.range' start (next - start)

variable {history : List R} {start stop : Nat} {delivered batch : List (Nat × R)}

theorem Delivered.nil (history : List R) (start : Nat) : Delivered history start start [] := by
  refine ⟨by simp, start, le_rfl, ?_⟩
  rw [Nat.sub_self]
  rfl

section

variable (h : Delivered history start stop delivered)

include h

theorem Delivered.mono {stop' : Nat}
    (hle : stop' ≤ stop) : Delivered history start stop' delivered := by
  obtain ⟨next, hnext, hfirsts⟩ := h.firsts
  exact ⟨h.records, next, hle.trans hnext, hfirsts⟩

theorem Delivered.grow (more : List R) : Delivered (history ++ more) start stop delivered :=
  ⟨fun r hr => getElem?_grow (h.records r hr) more, h.firsts⟩

theorem Delivered.append (hle : start ≤ stop) (hbatch : Follows history stop batch) :
    Delivered history start (stop + batch.length) (delivered ++ batch) := by
  obtain ⟨next, hnext, hfirsts⟩ := h.firsts
  refine ⟨?_, max next (stop + batch.length), Nat.le_max_right _ _, ?_⟩
  · intro r hr
    rcases mem_append.mp hr with hr | hr
    · exact h.records r hr
    · obtain ⟨j, hj⟩ := getElem?_of_mem hr
      exact (hbatch j r hj).2
  · rw [map_append, hbatch.indices]
    exact eraseDups_append_range' hle hnext hfirsts _

end

namespace State

/-! ## Invariant -/

/-- The WAL holds the end of the history. -/
structure HoldsTail (s : State R) : Prop where
  inBounds : s.wal.InBounds
  entries : s.wal.wal.log.entries = s.history.drop s.wal.wal.log.first
  le : s.wal.wal.log.first ≤ s.history.length

variable {s : State R}

theorem HoldsTail.get? (h : s.HoldsTail) {i : Nat} (hi : s.wal.wal.log.first ≤ i) :
    s.wal.wal.log.get? i = s.history[i]? := by
  rw [IndexedLog.get?, if_neg (not_lt.mpr hi), h.entries, getElem?_drop,
    Nat.add_sub_cancel' hi]

variable {batch : List (Nat × R)}

/-- A batch read from the WAL has the records of the history. -/
theorem HoldsTail.follows (h : s.HoldsTail) {start : Nat}
    (hbatch : collectBatch ((s.wal.read start).take batchSize) = .ok batch) :
    Follows s.history start batch := by
  have hread := collectBatch_ok hbatch
  intro j r hj
  have hok : ((s.wal.read start).take batchSize)[j]? = some (.ok r) := by
    rw [hread, getElem?_map, hj]
    rfl
  rw [getElem?_take] at hok
  split at hok
  · rw [Wal.SerdeWal.read, Wal.SerdeWal.readRange, getElem?_map] at hok
    obtain ⟨i, hi, hentry⟩ := Option.map_eq_some_iff.mp hok
    obtain ⟨_, hindex⟩ := List.getElem?_eq_some_iff.mp hi
    rw [getElem_range', Nat.one_mul] at hindex
    rw [Wal.SerdeWal.readEntry, h.inBounds.contiguous.entry_eq] at hentry
    split at hentry
    next r' hget =>
      cases hentry
      replace hget := Except.ok.inj hget
      refine ⟨hindex.symm, ?_⟩
      rw [← h.get?, hget]
      apply Nat.le_of_not_lt
      intro hlt
      rw [IndexedLog.get?, if_pos hlt] at hget
      cases hget
    all_goals cases hentry
  · cases hok

theorem HoldsTail.write (h : s.HoldsTail) (full : Bool) (record : R) :
    HoldsTail { s with
      wal := (s.wal.write full record).1
      history := s.history ++ [record] } := by
  obtain ⟨hbounds, hlog⟩ := h.inBounds.write full record
  refine ⟨hbounds, ?_, ?_⟩
  · rw [hlog]
    simp only [IndexedLog.push, h.entries, drop_append_of_le_length h.le]
  · rw [hlog, length_append]
    exact Nat.le_add_right_of_le h.le

theorem HoldsTail.ack (h : s.HoldsTail) (ack : Nat) :
    ∃ wal, s.wal.ack ack = .ok wal ∧ HoldsTail { s with wal, flush := .idle } ∧
      wal.wal.log.first ≤ max s.wal.wal.log.first ack := by
  obtain ⟨wal, k, hack, hbounds, hlog, hk, hstop⟩ := h.inBounds.ack ack
  have hfirst : wal.wal.log.first = s.wal.wal.log.first + k := congrArg IndexedLog.first hlog
  have hlength := congrArg length h.entries
  rw [length_drop] at hlength
  refine ⟨wal, hack, ⟨hbounds, ?_, ?_⟩, by omega⟩
  · rw [hlog]
    simp only [IndexedLog.dropFirst, h.entries, drop_drop]
  · have := h.le
    dsimp only
    omega

/-- What has arrived at the remote, at any time. -/
structure Sends (history : List R) (p : Proxy R) : Prop where
  started_le : p.startedAt ≤ p.transferFrom
  sending : ∀ batch lastBatch remainingAttempts,
    p.transfer = .sending batch lastBatch remainingAttempts →
      Follows history p.transferFrom batch
  delivered : Delivered history p.startedAt p.transferFrom p.delivered
  returned : ∀ r ∈ p.returned, Delivered history p.startedAt r.1 r.2

variable {p : Proxy R}

section

variable (h : Sends history p)

include h

theorem Sends.grow (more : List R) : Sends (history ++ more) p where
  started_le := h.started_le
  sending batch lastBatch remainingAttempts hp :=
    (h.sending batch lastBatch remainingAttempts hp).grow more
  delivered := h.delivered.grow more
  returned r hr := (h.returned r hr).grow more

/-- Some records of the batch arrive, and the transfer goes on with the same batch or with
none. -/
theorem Sends.arrive
    (hbatch : Follows history p.transferFrom batch) (n : Nat) {transfer : Transfer R}
    (htransfer : ∀ batch' lastBatch remainingAttempts,
      transfer = .sending batch' lastBatch remainingAttempts → batch' = batch) :
    Sends history { p with transfer, delivered := p.delivered ++ batch.take n } where
  started_le := h.started_le
  sending batch' lastBatch remainingAttempts hp := by
    rw [htransfer batch' lastBatch remainingAttempts hp]
    exact hbatch
  delivered := (h.delivered.append h.started_le (hbatch.take n)).mono (Nat.le_add_right _ _)
  returned := h.returned

theorem Sends.sendOk (hbatch : Follows history p.transferFrom batch) (lastBatch : Bool) :
    Sends history { p with
      transferFrom := (batch.getLast?.map fun r => r.1 + 1).getD p.transferFrom
      transfer := if lastBatch then .sent else .between
      delivered := p.delivered ++ batch } := by
  rw [hbatch.getLast?]
  refine ⟨Nat.le_add_right_of_le h.started_le, ?_, h.delivered.append h.started_le hbatch,
    h.returned⟩
  intro batch' lastBatch' remainingAttempts hp
  cases lastBatch <;> cases hp

theorem Sends.withTransfer {transfer : Transfer R} (htransfer : ∀ batch lastBatch remainingAttempts,
      transfer = .sending batch lastBatch remainingAttempts →
        Follows history p.transferFrom batch) : Sends history { p with transfer } :=
  ⟨h.started_le, htransfer, h.delivered, h.returned⟩

end

/-- What holds in every state. -/
structure Inv (s : State R) : Prop where
  tail : s.HoldsTail
  sends : ∀ p, s.proxy = some p → Sends s.history p

/-- The WAL still has what is to be transferred, and no acknowledgement beyond it is under
way. -/
structure Keeps (s : State R) (p : Proxy R) : Prop where
  first_le : s.wal.wal.log.first ≤ p.transferFrom
  keepFrom_le : s.walKeepFrom ≤ p.transferFrom
  pending_le : ∀ ack, s.flush = .loaded ack → ack ≤ p.transferFrom

/-- The kinds of steps, by what they change. -/
inductive Effect (s : State R) : Label R → State R → Prop where
  | update (full : Bool) (record : R) : Effect s (.update full record)
      { s with wal := (s.wal.write full record).1, history := s.history ++ [record] }
  /-- The flush worker moves on. -/
  | flush {label : Label R} (flush : Flush)
      (hbound : ∀ ack, flush = .loaded ack → ack ≤ s.walKeepFrom) : Effect s label { s with flush }
  | ack {ack : Nat} (hflush : s.flush = .loaded ack) {wal : Wal.SerdeWal R}
      (hwal : s.wal.ack ack = .ok wal) : Effect s .flushAck { s with wal, flush := .idle }
  | create {version : Option Nat} {start : Nat} (hstart : s.startVersion version = some start) :
      Effect s (.create version) (s.newFromVersion start)
  /-- The transfer of the proxy moves on. -/
  | transfer {label : Label R} {p p' : Proxy R} (hp : s.proxy = some p)
      (hsends : Sends s.history p → p.transferFrom ≤ p'.transferFrom ∧ Sends s.history p') :
      Effect s label (s.withProxy p')
  | finish {p p' : Proxy R} (hp : s.proxy = some p) (hsame : p'.transferFrom = p.transferFrom)
      (hsends : Sends s.history p → Sends s.history p') :
      Effect s .finish { s.withProxy p' with walKeepFrom := p.transferFrom }
  | finalize : Effect s .finalize { s with walKeepFrom := u64Max, proxy := none }

variable {s' : State R} {label : Label R}

theorem sends_takeBatch (hs : s.HoldsTail) (h : Sends s.history p) :
    Sends s.history { p with transfer := s.takeBatch p } := by
  refine h.withTransfer fun batch lastBatch remainingAttempts hbatch => ?_
  rw [takeBatch] at hbatch
  cases hread : collectBatch ((s.wal.read p.transferFrom).take batchSize) with
  | error e => simp only [hread] at hbatch; cases hbatch
  | ok batch' =>
    simp only [hread] at hbatch
    cases hbatch
    exact hs.follows hread

/-- One step, for a WAL that holds the tail of the history. -/
theorem step_effect (hs : s.HoldsTail) (h : s.step label = some s') : Effect s label s' := by
  cases label with
  | update full record =>
    rw [step] at h
    split at h
    · cases h
    · cases h
      exact .update full record
  | flushCompute version =>
    rw [step] at h
    split at h
    · cases h
      exact .flush _ nofun
    · cases h
  | flushLoad =>
    rw [step] at h
    split at h
    · split at h
      · cases h
        exact .flush _ nofun
      · cases h
        refine .flush _ fun ack hack => ?_
        cases hack
        exact Nat.le_trans (Nat.min_le_right _ _) (Nat.sub_le _ _)
    · cases h
  | flushAck =>
    rw [step] at h
    split at h
    next ack hf =>
      split at h
      next wal hwal => cases h; exact .ack hf hwal
      next => cases h; exact .flush _ nofun
    next => cases h
  | create version =>
    rw [step] at h
    split at h
    · obtain ⟨start, hstart, rfl⟩ := Option.map_eq_some_iff.mp h
      exact .create hstart
    · cases h
  | finalize =>
    obtain ⟨p, -, rfl⟩ := Option.map_eq_some_iff.mp h
    exact .finalize
  | beginTransfer =>
    obtain ⟨p, hp, h⟩ := Option.bind_eq_some_iff.mp h
    split at h
    · cases h
      exact .transfer hp fun hsends => ⟨le_rfl, hsends.withTransfer nofun⟩
    · cases h
  | takeBatch =>
    obtain ⟨p, hp, h⟩ := Option.bind_eq_some_iff.mp h
    split at h
    · cases h
      exact .transfer hp fun hsends => ⟨le_rfl, sends_takeBatch hs hsends⟩
    · cases h
  | sendOk =>
    obtain ⟨p, hp, h⟩ := Option.bind_eq_some_iff.mp h
    split at h
    next batch lastBatch remainingAttempts ht =>
      cases h
      refine .transfer hp fun hsends => ?_
      have hbatch := hsends.sending _ _ _ ht
      refine ⟨?_, hsends.sendOk hbatch lastBatch⟩
      rw [hbatch.getLast?]
      exact Nat.le_add_right _ _
    next => cases h
  | sendFail arrived =>
    obtain ⟨p, hp, h⟩ := Option.bind_eq_some_iff.mp h
    split at h
    next batch lastBatch remainingAttempts ht =>
      cases h
      refine .transfer hp fun hsends => ⟨le_rfl, hsends.arrive (hsends.sending _ _ _ ht) arrived ?_⟩
      -- A retry sends the same batch.
      intro batch' lastBatch' remainingAttempts' hsame
      split at hsame
      · cases hsame
        rfl
      · cases hsame
    next => cases h
  | cancel arrived =>
    obtain ⟨p, hp, h⟩ := Option.bind_eq_some_iff.mp h
    split at h
    next batch lastBatch remainingAttempts ht =>
      cases h
      exact .transfer hp fun hsends => ⟨le_rfl,
        hsends.arrive (hsends.sending _ _ _ ht) arrived nofun⟩
    next =>
      cases h
      exact .transfer hp fun hsends => ⟨le_rfl, hsends.withTransfer nofun⟩
  | finish =>
    obtain ⟨p, hp, h⟩ := Option.bind_eq_some_iff.mp h
    split at h
    · cases h
      refine .finish hp rfl fun hsends => ⟨hsends.started_le, nofun, hsends.delivered, ?_⟩
      intro r hr
      rcases mem_append.mp hr with hr | hr
      · exact hsends.returned r hr
      · rw [mem_singleton.mp hr]
        exact hsends.delivered
    · cases h

/-! ## Runs -/

theorem Inv.step (h : s.Inv) (hstep : s.step label = some s') : s'.Inv := by
  cases step_effect h.tail hstep with
  | update full record =>
    exact ⟨h.tail.write full record, fun p hp => (h.sends p hp).grow _⟩
  | flush flush hbound => exact ⟨{ h.tail with }, h.sends⟩
  | @ack ack hflush wal hwal =>
    obtain ⟨wal', hwal', htail, -⟩ := h.tail.ack ack
    rw [hwal] at hwal'
    cases hwal'
    exact ⟨htail, h.sends⟩
  | @create version start hstart =>
    refine ⟨{ h.tail with }, fun p hp => ?_⟩
    cases hp
    exact ⟨le_rfl, nofun, .nil _ _, by simp⟩
  | transfer hp hsends =>
    refine ⟨{ h.tail with }, fun p hp' => ?_⟩
    cases hp'
    exact (hsends (h.sends _ hp)).2
  | finish hp hsame hsends =>
    refine ⟨{ h.tail with }, fun p hp' => ?_⟩
    cases hp'
    exact hsends (h.sends _ hp)
  | finalize => exact ⟨{ h.tail with }, nofun⟩

/-- When a proxy is created, the flush worker is not about to acknowledge a version beyond
the first one that the proxy transfers. -/
def InOrder (s : State R) : Label R → Prop
  | .create version =>
    ∀ start ∈ s.startVersion version, ∀ ack, s.flush = .loaded ack → ack ≤ start
  | _ => True

theorem first_le_startVersion {version : Option Nat} {start : Nat}
    (h : s.startVersion version = some start) : s.wal.firstClosedIndex ≤ start := by
  cases version with
  | none =>
    cases h
    exact Nat.le_succ_of_le (Nat.le_add_right _ _)
  | some version =>
    rw [startVersion] at h
    split at h
    next hle => cases h; exact hle.1
    next => cases h

theorem Keeps.step (hinv : s.Inv) (h : ∀ p, s.proxy = some p → s.Keeps p) (horder : s.InOrder label)
    (hstep : s.step label = some s') : ∀ p, s'.proxy = some p → s'.Keeps p := by
  cases step_effect hinv.tail hstep with
  | update full record =>
    intro p hp
    have hlog := (hinv.tail.inBounds.write full record).2
    have hfirst := congrArg IndexedLog.first hlog
    obtain ⟨hle, hkeep, hpending⟩ := h p hp
    exact ⟨hfirst.le.trans hle, hkeep, hpending⟩
  | flush flush hbound =>
    intro p hp
    obtain ⟨hle, hkeep, -⟩ := h p hp
    exact ⟨hle, hkeep, fun ack hack => (hbound ack hack).trans hkeep⟩
  | @ack ack hflush wal hwal =>
    intro p hp
    obtain ⟨hle, hkeep, hpending⟩ := h p hp
    obtain ⟨wal', hwal', -, hfirst⟩ := hinv.tail.ack ack
    rw [hwal] at hwal'
    cases hwal'
    exact ⟨hfirst.trans (Nat.max_le.mpr ⟨hle, hpending ack hflush⟩), hkeep, nofun⟩
  | @create version start hstart =>
    intro p hp
    cases hp
    exact ⟨first_le_startVersion hstart, le_rfl, horder start hstart⟩
  | transfer hp hsends =>
    intro p hp'
    cases hp'
    obtain ⟨hle, hkeep, hpending⟩ := h _ hp
    have hmono := (hsends (hinv.sends _ hp)).1
    exact ⟨hle.trans hmono, hkeep.trans hmono, fun ack hack => (hpending ack hack).trans hmono⟩
  | finish hp hsame hsends =>
    intro p hp'
    cases hp'
    obtain ⟨hle, hkeep, hpending⟩ := h _ hp
    rw [← hsame] at hle hpending
    exact ⟨hle, hsame.symm.le, hpending⟩
  | finalize => exact nofun

/-- Every record from `transferFrom` on can be read, and the flush worker is not about to
acknowledge a version beyond it. -/
structure Retains (s : State R) (p : Proxy R) : Prop where
  readEntry : ∀ (i : Nat) (r : R), p.transferFrom ≤ i → s.history[i]? = some r →
    s.wal.readEntry i = .ok (i, r)
  pending : ∀ ack, s.flush = .loaded ack → ack ≤ p.transferFrom

theorem Keeps.retains (hinv : s.Inv) (h : s.Keeps p) : s.Retains p := by
  refine ⟨fun i r hi hr => ?_, h.pending_le⟩
  rw [Wal.SerdeWal.readEntry, hinv.tail.inBounds.contiguous.entry_eq,
    hinv.tail.get? (h.first_le.trans hi), hr]

/-- A transfer that returns `Ok` has delivered all records from the first one on, in any run.
The records that are still to be transferred stay in the WAL if every proxy is created in
order. -/
theorem retains_and_delivers {s₀ s : State R} {labels : List (Label R)} (htail : s₀.HoldsTail)
    (hnone : s₀.proxy = none) (hrun : Run.run step s₀ labels = some s) :
    (∀ p, s.proxy = some p → ∀ r ∈ p.returned, Delivered s.history p.startedAt r.1 r.2) ∧
      (Run.Guarded step InOrder s₀ labels → ∀ p, s.proxy = some p → s.Retains p) := by
  have hinv₀ : s₀.Inv := ⟨htail, fun p hp => nomatch hnone.symm.trans hp⟩
  constructor
  · have hinv : s.Inv := by
      refine Run.run_invariant ?_ hrun (Run.guarded_of_forall (fun _ _ => trivial) _ _) hinv₀
      exact fun t label t' ht _ hstep => ht.step hstep
    intro p hp
    exact (hinv.sends p hp).returned
  · intro hguard
    have hkeeps₀ : ∀ p, s₀.proxy = some p → s₀.Keeps p := fun p hp => nomatch hnone.symm.trans hp
    have hboth : s.Inv ∧ ∀ p, s.proxy = some p → s.Keeps p := by
      apply Run.run_invariant (P := fun t => t.Inv ∧ ∀ p, t.proxy = some p → t.Keeps p)
        _ hrun hguard ⟨hinv₀, hkeeps₀⟩
      exact fun t label t' ht horder hstep =>
        ⟨ht.1.step hstep, Keeps.step ht.1 ht.2 horder hstep⟩
    intro p hp
    exact (hboth.2 p hp).retains hboth.1

theorem holdsTail_create (retainClosed : ℕ+) : (create retainClosed : State R).HoldsTail :=
  ⟨⟨trivial, le_rfl, le_rfl⟩, rfl, le_rfl⟩

/-- Three records in three segments. -/
def threeUpdates : List (Label Nat) := [.update true 10, .update true 11, .update true 12]

/-- The proxy exists when the worker loads the bound. The first attempt to send the batch
delivers one record and fails, the second one succeeds. -/
def retriedTransfer : List (Label Nat) :=
  threeUpdates ++ [.flushCompute 2, .create (some 1), .flushLoad, .beginTransfer, .takeBatch,
    .flushAck, .sendFail 1, .sendOk, .finish]

theorem retains_and_delivers_retried :
    ∃ s p, Run.run step (create 1) retriedTransfer = some s ∧ s.proxy = some p ∧
      s.Retains p ∧ p.returned = [(3, [(1, 11), (1, 11), (2, 12)])] ∧
      Delivered s.history 1 3 [(1, 11), (1, 11), (2, 12)] := by
  have hrun : ∃ s p, Run.run step (create 1) retriedTransfer = some s ∧ s.proxy = some p ∧
      p.startedAt = 1 ∧ p.returned = [(3, [(1, 11), (1, 11), (2, 12)])] := ⟨_, _, rfl, rfl, rfl, rfl⟩
  have horder : Run.Guarded step InOrder (create 1) retriedTransfer :=
    ⟨trivial, trivial, trivial, trivial, nofun, trivial, trivial, trivial, trivial, trivial, trivial,
      trivial, trivial⟩
  obtain ⟨s, p, hrun, hp, hstarted, hreturned⟩ := hrun
  obtain ⟨hdelivers, hretains⟩ := retains_and_delivers (holdsTail_create 1) rfl hrun
  refine ⟨s, p, hrun, hp, hretains horder p hp, hreturned, ?_⟩
  have hdelivered := hdelivers p hp (3, _) (hreturned ▸ mem_singleton_self _)
  rw [hstarted] at hdelivered
  exact hdelivered

/-- The worker loads the bound before the proxy is created from a version that the WAL still
has. The acknowledgement removes that record, and every transfer fails. -/
theorem retained_version_removed : ∃ s p, Run.run step (create 1) (threeUpdates ++
        [.flushCompute 2, .flushLoad, .create (some 0), .flushAck]) = some s ∧
      s.proxy = some p ∧ p.transferFrom = 0 ∧ s.history[0]? = some 10 ∧
      (s.wal.readEntry 0).toOption = none ∧ s.takeBatch p = .idle :=
  ⟨_, _, rfl, rfl, rfl, rfl, rfl, rfl⟩

end State

end Qdrant.QueueProxy
