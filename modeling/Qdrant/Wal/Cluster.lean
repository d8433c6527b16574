-- SUMMARY: A cluster of nodes that fail and recover by WAL delta, and its convergence.
import Qdrant.Wal.RecoverableWal
import Qdrant.Base.Run

/-!
# Convergence of a cluster through WAL-delta recovery

Nodes replicate operations by writing them to their recoverable WALs. A dead node
takes no writes; it comes back by asking an alive node for the WAL delta of its
own recovery point and appending the records it is given. The bookkeeping of what
a dead node missed is part of the state (`missed`), no node reads it.
-/

namespace Qdrant

/-! ## Catching up

A node that missed a sequence of operations with consecutive clock ticks is a
prefix of a node that has them. Resolving the WAL delta for it returns exactly
the first record it missed, and writing the records from there on reproduces the
other node.
-/

open List RecoveryPoint

variable {Op : Type}

/-! ## Consecutive ticks -/

/-- The operation carries a tag of clock `k`. -/
def OperationWithClockTag.HasKey (op : OperationWithClockTag Op) (k : Key) : Prop :=
  ∃ tag ∈ op.clockTag, Key.fromTag tag = k

/-- The clocks after an accepted operation. -/
def ClockMap.accept (m : ClockMap) (op : OperationWithClockTag Op) : ClockMap :=
  match op.clockTag with
  | none => m
  | some tag => m.setClock tag

/-- The operation carries the next tick of its clock. -/
def ClockMap.IsNext (m : ClockMap) (op : OperationWithClockTag Op) : Prop :=
  ∃ tag, op.clockTag = some tag ∧
    tag.clockTick.toNat = (m.tick (Key.fromTag tag)).toNat + 1

/-- Every operation carries the next tick of its clock. -/
def Consecutive (m : ClockMap) : List (OperationWithClockTag Op) → Prop
  | [] => True
  | op :: ops => m.IsNext op ∧ Consecutive (m.accept op) ops

variable {m : ClockMap}

theorem consecutive_append {ops ops' : List (OperationWithClockTag Op)} :
    Consecutive m (ops ++ ops') ↔
      Consecutive m ops ∧ Consecutive (ops.foldl ClockMap.accept m) ops' := by
  induction ops generalizing m with
  | nil => simp [Consecutive]
  | cons op ops ih => simp only [cons_append, Consecutive, ih, foldl_cons, and_assoc]

variable {op : OperationWithClockTag Op}

/-- One consecutive operation advances its clock by one and leaves the others. -/
theorem ClockMap.IsNext.tick_accept (h : m.IsNext op) (k : Key) :
    (m.tick k < (m.accept op).tick k ∧ op.HasKey k) ∨
      ((m.accept op).tick k = m.tick k ∧ ¬ op.HasKey k) := by
  obtain ⟨tag, htag, htick⟩ := h
  simp only [ClockMap.accept, htag, ClockMap.tick_setClock, OperationWithClockTag.HasKey,
    Option.mem_def, Option.some.injEq, exists_eq_left']
  by_cases hk : k = Key.fromTag tag
  · refine .inl ⟨?_, hk.symm⟩
    rw [if_pos hk, UInt64.lt_iff_toNat_lt, hk]
    omega
  · exact .inr ⟨if_neg hk, fun heq => hk heq.symm⟩

/-- A tracked clock stays tracked when the next operation is accepted, with no smaller tick. -/
theorem ClockMap.IsNext.tracked {k : Key} {c : Clock} (h : m.IsNext op)
    (hc : m.clocks.get? k = some c) :
    ∃ c', (m.accept op).clocks.get? k = some c' ∧ c.currentTick ≤ c'.currentTick := by
  obtain ⟨tag, htag, htick⟩ := h
  simp only [ClockMap.accept, htag, ClockMap.setClock, HashMap.get?_insert]
  split
  · next heq =>
    refine ⟨_, rfl, ?_⟩
    rw [← heq, ClockMap.tick_of_get?_eq_some hc] at htick
    change c.currentTick.toNat ≤ tag.clockTick.toNat
    omega
  · exact ⟨c, hc, UInt64.le_refl _⟩

/-- Along consecutive operations no clock goes back, and it moves exactly if one of them
carries it. -/
theorem Consecutive.tick_foldl_accept {ops : List (OperationWithClockTag Op)}
    (h : Consecutive m ops) (k : Key) :
    (m.tick k < (ops.foldl ClockMap.accept m).tick k ∧ ∃ op ∈ ops, op.HasKey k) ∨
      ((ops.foldl ClockMap.accept m).tick k = m.tick k ∧ ∀ op ∈ ops, ¬ op.HasKey k) := by
  induction ops generalizing m with
  | nil => exact .inr ⟨rfl, by simp⟩
  | cons op ops ih =>
    obtain ⟨hop, hops⟩ := h
    simp only [exists_mem_cons_iff, forall_mem_cons]
    rcases hop.tick_accept k with ⟨hlt, hkey⟩ | ⟨heq, hkey⟩ <;>
      rcases ih hops with ⟨hlt', hkey'⟩ | ⟨heq', hkey'⟩
    · exact .inl ⟨by grind, .inl hkey⟩
    · exact .inl ⟨by grind, .inl hkey⟩
    · exact .inl ⟨by grind, .inr hkey'⟩
    · exact .inr ⟨by grind, hkey, hkey'⟩

/-! ## Scrolling over missed records -/

/-- The entry the resolver reads for a record. -/
def toEntry (r : Nat × OperationWithClockTag Op) : Except WalError (Nat × Option ClockTag) :=
  .ok (r.1, r.2.clockTag)

/-- The clocks of the missed operations are pending, each at the first tick missed. -/
def PendingFor (m : ClockMap) (missed : List (OperationWithClockTag Op)) (pending : RecoveryPoint) :
    Prop :=
  ∀ k, ((∃ op ∈ missed, op.HasKey k) → pending.get k = some (m.tick k + 1)) ∧
    ((∀ op ∈ missed, ¬ op.HasKey k) → pending.get k = none)

variable {pending : RecoveryPoint} {tag : ClockTag}

/-- Scrolling over the last missed record leaves the clocks of the others pending. -/
theorem PendingFor.remove {missed : List (OperationWithClockTag Op)}
    (hcons : Consecutive m (missed ++ [op])) (htag : op.clockTag = some tag)
    (h : PendingFor m (missed ++ [op]) pending) :
    PendingFor m missed (pending.removeClockIfNewerOrEqualToTag tag).1 := by
  obtain ⟨hmissed, ⟨tag', htag', htick⟩, _⟩ := consecutive_append.mp hcons
  cases htag.symm.trans htag'
  have hopkey : ∀ k, op.HasKey k ↔ Key.fromTag tag = k := by
    simp [OperationWithClockTag.HasKey, htag]
  intro k
  have hk := h k
  simp only [mem_append, mem_singleton, or_imp, forall_and, forall_eq, or_and_right,
    exists_or, exists_eq_left, hopkey] at hk
  rw [get_removeClockIfNewerOrEqualToTag]
  by_cases hkey : k = Key.fromTag tag
  · subst hkey
    have hpend : pending.get (Key.fromTag tag) = some (m.tick (Key.fromTag tag) + 1) := hk.1.2 rfl
    rw [hpend]
    -- the clock is removed exactly if this was the first missed record that carries it
    have hnext : ∀ x : UInt64, x < tag.clockTick ↔ x ≤ (missed.foldl ClockMap.accept m).tick
        (Key.fromTag tag) := by
      intro x
      rw [UInt64.lt_iff_toNat_lt, UInt64.le_iff_toNat_le]
      omega
    rcases hmissed.tick_foldl_accept (Key.fromTag tag) with ⟨hlt, hex⟩ | ⟨heq, hnone⟩
    · have hkeep : m.tick (Key.fromTag tag) + 1 < tag.clockTick := by rw [hnext]; grind
      refine ⟨fun _ => by simp [hkeep], fun hall => ?_⟩
      obtain ⟨op', hop', hkey'⟩ := hex
      exact absurd hkey' (hall op' hop')
    · have hdrop : ¬ m.tick (Key.fromTag tag) + 1 < tag.clockTick := by
        have htick' : tag.clockTick.toNat = (m.tick (Key.fromTag tag)).toNat + 1 := heq ▸ htick
        have hbound := tag.clockTick.toNat_lt
        rw [UInt64.lt_iff_toNat_lt, UInt64.toNat_add]
        simp only [UInt64.reduceToNat]
        omega
      refine ⟨fun ⟨op', hop', hkey'⟩ => absurd hkey' (hnone op' hop'), fun _ => ?_⟩
      simp [Option.filter, hdrop]
  · rw [if_neg hkey]
    have hne : ¬ Key.fromTag tag = k := fun heq => hkey heq.symm
    refine ⟨hk.1.1, fun hall => hk.2 ⟨hall, hne⟩⟩

/-- The flag is set when the last record left is scrolled over. -/
theorem PendingFor.flag (hnext : m.IsNext op) (htag : op.clockTag = some tag)
    (h : PendingFor m [op] pending) : (pending.removeClockIfNewerOrEqualToTag tag).2 = true := by
  obtain ⟨tag', htag', htick⟩ := hnext
  cases htag.symm.trans htag'
  rw [removeClockIfNewerOrEqualToTag_flag,
    (h (Key.fromTag tag)).1 ⟨op, mem_singleton_self op, tag, htag, rfl⟩]
  have hbound := tag.clockTick.toNat_lt
  congr 1
  rw [← UInt64.toNat_inj, UInt64.toNat_add]
  simp only [UInt64.reduceToNat]
  omega

/-- With the clocks of the missed records pending, scrolling back over them ends at the
first one. The induction removes records from the end, as the resolver does. -/
theorem scrollBack_missed (missed : List (Nat × OperationWithClockTag Op))
    (older : List (Except WalError (Nat × Option ClockTag))) (hne : missed ≠ []) :
    ∀ (pending : RecoveryPoint) (last : Option Nat), Consecutive m (missed.map Prod.snd) →
      PendingFor m (missed.map Prod.snd) pending →
      scrollBack pending last ((missed.map toEntry).reverse ++ older) =
        .ok (missed.head?.map Prod.fst) := by
  induction missed using List.reverseRecOn with
  | nil => exact absurd rfl hne
  | append_singleton missed r ih =>
    intro pending last hcons hpend
    simp only [map_append, map_cons] at hcons hpend
    obtain ⟨hmissed, ⟨tag, htag, _⟩, _⟩ := consecutive_append.mp hcons
    have hpend' := hpend.remove hcons htag
    simp only [map_append, map_cons, map_nil, reverse_append,
      reverse_cons, reverse_nil, nil_append, cons_append, toEntry, htag,
      scrollBack]
    cases missed with
    | nil =>
      have hempty : (pending.removeClockIfNewerOrEqualToTag tag).1.isEmpty = true :=
        isEmpty_iff.mpr fun k => (hpend' k).2 (by simp)
      rw [if_pos hempty, hpend.flag hcons.1 htag]
      rfl
    | cons r' missed =>
      have hfull : ¬ (pending.removeClockIfNewerOrEqualToTag tag).1.isEmpty = true := by
        obtain ⟨tag', htag', _⟩ := hmissed.1
        have hsome := (hpend' (Key.fromTag tag')).1 ⟨r'.2, mem_cons_self, tag', htag', rfl⟩
        rw [RecoveryPoint.isEmpty_iff]
        intro hall
        rw [hall] at hsome
        cases hsome
      rw [if_neg hfull]
      exact ih (by simp) _ _ hmissed hpend'

/-! ## Resolving for a node that is behind -/

/-- A node whose clocks can be asked about: there is no snapshot, some clock is tracked,
every cut-off tick has been seen, and no clock is at the last tick. -/
structure RecoverableWal.Ready (w : RecoverableWal Op) : Prop where
  noSnapshot : w.newestClocks.snapshot = none
  tracked : ∃ k c, w.newestClocks.clocks.get? k = some c
  cutoffSeen : ∀ k o, w.oldestClocks.toRecoveryPoint.get k = some o →
    ∃ c, w.newestClocks.clocks.get? k = some c ∧ o ≤ c.currentTick
  notLast : ∀ k, (w.newestClocks.tick k).toNat + 1 < 2 ^ 64

/-- The node after an accepted operation. -/
def RecoverableWal.accept (w : RecoverableWal Op) (op : OperationWithClockTag Op) :
    RecoverableWal Op :=
  { w with wal := (w.wal.write op).1, newestClocks := w.newestClocks.accept op }

namespace RecoverableWal

variable {w : RecoverableWal Op}

@[simp] theorem recoveryPoint_get (h : w.Ready) (k : Key) :
    w.recoveryPoint.get k = (w.newestClocks.clocks.get? k).map Clock.currentTick :=
  get_toRecoveryPoint h.noSnapshot k

variable {op : OperationWithClockTag Op}

/-- An operation with the next tick is written. -/
theorem lockAndWrite_of_isNext (h : w.newestClocks.IsNext op) :
    w.lockAndWrite op .success = (.ok w.wal.nextIndex, op, w.accept op) := by
  obtain ⟨operation, clockTag⟩ := op
  obtain ⟨tag, rfl, htick⟩ := h
  have hnewer : w.newestClocks.IsNewer tag := by
    rw [ClockMap.IsNewer, UInt64.lt_iff_toNat_lt]
    omega
  simp [lockAndWrite, advanceNewestClocks, ClockMap.advanceClockAndCorrectTag,
    ClockMap.advanceClockImpl_of_isNewer hnewer, appendRecord, WriteIo.success, accept,
    ClockMap.accept, SerdeWal.write]

variable {ops : List (OperationWithClockTag Op)}

/-- Consecutive operations are all written. -/
theorem writeAll_of_consecutive
    (h : Consecutive w.newestClocks ops) : w.writeAll ops = (.ok (), ops.foldl accept w) := by
  induction ops generalizing w with
  | nil => rfl
  | cons op ops ih =>
    rw [writeAll, lockAndWrite_of_isNext h.1]
    exact ih h.2

section

variable (w : RecoverableWal Op) (ops : List (OperationWithClockTag Op))

theorem foldl_accept_fields :
    (ops.foldl accept w).newestClocks = ops.foldl ClockMap.accept w.newestClocks ∧
      (ops.foldl accept w).oldestClocks = w.oldestClocks ∧
      (ops.foldl accept w).wal.entries = w.wal.entries ++ ops ∧
      (ops.foldl accept w).wal.firstClosedIndex = w.wal.firstClosedIndex := by
  induction ops generalizing w with
  | nil => simp
  | cons op ops ih =>
    obtain ⟨hnewest, holdest, hentries, hfirst⟩ := ih (w.accept op)
    exact ⟨hnewest, holdest, hentries.trans (append_assoc ..), hfirst⟩

/-- The records of a node that has seen some operations more. -/
theorem foldl_accept_records : (ops.foldl accept w).wal.records =
      w.wal.records ++ (List.range' w.wal.nextIndex ops.length).zip ops := by
  obtain ⟨-, -, hentries, hfirst⟩ := foldl_accept_fields w ops
  simp only [SerdeWal.records, SerdeWal.nextIndex, hentries, hfirst, length_append]
  rw [← List.range'_append_1, zip_append (by simp)]

end

/-- An accepted operation keeps a node ready, as long as its clock does not reach the last
tick. -/
theorem Ready.accept (h : w.Ready) (hnext : w.newestClocks.IsNext op)
    (hlast : ∀ k, ((w.newestClocks.accept op).tick k).toNat + 1 < 2 ^ 64) :
    (w.accept op).Ready := by
  refine ⟨?_, ?_, ?_, hlast⟩
  · obtain ⟨operation, clockTag⟩ := op
    obtain ⟨tag, rfl, -⟩ := hnext
    exact h.noSnapshot
  · obtain ⟨k, c, hc⟩ := h.tracked
    exact ⟨k, (hnext.tracked hc).imp fun _ hc' => hc'.1⟩
  · intro k o ho
    obtain ⟨c, hc, hle⟩ := h.cutoffSeen k o ho
    exact (hnext.tracked hc).imp fun _ hc' => ⟨hc'.1, UInt64.le_trans hle hc'.2⟩

variable {w' : RecoverableWal Op} {missed : List (OperationWithClockTag Op)}

/-- The prepared recovery point of a node that is behind: the clocks of what it missed. -/
theorem pendingFor_preparedPoint (hw : w.Ready) (hw' : w'.Ready)
    (hcons : Consecutive w.newestClocks missed)
    (hclocks : w'.newestClocks = missed.foldl ClockMap.accept w.newestClocks) (token : ClockToken)
    (hnewer : w.recoveryPoint.hasAnyNewerClocksThan w'.recoveryPoint = false) :
    PendingFor w.newestClocks missed (preparedPoint w.recoveryPoint w'.recoveryPoint token) := by
  intro k
  have hget : (preparedPoint w.recoveryPoint w'.recoveryPoint token).get k =
      if w.newestClocks.tick k < w'.newestClocks.tick k then some (w.newestClocks.tick k + 1)
      else none := by
    rw [get_preparedPoint token hnewer, requested, recoveryPoint_get hw,
      recoveryPoint_get hw', ← ClockMap.tick]
    cases hk : w'.newestClocks.clocks.get? k with
    | none => simp [ClockMap.tick_of_get?_eq_none hk]
    | some c => simp [ClockMap.tick_of_get?_eq_some hk]
  rw [hget, hclocks]
  rcases hcons.tick_foldl_accept k with ⟨hlt, hex⟩ | ⟨heq, hall⟩
  · refine ⟨fun _ => if_pos hlt, fun hnone => ?_⟩
    obtain ⟨op, hop, hkey⟩ := hex
    exact absurd hkey (hnone op hop)
  · refine ⟨?_, fun _ => if_neg ?_⟩
    · rintro ⟨op, hop, hkey⟩
      exact absurd hkey (hall op hop)
    · rw [heq]
      exact UInt64.lt_irrefl _

/-- A node that has seen more passes all checks of the resolver for a node behind it. -/
theorem resolveWalDelta_checks (hw : w.Ready) (hw' : w'.Ready)
    (htracked : ∀ k c, w.newestClocks.clocks.get? k = some c →
      ∃ c', w'.newestClocks.clocks.get? k = some c' ∧ c.currentTick ≤ c'.currentTick)
    (holdest : w'.oldestClocks = w.oldestClocks) (token : ClockToken) :
    w.recoveryPoint.isEmpty = false ∧
    w.recoveryPoint.hasClocksNotIn w'.recoveryPoint = false ∧
    w.recoveryPoint.hasAnyNewerClocksThan w'.recoveryPoint = false ∧
    ((w.recoveryPoint.increaseAllClocksBy 1).initializeClocksMissingFrom
      (w'.recoveryPoint.increaseAllClocksBy 1) token).hasAnyOlderClocksThan
      (w'.oldestClocks.toRecoveryPoint.increaseAllClocksBy 1) = false := by
  rw [isEmpty_eq_false, hasClocksNotIn_eq_false,
    hasAnyNewerClocksThan_eq_false, hasAnyOlderClocksThan_eq_false]
  have hnewer : ∀ k t, w.recoveryPoint.get k = some t →
      ∃ t', w'.recoveryPoint.get k = some t' ∧ t ≤ t' := by
    intro k t ht
    rw [recoveryPoint_get hw, Option.map_eq_some_iff] at ht
    obtain ⟨c, hc, rfl⟩ := ht
    obtain ⟨c', hc', hle⟩ := htracked k c hc
    exact ⟨c'.currentTick, by rw [recoveryPoint_get hw', hc', Option.map_some], hle⟩
  refine ⟨?_, fun k t ht => (hnewer k t ht).imp fun _ h => h.1, hnewer, ?_⟩
  · obtain ⟨k, c, hc⟩ := hw.tracked
    exact ⟨k, c.currentTick, by rw [recoveryPoint_get hw, hc, Option.map_some]⟩
  · intro k t ht o ho
    rw [holdest, get_increaseAllClocksBy, Option.map_eq_some_iff] at ho
    obtain ⟨o, ho, rfl⟩ := ho
    -- a cut-off clock is one the node behind tracks, with a tick that is not older
    obtain ⟨c, hc, hle⟩ := hw.cutoffSeen k o ho
    have hlast := hw.notLast k
    rw [ClockMap.tick_of_get?_eq_some hc] at hlast
    rw [get_initializeClocksMissingFrom, get_increaseAllClocksBy,
      recoveryPoint_get hw, hc, Option.map_some, Option.map_some, Option.some_or,
      Option.some.injEq] at ht
    subst ht
    rw [UInt64.le_iff_toNat_le] at hle ⊢
    rw [UInt64.toNat_add, UInt64.toNat_add]
    simp only [UInt64.reduceToNat]
    omega

/-- Clocks stay tracked along consecutive operations, with no smaller tick. -/
theorem foldl_accept_tracked {m : ClockMap}
    (hcons : Consecutive m ops) {k : Key} {c : Clock} (hc : m.clocks.get? k = some c) :
    ∃ c', (ops.foldl ClockMap.accept m).clocks.get? k = some c' ∧ c.currentTick ≤ c'.currentTick := by
  induction ops generalizing m c with
  | nil => exact ⟨c, hc, UInt64.le_refl _⟩
  | cons op ops ih =>
    obtain ⟨c', hc', hle⟩ := hcons.1.tracked hc
    obtain ⟨c'', hc'', hle'⟩ := ih hcons.2 hc'
    exact ⟨c'', hc'', UInt64.le_trans hle hle'⟩

/-- For a node that missed some operations, a node that has them answers with the record
of the first one. -/
theorem resolveWalDelta_behind (hw : w.Ready) (hw' : w'.Ready)
    (hcons : Consecutive w.newestClocks missed)
    (hfold : w' = missed.foldl accept w) (token : ClockToken) :
    w'.resolveWalDelta w.recoveryPoint token =
      .ok (((List.range' w.wal.nextIndex missed.length).zip missed).head?.map Prod.fst) := by
  obtain ⟨hclocks, holdest, -⟩ := hfold ▸ foldl_accept_fields w missed
  obtain ⟨hempty, hknown, hnewer, holder⟩ := resolveWalDelta_checks hw hw'
    (fun k c hc => hclocks ▸ foldl_accept_tracked hcons hc) holdest token
  have hpending := pendingFor_preparedPoint hw hw' hcons hclocks token hnewer
  have hrecords : ((w'.wal.readAll true).map fun e => e.map fun r => (r.1, r.2.clockTag)) =
      (w.wal.records.map toEntry) ++
        ((List.range' w.wal.nextIndex missed.length).zip missed).map toEntry := by
    rw [SerdeWal.readAll_eq_records, map_map, hfold, foldl_accept_records, map_append]
    rfl
  unfold RecoverableWal.resolveWalDelta Qdrant.resolveWalDelta
  simp only [hempty, hknown, hnewer, holder, Bool.false_eq_true]
  change (if (preparedPoint w.recoveryPoint w'.recoveryPoint token).isEmpty = true then
    Except.ok none else scrollBack (preparedPoint w.recoveryPoint w'.recoveryPoint token) none _) = _
  cases missed with
  | nil =>
    rw [if_pos (isEmpty_iff.mpr fun k => (hpending k).2 (by simp))]
    rfl
  | cons op missed =>
    have hsnd : ((List.range' w.wal.nextIndex (op :: missed).length).zip (op :: missed)).map
        Prod.snd = op :: missed := map_snd_zip (by simp)
    have hfull : ¬ (preparedPoint w.recoveryPoint w'.recoveryPoint token).isEmpty = true := by
      obtain ⟨tag, htag, _⟩ := hcons.1
      have hsome := (hpending (Key.fromTag tag)).1 ⟨op, mem_cons_self, tag, htag, rfl⟩
      rw [RecoveryPoint.isEmpty_iff]
      intro hall
      rw [hall] at hsome
      cases hsome
    rw [if_neg hfull, hrecords, reverse_append]
    exact scrollBack_missed _ _ (by simp [List.range'_succ]) _ _ (by rw [hsnd]; exact hcons)
      (by rw [hsnd]; exact hpending)

theorem collect_map_ok {R : Type} (rs : List (Nat × R)) :
    collect (rs.map Except.ok) = .ok (rs.map Prod.snd) := by
  induction rs with
  | nil => rfl
  | cons r rs ih => simp only [map_cons, collect, ih]

/-- Appending the records from the first missed one on is accepted, and makes up the
difference. -/
theorem appendFrom_behind (hcons : Consecutive w.newestClocks missed)
    (hfold : w' = missed.foldl accept w) : w.appendFrom w' w.wal.nextIndex = (.ok (), w') := by
  obtain ⟨-, -, -, hfirst⟩ := hfold ▸ foldl_accept_fields w missed
  have hread : w'.wal.read w.wal.nextIndex =
      ((List.range' w.wal.nextIndex missed.length).zip missed).map .ok := by
    rw [SerdeWal.nextIndex, ← hfirst, SerdeWal.read_eq_records, hfirst, hfold,
      foldl_accept_records, drop_left' (by simp [SerdeWal.records])]
    rfl
  rw [appendFrom, hread, collect_map_ok, map_snd_zip (by simp)]
  simp only
  rw [writeAll_of_consecutive hcons, hfold]

end RecoverableWal

open Function

variable {ι : Type} [DecidableEq ι]

structure Cluster (Op ι : Type) where
  /-- The peer ID of each node. -/
  peerId : ι → PeerId
  nodes : ι → RecoverableWal Op
  alive : ι → Bool
  /-- The next tick of every clock, kept by the node the clock belongs to. -/
  nextTick : Key → UInt64
  /-- What was written, with its record number, since a node died. -/
  missed : ι → List (Nat × OperationWithClockTag Op)

inductive ClusterLabel (Op ι : Type) where
  /-- An operation enters the cluster at a node and takes the next tick of one of its clocks. -/
  | write (entry : ι) (clockId : UInt32) (operation : Op) (token : ClockToken)
  | kill (node : ι)
  | recover (node source : ι) (token : ClockToken)

namespace Cluster

/-- The operation that a write at `entry` sends to all nodes. -/
def taggedOperation (c : Cluster Op ι) (entry : ι) (clockId : UInt32) (operation : Op)
    (token : ClockToken) : OperationWithClockTag Op :=
  let tick := c.nextTick ⟨c.peerId entry, clockId⟩
  { operation, clockTag := some (.newWithToken (c.peerId entry) clockId tick token) }

/-- Bring a node up to date with another one: resolve the WAL delta there, and append
the records from the returned one on. -/
def recoverFrom (w source : RecoverableWal Op) (token : ClockToken) : Option (RecoverableWal Op) :=
  match source.resolveWalDelta w.recoveryPoint token with
  | .error _ => none
  | .ok none => some w
  | .ok (some start) =>
    match w.appendFrom source start with
    | (.error _, _) => none
    | (.ok _, w') => some w'

def step (c : Cluster Op ι) : ClusterLabel Op ι → Option (Cluster Op ι)
  | .write entry clockId operation token =>
    let key : Key := ⟨c.peerId entry, clockId⟩
    let tick := c.nextTick key
    -- ticks are consecutive, so the counter of the clock does not wrap around
    if c.alive entry ∧ tick < tick + 1 then
      let op := c.taggedOperation entry clockId operation token
      some { c with
        nodes := fun n => if c.alive n then ((c.nodes n).lockAndWrite op .success).2.2 else c.nodes n
        nextTick := update c.nextTick key (tick + 1)
        missed := fun n =>
          if c.alive n then [] else c.missed n ++ [((c.nodes entry).wal.nextIndex, op)] }
    else none
  | .kill node =>
    if c.alive node then
      some { c with
        alive := update c.alive node false
        missed := update c.missed node [] }
    else none
  | .recover node source token =>
    if !c.alive node ∧ c.alive source then
      match recoverFrom (c.nodes node) (c.nodes source) token with
      | none => none
      | some w =>
        some { c with
          nodes := update c.nodes node w
          alive := update c.alive node true }
    else none

/-- Where a run starts: all nodes have the same log, which holds a tagged record; the
newest clocks cover the log and the cut-off, and every clock continues after them. -/
structure Initial (c : Cluster Op ι) (w : RecoverableWal Op) : Prop where
  same : ∀ n, c.nodes n = w
  nothingMissed : ∀ n, c.missed n = []
  noSnapshot : w.newestClocks.snapshot = none
  tagged : w.taggedRecords ≠ []
  covered : CoversLog w.recoveryPoint w.taggedRecords
  cutoffSeen : ∀ k o, w.oldestClocks.toRecoveryPoint.get k = some o →
    ∃ t, w.recoveryPoint.get k = some t ∧ o ≤ t
  nextTick : ∀ k, (c.nextTick k).toNat = (w.newestClocks.tick k).toNat + 1

/-! ## The invariant -/

/-- `w` is behind `w'` by the missed records. -/
structure Behind (w w' : RecoverableWal Op) (missed : List (Nat × OperationWithClockTag Op)) :
    Prop where
  consecutive : Consecutive w.newestClocks (missed.map Prod.snd)
  catchesUp : w' = (missed.map Prod.snd).foldl RecoverableWal.accept w
  numbered : (List.range' w.wal.nextIndex (missed.map Prod.snd).length).zip
    (missed.map Prod.snd) = missed

/-- The alive nodes are all equal to `front`, and every dead node is behind it by what it
missed. -/
structure Inv (c : Cluster Op ι) (front : RecoverableWal Op) : Prop where
  alive : ∀ n, c.alive n = true → c.nodes n = front
  dead : ∀ n, c.alive n = false → Behind (c.nodes n) front (c.missed n)
  ready : ∀ n, (c.nodes n).Ready
  frontReady : front.Ready
  nextTick : ∀ k, (c.nextTick k).toNat = (front.newestClocks.tick k).toNat + 1

variable {w : RecoverableWal Op} {c : Cluster Op ι}

omit [DecidableEq ι] in
theorem Initial.inv (h : c.Initial w) : c.Inv w := by
  have hget : ∀ k t, w.recoveryPoint.get k = some t →
      ∃ clock, w.newestClocks.clocks.get? k = some clock ∧ clock.currentTick = t := by
    intro k t ht
    exact Option.map_eq_some_iff.mp
      ((RecoveryPoint.get_toRecoveryPoint h.noSnapshot k).symm.trans ht)
  have hready : w.Ready := by
    refine ⟨h.noSnapshot, ?_, ?_, ?_⟩
    · obtain ⟨r, hr⟩ := exists_mem_of_ne_nil _ h.tagged
      obtain ⟨t, ht, _⟩ := h.covered r hr
      obtain ⟨clock, hclock, _⟩ := hget _ t ht
      exact ⟨_, clock, hclock⟩
    · intro k o ho
      obtain ⟨t, ht, hle⟩ := h.cutoffSeen k o ho
      obtain ⟨clock, hclock, rfl⟩ := hget k t ht
      exact ⟨clock, hclock, hle⟩
    · intro k
      have hnext := h.nextTick k
      have hbound := (c.nextTick k).toNat_lt
      omega
  refine ⟨fun n _ => h.same n, fun n _ => ?_, fun n => h.same n ▸ hready, hready, h.nextTick⟩
  rw [h.same, h.nothingMissed]
  exact ⟨trivial, rfl, rfl⟩

variable {w' : RecoverableWal Op} {missed : List (Nat × OperationWithClockTag Op)}

section

variable (h : Behind w w' missed)

include h

/-- A node that is behind by some records and misses one more. -/
theorem Behind.snoc {op : OperationWithClockTag Op} (hop : w'.newestClocks.IsNext op) :
    Behind w (w'.accept op) (missed ++ [(w'.wal.nextIndex, op)]) := by
  obtain ⟨hclocks, -, hentries, hfirst⟩ :=
    h.catchesUp ▸ RecoverableWal.foldl_accept_fields w (missed.map Prod.snd)
  have hindex : w'.wal.nextIndex = w.wal.nextIndex + (missed.map Prod.snd).length := by
    rw [SerdeWal.nextIndex, hentries, hfirst, length_append, SerdeWal.nextIndex, Nat.add_assoc]
  refine ⟨?_, ?_, ?_⟩
  · rw [map_append, consecutive_append]
    exact ⟨h.consecutive, hclocks ▸ hop, trivial⟩
  · rw [map_append, foldl_append, ← h.catchesUp]
    rfl
  · rw [map_append, length_append, ← List.range'_append_1, zip_append (by simp),
      h.numbered, hindex]
    rfl

/-- The answer an up-to-date node gives, and what appending from it on leads to. -/
theorem Behind.resolve (hw : w.Ready) (hw' : w'.Ready) (token : ClockToken) :
    w'.resolveWalDelta w.recoveryPoint token = .ok (missed.head?.map Prod.fst) := by
  have hanswer := RecoverableWal.resolveWalDelta_behind hw hw' h.consecutive h.catchesUp token
  rwa [h.numbered] at hanswer

theorem Behind.head {start : Nat} (hstart : missed.head?.map Prod.fst = some start) :
    start = w.wal.nextIndex := by
  cases missed with
  | nil => cases hstart
  | cons r missed =>
    have hnum := h.numbered
    simp only [map_cons, length_cons, List.range'_succ, zip_cons_cons,
      cons.injEq] at hnum
    have hr : r.1 = start := by simpa using hstart
    rw [← hr, ← hnum.1]

theorem Behind.appendFrom {start : Nat}
    (hstart : missed.head?.map Prod.fst = some start) : w.appendFrom w' start = (.ok (), w') := by
  rw [h.head hstart]
  exact RecoverableWal.appendFrom_behind h.consecutive h.catchesUp

theorem Behind.eq_of_nil (hnone : missed.head?.map Prod.fst = none) : w = w' := by
  cases missed with
  | nil => exact h.catchesUp.symm
  | cons r missed => cases hnone

/-- Recovering a node that is behind makes it equal to the source. -/
theorem Behind.recoverFrom (hw : w.Ready)
    (hw' : w'.Ready) (token : ClockToken) : Cluster.recoverFrom w w' token = some w' := by
  unfold Cluster.recoverFrom
  rw [h.resolve hw hw' token]
  cases hhead : missed.head?.map Prod.fst with
  | none => exact congrArg some (h.eq_of_nil hhead)
  | some start =>
    simp only
    rw [h.appendFrom hhead]

end

omit [DecidableEq ι] in
/-- The counters of the clocks follow the clock map of the alive nodes. -/
theorem Inv.nextTick_write {front : RecoverableWal Op} (h : c.Inv front)
    {entry : ι} {clockId : UInt32} (operation : Op) (token : ClockToken)
    (hwrap : c.nextTick ⟨c.peerId entry, clockId⟩ < c.nextTick ⟨c.peerId entry, clockId⟩ + 1)
    (k : Key) :
    (update c.nextTick ⟨c.peerId entry, clockId⟩
      (c.nextTick ⟨c.peerId entry, clockId⟩ + 1) k).toNat =
    ((front.newestClocks.accept (c.taggedOperation entry clockId operation token)).tick k).toNat
      + 1 := by
  have htick : (front.newestClocks.accept
      (c.taggedOperation entry clockId operation token)).tick k =
      if k = ⟨c.peerId entry, clockId⟩ then c.nextTick ⟨c.peerId entry, clockId⟩
      else front.newestClocks.tick k :=
    ClockMap.tick_setClock _ _ k
  rw [htick]
  by_cases hk : k = ⟨c.peerId entry, clockId⟩
  · subst hk
    rw [update_self, if_pos rfl]
    rw [UInt64.lt_iff_toNat_lt, UInt64.toNat_add] at hwrap
    rw [UInt64.toNat_add]
    simp only [UInt64.reduceToNat] at *
    omega
  · rw [update_of_ne hk, if_neg hk]
    exact h.nextTick k

variable {c' : Cluster Op ι}

theorem inv_write {front : RecoverableWal Op} (h : c.Inv front) {entry : ι}
    {clockId : UInt32} {operation : Op} {token : ClockToken}
    (hstep : c.step (.write entry clockId operation token) = some c') :
    c'.Inv (front.accept (c.taggedOperation entry clockId operation token)) := by
  have hnext : front.newestClocks.IsNext (c.taggedOperation entry clockId operation token) :=
    ⟨_, rfl, h.nextTick ⟨c.peerId entry, clockId⟩⟩
  simp only [step] at hstep
  split at hstep
  swap
  · cases hstep
  next hguard =>
    cases hstep
    obtain ⟨hentry, hwrap⟩ := hguard
    have hticks := h.nextTick_write operation token hwrap
    have hfront : (front.accept (c.taggedOperation entry clockId operation token)).Ready := by
      refine h.frontReady.accept hnext fun k => ?_
      rw [← hticks k]
      exact UInt64.toNat_lt _
    have halive : ∀ n, c.alive n = true →
        ((c.nodes n).lockAndWrite (c.taggedOperation entry clockId operation token) .success).2.2 =
          front.accept (c.taggedOperation entry clockId operation token) := by
      intro n hn
      rw [h.alive n hn, RecoverableWal.lockAndWrite_of_isNext hnext]
    refine ⟨fun n hn => ?_, fun n hn => ?_, fun n => ?_, hfront, hticks⟩
    · change c.alive n = true at hn
      simp only [hn]
      exact halive n hn
    · change c.alive n = false at hn
      simp only [hn, Bool.false_eq_true]
      rw [h.alive entry hentry]
      exact (h.dead n hn).snoc hnext
    · cases hn : c.alive n with
      | true =>
        simp only [hn]
        exact halive n hn ▸ hfront
      | false =>
        simp only [hn, Bool.false_eq_true]
        exact h.ready n

theorem inv_kill {front : RecoverableWal Op} (h : c.Inv front) {node : ι}
    (hstep : c.step (.kill node) = some c') : c'.Inv front := by
  simp only [step] at hstep
  split at hstep
  swap
  · cases hstep
  next halive =>
    cases hstep
    refine ⟨fun n hn => ?_, fun n hn => ?_, h.ready, h.frontReady, h.nextTick⟩
    · by_cases heq : n = node
      · subst heq
        simp at hn
      · exact h.alive n (by simpa [heq] using hn)
    · by_cases heq : n = node
      · subst heq
        simp only [update_self]
        rw [h.alive n halive]
        exact ⟨trivial, rfl, rfl⟩
      · simp only [update_of_ne heq] at hn ⊢
        exact h.dead n hn

theorem inv_recover {front : RecoverableWal Op} (h : c.Inv front)
    {node source : ι} {token : ClockToken} (hstep : c.step (.recover node source token) = some c') :
    c'.Inv front := by
  simp only [step] at hstep
  split at hstep
  swap
  · cases hstep
  next hguard =>
    obtain ⟨hnode, hsource⟩ := hguard
    have hdead : c.alive node = false := by simpa using hnode
    rw [h.alive source hsource, (h.dead node hdead).recoverFrom (h.ready node) h.frontReady] at hstep
    cases hstep
    refine ⟨fun n hn => ?_, fun n hn => ?_, fun n => ?_, h.frontReady, h.nextTick⟩
    · by_cases heq : n = node
      · simp [heq]
      · simp only [update_of_ne heq] at hn ⊢
        exact h.alive n hn
    · by_cases heq : n = node
      · simp [heq] at hn
      · simp only [update_of_ne heq] at hn ⊢
        exact h.dead n hn
    · by_cases heq : n = node
      · simp only [heq, update_self]
        exact h.frontReady
      · simp only [update_of_ne heq]
        exact h.ready n

theorem inv_step (c : Cluster Op ι) (l : ClusterLabel Op ι) (c' : Cluster Op ι)
    (h : ∃ front, c.Inv front) (hstep : c.step l = some c') : ∃ front, c'.Inv front := by
  obtain ⟨front, h⟩ := h
  cases l with
  | write entry clockId operation token => exact ⟨_, inv_write h hstep⟩
  | kill node => exact ⟨_, inv_kill h hstep⟩
  | recover node source token => exact ⟨_, inv_recover h hstep⟩

/-! ## Convergence -/

/-- After every run, a dead node that asks any alive node gets the same answer from all of
them: the record of the first operation it missed, or nothing if it missed none. The
records from there on are all accepted, and then its log is the log of the alive nodes. -/
theorem recovery_converges {start c : Cluster Op ι} {w : RecoverableWal Op}
    (hstart : start.Initial w) {schedule : List (ClusterLabel Op ι)}
    (hrun : Run.run step start schedule = some c) {dead : ι} (hdead : c.alive dead = false)
    {source : ι} (hsource : c.alive source = true) (token : ClockToken) :
    let answer := (c.nodes source).resolveWalDelta (c.nodes dead).recoveryPoint token
    (∀ other, c.alive other = true → ∀ token',
      (c.nodes other).resolveWalDelta (c.nodes dead).recoveryPoint token' = answer) ∧
    answer = .ok ((c.missed dead).head?.map Prod.fst) ∧
    (answer = .ok none → ∀ other, c.alive other = true → (c.nodes dead).wal = (c.nodes other).wal) ∧
    ∀ n, answer = .ok (some n) → ((c.nodes dead).appendFrom (c.nodes source) n).1 = .ok () ∧
      ∀ other, c.alive other = true →
        ((c.nodes dead).appendFrom (c.nodes source) n).2.wal = (c.nodes other).wal := by
  obtain ⟨front, hinv⟩ := Run.run_invariant (C := fun _ _ => True)
    (fun c l c' h _ => inv_step c l c' h) hrun (Run.guarded_of_forall (fun _ _ => trivial) _ _)
    ⟨w, hstart.inv⟩
  have hbehind := hinv.dead dead hdead
  have hanswer := hbehind.resolve (hinv.ready dead) hinv.frontReady
  intro answer
  have hans : answer = .ok ((c.missed dead).head?.map Prod.fst) := by
    simp only [answer, hinv.alive source hsource]
    exact hanswer token
  refine ⟨fun other hother token' => ?_, hans, fun hnone other hother => ?_, fun n hn => ?_⟩
  · rw [hans, hinv.alive other hother]
    exact hanswer token'
  · rw [hans, Except.ok.injEq] at hnone
    rw [hinv.alive other hother, hbehind.eq_of_nil hnone]
  · rw [hans, Except.ok.injEq] at hn
    rw [hinv.alive source hsource, hbehind.appendFrom hn]
    exact ⟨rfl, fun other hother => by rw [hinv.alive other hother]⟩

/-! ## Replication -/

def writtenOperation : ClusterLabel Op ι → Option Op
  | .write _ _ operation _ => some operation
  | _ => none

/-- One step appends what it writes to the log of the alive nodes. -/
theorem front_step {front : RecoverableWal Op} (h : c.Inv front) {l : ClusterLabel Op ι}
    (hstep : c.step l = some c') : ∃ front', c'.Inv front' ∧ front'.wal.entries.map (·.operation) =
      front.wal.entries.map (·.operation) ++ (writtenOperation l).toList := by
  cases l with
  | write entry clockId operation token => exact ⟨_, inv_write h hstep, map_append⟩
  | kill node => exact ⟨front, inv_kill h hstep, (append_nil _).symm⟩
  | recover node source token => exact ⟨front, inv_recover h hstep, (append_nil _).symm⟩

theorem exists_front {front : RecoverableWal Op} (h : c.Inv front)
    {schedule : List (ClusterLabel Op ι)}
    (hrun : Run.run step c schedule = some c') : ∃ front', c'.Inv front' ∧
      front'.wal.entries.map (·.operation) =
        front.wal.entries.map (·.operation) ++ schedule.filterMap writtenOperation := by
  induction schedule generalizing c front with
  | nil =>
    cases hrun
    exact ⟨front, h, (append_nil _).symm⟩
  | cons l schedule ih =>
    obtain ⟨t, hstep, hrest⟩ := Run.run_cons_eq_some.mp hrun
    obtain ⟨mid, hmid, hentries⟩ := front_step h hstep
    obtain ⟨front', h', hlog⟩ := ih hmid hrest
    refine ⟨front', h', ?_⟩
    rw [hlog, hentries, append_assoc]
    cases l <;> rfl

/-- Whichever nodes fail and recover, no write is lost or made twice: the alive nodes have the log
of the start and then the operations of the run in their order, a dead node has the first part. -/
theorem run_replicated {start : Cluster Op ι} (hstart : start.Initial w)
    {schedule : List (ClusterLabel Op ι)} (hrun : Run.run step start schedule = some c) :
    ∃ log, log.map (·.operation) =
        w.wal.entries.map (·.operation) ++ schedule.filterMap writtenOperation ∧
      (∀ n, c.alive n = true → (c.nodes n).wal.entries = log) ∧
      ∀ n, c.alive n = false → (c.nodes n).wal.entries <+: log := by
  obtain ⟨front, hinv, hlog⟩ := exists_front hstart.inv hrun
  refine ⟨front.wal.entries, hlog, fun n hn => by rw [hinv.alive n hn], fun n hn => ?_⟩
  have hfields := RecoverableWal.foldl_accept_fields (c.nodes n) ((c.missed n).map Prod.snd)
  rw [← (hinv.dead n hn).catchesUp] at hfields
  exact ⟨_, hfields.2.2.1.symm⟩

/-! ### Two nodes -/

/-- A log with one record, of clock `0` of peer `1`. -/
def sampleWal : RecoverableWal Unit :=
  RecoverableWal.accept
    { wal := .empty 0, newestClocks := .empty, oldestClocks := .empty }
    { operation := (), clockTag := some (.newWithToken 1 0 1 11) }

def sampleCluster : Cluster Unit Bool where
  peerId n := if n then 2 else 1
  nodes _ := sampleWal
  alive _ := true
  nextTick k := sampleWal.newestClocks.tick k + 1
  missed _ := []

theorem sampleCluster_initial : sampleCluster.Initial sampleWal where
  same _ := rfl
  nothingMissed _ := rfl
  noSnapshot := rfl
  tagged := by decide
  covered := by
    intro r hr
    rw [show sampleWal.taggedRecords = [(0, .newWithToken 1 0 1 11)] by decide,
      mem_singleton] at hr
    subst hr
    exact ⟨1, by decide⟩
  cutoffSeen := by
    intro k o ho
    rw [show sampleWal.oldestClocks.toRecoveryPoint = ⟨∅⟩ by decide] at ho
    simp [RecoveryPoint.get] at ho
  nextTick := by
    intro k
    have htick : sampleWal.newestClocks.tick k = if k = ⟨1, 0⟩ then 1 else 0 := by
      simp only [sampleWal, RecoverableWal.accept, ClockMap.accept, ClockMap.tick_setClock]
      rfl
    simp only [sampleCluster, htick]
    split <;> rfl

/-- Node `true` dies and misses two operations that enter at node `false`. -/
def sampleFailure : List (ClusterLabel Unit Bool) :=
  [.kill true, .write false 0 () 12, .write false 1 () 13]

theorem recovery_converges_sampleFailure : ∃ c, Run.run step sampleCluster sampleFailure = some c ∧
      (c.missed true).map Prod.fst = [1, 2] ∧
      (c.nodes false).resolveWalDelta (c.nodes true).recoveryPoint 0 = .ok (some 1) ∧
      ((c.nodes true).appendFrom (c.nodes false) 1).2.wal = (c.nodes false).wal := by
  obtain ⟨c, hc⟩ := Option.isSome_iff_exists.mp (show
    (Run.run step sampleCluster sampleFailure).isSome = true by decide)
  have hmap : ((Run.run step sampleCluster sampleFailure).map fun c =>
      (c.alive true, c.alive false, (c.missed true).map Prod.fst)) = some (false, true, [1, 2]) := by
    decide
  rw [hc, Option.map_some, Option.some.injEq, Prod.mk.injEq, Prod.mk.injEq] at hmap
  obtain ⟨hdead, halive, hmissed⟩ := hmap
  obtain ⟨_, hanswer, _, happend⟩ := recovery_converges sampleCluster_initial hc hdead halive 0
  have hhead : (c.missed true).head?.map Prod.fst = some 1 := by
    rw [← head?_map, hmissed]
    rfl
  rw [hhead] at hanswer
  exact ⟨c, hc, hmissed, hanswer, (happend 1 hanswer).2 false halive⟩

theorem run_replicated_sampleFailure :
    ∃ c log, Run.run step sampleCluster sampleFailure = some c ∧
      log.map (·.operation) = [(), (), ()] ∧
      ∀ n, c.alive n = true → (c.nodes n).wal.entries = log := by
  obtain ⟨c, hc⟩ : ∃ c, Run.run step sampleCluster sampleFailure = some c := ⟨_, rfl⟩
  obtain ⟨log, hlog, halive, -⟩ := run_replicated sampleCluster_initial hc
  exact ⟨c, log, hc, hlog, halive⟩

end Cluster

end Qdrant
