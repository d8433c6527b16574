-- SUMMARY: Overlapping writes to a recoverable WAL and the order of clock ticks in the log.
import Qdrant.Base.Run
import Qdrant.Wal.RecoverableWal

/-!
# Overlapping writes

`lock_and_write` advances the clock map under one lock and appends the record
under another one, so several calls can be between the two steps at the same
time. The state of the system is the recoverable WAL together with the calls that
have advanced their clock and have not appended yet.
-/

namespace Qdrant

open List

variable {Op : Type}

/-- The clock tag of an operation is not forced. -/
def OperationWithClockTag.NotForced (op : OperationWithClockTag Op) : Prop :=
  ∀ tag ∈ op.clockTag, tag.force = false

instance (op : OperationWithClockTag Op) : Decidable op.NotForced :=
  inferInstanceAs (Decidable (∀ tag ∈ op.clockTag, tag.force = false))

/-- The recoverable WAL and the calls of `lock_and_write` between their two steps. -/
structure WriteState (Op : Type) where
  wal : RecoverableWal Op
  pending : HashMap Nat (OperationWithClockTag Op)

/-- What can happen next: a call starts, a call appends its record (or fails to), or
the future of a call is dropped. -/
inductive WriteLabel (Op : Type) where
  | advance (call : Nat) (op : OperationWithClockTag Op)
  | append (call : Nat) (io : RecoverableWal.WriteIo)
  | cancel (call : Nat)

namespace WriteState

/-- One step of one call. Calls of the modelled runs carry tags that are not forced. -/
def step (s : WriteState Op) : WriteLabel Op → Option (WriteState Op)
  | .advance call op =>
    if (s.pending.get? call).isNone ∧ op.NotForced then
      match s.wal.advanceNewestClocks op with
      | (.ok _, op', wal) => some { wal, pending := s.pending.insert call op' }
      | (.error _, _, wal) => some { s with wal }
    else none
  | .append call io =>
    match s.pending.get? call with
    | none => none
    | some op => some { wal := (s.wal.appendRecord op io).2, pending := s.pending.erase call }
  | .cancel call =>
    match s.pending.get? call with
    | none => none
    | some _ => some { s with pending := s.pending.erase call }

end WriteState

/-! ## Tick order -/

/-- Tags of one clock have non-decreasing ticks. -/
def TicksLe (op op' : OperationWithClockTag Op) : Prop :=
  ∀ tag ∈ op.clockTag, ∀ tag' ∈ op'.clockTag,
    Key.fromTag tag = Key.fromTag tag' → tag.clockTick ≤ tag'.clockTick

instance (op op' : OperationWithClockTag Op) : Decidable (TicksLe op op') :=
  inferInstanceAs (Decidable (∀ tag ∈ op.clockTag, ∀ tag' ∈ op'.clockTag, _ → _))

/-- The records of every clock are in the log in non-decreasing tick order. -/
def TickOrdered (entries : List (OperationWithClockTag Op)) : Prop :=
  entries.Pairwise TicksLe

instance (entries : List (OperationWithClockTag Op)) : Decidable (TickOrdered entries) :=
  inferInstanceAs (Decidable (entries.Pairwise _))

/-- A log in tick order is in the order that WAL-delta resolution relies on. -/
theorem TickOrdered.clockOrdered {w : RecoverableWal Op} (h : TickOrdered w.wal.entries) :
    ClockOrdered w.taggedRecords := by
  have hrecords : w.wal.records.Pairwise fun r r' => r.1 < r'.1 ∧ TicksLe r.2 r'.2 := by
    refine w.wal.records_pairwise.and ?_
    rw [TickOrdered, ← w.wal.records_snd] at h
    exact pairwise_map.mp h
  have htagged : w.taggedRecords.Pairwise fun r r' =>
      r.1 < r'.1 ∧ (r.key = r'.key → r.tick ≤ r'.tick) := by
    refine pairwise_filterMap.mpr (hrecords.imp ?_)
    rintro r r' ⟨hnum, hle⟩ t ht t' ht'
    obtain ⟨tag, htag, rfl⟩ := Option.map_eq_some_iff.mp ht
    obtain ⟨tag', htag', rfl⟩ := Option.map_eq_some_iff.mp ht'
    exact ⟨hnum, hle tag htag tag' htag'⟩
  intro r hr r' hr' hkey hlt
  refine ⟨r', hr', hkey, rfl, ?_⟩
  -- of two records of a clock, the one with the smaller tick comes first
  have hcases : ∀ ⦃a⦄, a ∈ w.taggedRecords → ∀ ⦃b⦄, b ∈ w.taggedRecords →
      a.1 < b.1 ∨ (b.key = a.key → b.tick ≤ a.tick) :=
    List.Pairwise.forall_of_forall_of_flip (fun a _ => .inr fun _ => UInt64.le_refl _)
      (htagged.imp fun hab => .inl hab.1) (htagged.imp fun hab => .inr hab.2)
  rcases hcases hr hr' with hnum | hle
  · exact hnum
  · exact absurd hlt (UInt64.not_lt.mpr (hle hkey))

/-- The clock map has seen the tick of an operation. -/
def ClockMap.Seen (m : ClockMap) (op : OperationWithClockTag Op) : Prop :=
  ∀ tag ∈ op.clockTag, tag.clockTick ≤ m.tick (Key.fromTag tag)

/-- The log is in tick order and the clock map has seen all of it. -/
structure RecoverableWal.InOrder (w : RecoverableWal Op) : Prop where
  ordered : TickOrdered w.wal.entries
  seen : ∀ op ∈ w.wal.entries, w.newestClocks.Seen op

/-- What overlapping writes preserve as long as no call overtakes another one. -/
structure WriteState.Inv (s : WriteState Op) : Prop where
  inOrder : s.wal.InOrder
  /-- Nothing in the log is newer than a call that has yet to append. -/
  behind : ∀ call op, s.pending.get? call = some op → ∀ r ∈ s.wal.wal.entries, TicksLe r op
  pendingSeen : ∀ call op, s.pending.get? call = some op → s.wal.newestClocks.Seen op

/-- A call appends its record only when no other call that still has to append is behind
it on the same clock. -/
def WriteState.noOvertaking (s : WriteState Op) : WriteLabel Op → Bool
  | .append call io =>
    match s.pending.get? call with
    | none => true
    | some op =>
      io != .success ||
        !s.pending.any fun other op' => other != call && !decide (TicksLe op op')
  | _ => true

/-! ## The invariant -/

variable {op : OperationWithClockTag Op}

/-- What the first half of a write does: the log stays, no clock goes back, and the
clock of an accepted operation ends at its tick. -/
theorem RecoverableWal.advanceNewestClocks_spec (w : RecoverableWal Op) (hforce : op.NotForced)
    {res : Except WalError Unit} {op' : OperationWithClockTag Op} {w' : RecoverableWal Op}
    (h : w.advanceNewestClocks op = (res, op', w')) :
    w'.wal = w.wal ∧ (∀ k, w.newestClocks.tick k ≤ w'.newestClocks.tick k) ∧
    (res = .ok () → op' = op ∧ ∀ tag ∈ op.clockTag,
      w'.newestClocks.tick (Key.fromTag tag) = tag.clockTick) := by
  obtain ⟨operation, clockTag⟩ := op
  cases clockTag with
  | none =>
    cases h
    exact ⟨rfl, fun _ => UInt64.le_refl _, fun _ => ⟨rfl, by simp⟩⟩
  | some tag =>
    have hfalse : tag.force = false := hforce tag rfl
    simp only [advanceNewestClocks, ClockMap.advanceClockAndCorrectTag, hfalse, Bool.or_false,
      Prod.mk.injEq] at h
    obtain ⟨hres, hop, hw⟩ := h
    subst hw
    refine ⟨rfl, w.newestClocks.tick_le_tick_advanceClockImpl tag, fun hok => ?_⟩
    have haccepted : (w.newestClocks.advanceClockImpl tag).2.1 = true := by
      subst hok
      by_contra hrej
      simp [hrej] at hres
    refine ⟨by simp [← hop, haccepted], ?_⟩
    rintro _ ⟨⟩
    exact ClockMap.tick_advanceClockImpl_accepted haccepted

theorem ClockMap.Seen.mono {m m' : ClockMap}
    (hle : ∀ k, m.tick k ≤ m'.tick k) (h : m.Seen op) : m'.Seen op :=
  fun tag htag => UInt64.le_trans (h tag htag) (hle _)

/-- The second half of a write appends the record, or the first records of the WAL are left. -/
theorem RecoverableWal.appendRecord_cases (w : RecoverableWal Op) (op : OperationWithClockTag Op)
    (io : WriteIo) :
    (∃ wal, (w.appendRecord op io).2 = { w with wal } ∧ wal.entries <+: w.wal.entries) ∨
      (io = .success ∧ (w.appendRecord op io).2 = { w with wal := (w.wal.write op).1 }) := by
  obtain ⟨serializeError, appendError⟩ := io
  cases serializeError with
  | some err => exact .inl ⟨w.wal, rfl, prefix_rfl⟩
  | none =>
    cases appendError with
    | some err => exact .inl ⟨w.wal.loseOpenSegment err.lost, rfl, take_prefix _ _⟩
    | none => exact .inr ⟨rfl, rfl⟩

namespace WriteState

variable {s : WriteState Op}

/-- What a step can do: a call becomes pending or is rejected, a pending call appends
or fails to, or a pending call goes away. -/
theorem step_cases {s' : WriteState Op} {l : WriteLabel Op} (h : s.step l = some s') :
    (∃ call op res op' wal, l = .advance call op ∧ op.NotForced ∧
      s.wal.advanceNewestClocks op = (res, op', wal) ∧
      ((res = .ok () ∧ s' = { wal, pending := s.pending.insert call op' }) ∨ s' = { s with wal })) ∨
    (∃ call io op, l = .append call io ∧ s.pending.get? call = some op ∧
      s' = { wal := (s.wal.appendRecord op io).2, pending := s.pending.erase call }) ∨
    (∃ call, l = .cancel call ∧ s' = { s with pending := s.pending.erase call }) := by
  cases l with
  | advance call op =>
    simp only [step] at h
    split at h
    swap
    · cases h
    next hguard =>
      split at h
      · next hadv =>
        cases h
        exact .inl ⟨call, op, _, _, _, rfl, hguard.2, hadv, .inl ⟨rfl, rfl⟩⟩
      · next hadv =>
        cases h
        exact .inl ⟨call, op, _, _, _, rfl, hguard.2, hadv, .inr rfl⟩
  | append call io =>
    simp only [step] at h
    split at h
    · cases h
    · next op hop =>
      cases h
      exact .inr (.inl ⟨call, io, op, rfl, hop, rfl⟩)
  | cancel call =>
    simp only [step] at h
    split at h
    · cases h
    · cases h
      exact .inr (.inr ⟨call, rfl, rfl⟩)

/-- Losing pending calls keeps the invariant. -/
theorem Inv.erase (h : s.Inv) (call : Nat) : Inv { s with pending := s.pending.erase call } := by
  have hsub : ∀ c op, (s.pending.erase call).get? c = some op → s.pending.get? c = some op := by
    intro c op hc
    rw [HashMap.get?_erase] at hc
    split at hc
    · cases hc
    · exact hc
  exact ⟨h.inOrder, fun c op hc => h.behind c op (hsub c op hc),
    fun c op hc => h.pendingSeen c op (hsub c op hc)⟩

/-- Advancing clocks keeps the invariant. -/
theorem Inv.advance (h : s.Inv) {wal : RecoverableWal Op} (hwal : wal.wal = s.wal.wal)
    (hle : ∀ k, s.wal.newestClocks.tick k ≤ wal.newestClocks.tick k) : Inv { s with wal } where
  inOrder := ⟨hwal ▸ h.inOrder.ordered, fun op hop => (h.inOrder.seen op (hwal ▸ hop)).mono hle⟩
  behind := fun c op hc r hr => h.behind c op hc r (hwal ▸ hr)
  pendingSeen := fun c op hc => (h.pendingSeen c op hc).mono hle

/-- The invariant is kept if records get lost. -/
theorem Inv.lose (h : s.Inv) {wal : SerdeWal (OperationWithClockTag Op)}
    (hpref : wal.entries <+: s.wal.wal.entries) : Inv { s with wal := { s.wal with wal } } where
  inOrder := ⟨h.inOrder.ordered.sublist hpref.sublist,
    fun op hop => h.inOrder.seen op (hpref.subset hop)⟩
  behind := fun c op hc r hr => h.behind c op hc r (hpref.subset hr)
  pendingSeen := h.pendingSeen

variable {op : OperationWithClockTag Op}

/-- A call whose clock stands at its own tick can become pending. -/
theorem Inv.insert (h : s.Inv) (call : Nat)
    (hop : ∀ tag ∈ op.clockTag, s.wal.newestClocks.tick (Key.fromTag tag) = tag.clockTick) :
    Inv { s with pending := s.pending.insert call op } where
  inOrder := h.inOrder
  behind := by
    intro c op' hc r hr
    rw [HashMap.get?_insert] at hc
    split at hc
    · cases hc
      intro tag htag tag' htag' hkey
      rw [← hop tag' htag', ← hkey]
      exact h.inOrder.seen r hr tag htag
    · exact h.behind c op' hc r hr
  pendingSeen := by
    intro c op' hc
    rw [HashMap.get?_insert] at hc
    split at hc
    · cases hc
      intro tag htag
      rw [hop tag htag]
      exact UInt64.le_refl _
    · exact h.pendingSeen c op' hc

/-- A call that overtakes no other one can append. -/
theorem Inv.write (h : s.Inv) {call : Nat} (hop : s.pending.get? call = some op)
    (hovertake : ∀ other op', s.pending.get? other = some op' → other ≠ call → TicksLe op op') :
    Inv { wal := { s.wal with wal := (s.wal.wal.write op).1 }, pending := s.pending.erase call } where
  inOrder := by
    refine ⟨pairwise_append.mpr ⟨h.inOrder.ordered, pairwise_singleton _ _, ?_⟩, ?_⟩
    · intro r hr r' hr'
      rw [mem_singleton.mp hr']
      exact h.behind call op hop r hr
    · intro r hr
      rcases mem_append.mp hr with hr | hr
      · exact h.inOrder.seen r hr
      · rw [mem_singleton.mp hr]
        exact h.pendingSeen call op hop
  behind := by
    intro c op' hc r hr
    rw [HashMap.get?_erase] at hc
    split at hc
    · cases hc
    next hne =>
      rcases mem_append.mp hr with hr | hr
      · exact h.behind c op' hc r hr
      · rw [mem_singleton.mp hr]
        exact hovertake c op' hc hne
  pendingSeen := by
    intro c op' hc
    rw [HashMap.get?_erase] at hc
    split at hc
    · cases hc
    · exact h.pendingSeen c op' hc

/-- Every step that overtakes no other call keeps the invariant. -/
theorem inv_step (s : WriteState Op) (l : WriteLabel Op) (s' : WriteState Op) (h : s.Inv)
    (hguard : s.noOvertaking l = true) (hstep : s.step l = some s') : s'.Inv := by
  obtain ⟨call, op, res, op', wal, rfl, hforce, hadv, hcases⟩ | ⟨call, io, op, rfl, hop, rfl⟩ |
    ⟨call, rfl, rfl⟩ := step_cases hstep
  · obtain ⟨hwal, hle, hok⟩ := s.wal.advanceNewestClocks_spec hforce hadv
    have hadvanced := h.advance hwal hle
    rcases hcases with ⟨rfl, rfl⟩ | rfl
    · obtain ⟨rfl, hticks⟩ := hok rfl
      exact hadvanced.insert call hticks
    · exact hadvanced
  · rcases s.wal.appendRecord_cases op io with ⟨wal, hleft, hpref⟩ | ⟨rfl, hwrite⟩
    · rw [hleft]
      exact (h.lose hpref).erase call
    · refine h.write hop fun other op' hother hne => ?_
      simp only [noOvertaking, hop, bne_self_eq_false, Bool.false_or, Bool.not_eq_true',
        HashMap.any_eq_false] at hguard
      simpa [hne] using hguard other op' hother
  · exact h.erase call

/-- In every run in which no call overtakes another one on the same clock, the log is in
tick order, and so in the order that WAL-delta resolution relies on. The start is any
log in tick order, with no call under way. -/
theorem run_tickOrdered {w : RecoverableWal Op} (hw : w.InOrder) {schedule : List (WriteLabel Op)}
    {s : WriteState Op} (hrun : Run.run step { wal := w, pending := ∅ } schedule = some s)
    (hguard : Run.Guarded step (fun s l => s.noOvertaking l = true) { wal := w, pending := ∅ }
      schedule) :
    TickOrdered s.wal.wal.entries ∧ ClockOrdered s.wal.taggedRecords := by
  have hstart : Inv { wal := w, pending := ∅ } := ⟨hw, by simp, by simp⟩
  have hinv := Run.run_invariant inv_step hrun hguard hstart
  exact ⟨hinv.inOrder.ordered, hinv.inOrder.ordered.clockOrdered⟩

/-! ### Two calls on one clock -/

/-- A write on clock `0` of peer `1`. -/
def sampleWrite (tick : UInt64) : OperationWithClockTag Unit :=
  { operation := (), clockTag := some (.newWithToken 1 0 tick tick) }

def emptyWal : RecoverableWal Unit :=
  { wal := .empty 0, newestClocks := .empty, oldestClocks := .empty }

/-- Two calls overlap and append in the order in which they advanced the clock. -/
def overlappingSchedule : List (WriteLabel Unit) :=
  [.advance 0 (sampleWrite 1), .advance 1 (sampleWrite 2), .append 0 .success, .append 1 .success]

theorem run_tickOrdered_overlappingSchedule :
    ∃ s, Run.run step { wal := emptyWal, pending := ∅ } overlappingSchedule = some s ∧
      TickOrdered s.wal.wal.entries ∧ ClockOrdered s.wal.taggedRecords := by
  obtain ⟨s, hs⟩ := Option.isSome_iff_exists.mp (show
    (Run.run step { wal := emptyWal, pending := ∅ } overlappingSchedule).isSome = true by decide)
  have hempty : emptyWal.InOrder := ⟨List.Pairwise.nil, by simp [emptyWal, SerdeWal.empty]⟩
  exact ⟨s, hs, run_tickOrdered hempty hs (by decide)⟩

/-- Two calls overlap and append in the opposite order. -/
def overtakingSchedule : List (WriteLabel Unit) :=
  [.advance 0 (sampleWrite 1), .advance 1 (sampleWrite 2), .append 1 .success, .append 0 .success]

/-- The log ends with tick `2` before tick `1`. -/
theorem run_overtakingSchedule :
    (Run.run step { wal := emptyWal, pending := ∅ } overtakingSchedule).map
        (fun s => s.wal.wal.entries) = some [sampleWrite 2, sampleWrite 1] ∧
    ∀ s, Run.run step { wal := emptyWal, pending := ∅ } overtakingSchedule = some s →
      ¬ TickOrdered s.wal.wal.entries ∧ ¬ ClockOrdered s.wal.taggedRecords := by
  refine ⟨by decide, ?_⟩
  rintro s ⟨⟩
  exact ⟨by decide, by decide⟩

end WriteState

end Qdrant
