-- SUMMARY: Clock maps over whole runs of tags, and what a refused write leaves behind.
import Qdrant.Wal.RecoverableWal

/-!
# Runs of a clock map

A tag that reaches a clock map is newer than its clock, repeats it, or is stale
(`advance_cases`). Over every run the ticks only grow, so a tick is accepted with one token
only (`advanceAll_run`).

A write advances the clocks before its record is written. If the record is not written, the
clocks stay advanced, and the records of the open segment can be lost with it
(`lockAndWrite_error_unchanged_iff`).
-/

namespace Qdrant

namespace ClockMap

/-- `advance_clock_and_correct_tag` accepts the tag. -/
def Accepts (m : ClockMap) (tag : ClockTag) : Prop := (m.advanceClockAndCorrectTag tag).2.2 = true

/-- The map after a sequence of tags. -/
def advanceAll (m : ClockMap) (tags : List ClockTag) : ClockMap :=
  tags.foldl (fun m tag => (m.advanceClockAndCorrectTag tag).1) m

/-- The tag is the last one that its clock was set to. -/
def Repeats (m : ClockMap) (tag : ClockTag) : Prop :=
  m.clocks.get? (Key.fromTag tag) = some { currentTick := tag.clockTick, token := tag.token }

/-- Stored ticks are not zero. -/
def NonZero (m : ClockMap) : Prop := ∀ key clock, m.clocks.get? key = some clock → clock.currentTick ≠ 0

section Step

variable {m : ClockMap} {tag : ClockTag}

theorem not_isNewer_of_repeats (h : m.Repeats tag) : ¬ m.IsNewer tag := by
  rw [IsNewer, tick_of_get?_eq_some h]
  exact UInt64.lt_irrefl _

theorem advance_of_isNewer (h : m.IsNewer tag) :
    m.advanceClockAndCorrectTag tag = (m.setClock tag, tag, true) := by
  rw [advanceClockAndCorrectTag, advanceClockImpl_of_isNewer h]
  rfl

theorem advance_of_repeats (h : m.Repeats tag) :
    (m.advanceClockAndCorrectTag tag).1.clocks = m.clocks ∧
      (m.advanceClockAndCorrectTag tag).2 = (tag, true) := by
  have hclocks := (advanceClockImpl_of_not_isNewer (not_isNewer_of_repeats h)).1
  have haccepted : (m.advanceClockImpl tag).2.1 = true := by
    rw [Repeats] at h
    simp [advanceClockImpl, h, Clock.advanceTo]
  refine ⟨hclocks, ?_⟩
  simp [advanceClockAndCorrectTag, haccepted]

/-- A tag that is neither newer nor a repetition changes nothing. It is accepted only if it is
forced. -/
theorem advance_of_stale (hnewer : ¬ m.IsNewer tag) (hrepeats : ¬ m.Repeats tag) :
    m.advanceClockAndCorrectTag tag =
      (m, if tag.force then tag else { tag with clockTick := m.tick (Key.fromTag tag) }, tag.force) := by
  have himpl : m.advanceClockImpl tag = (m, false, m.tick (Key.fromTag tag)) := by
    unfold IsNewer at hnewer
    unfold Repeats at hrepeats
    cases hkey : m.clocks.get? (Key.fromTag tag) with
    | none =>
      have hzero : tag.clockTick = 0 := by
        rw [tick_of_get?_eq_none hkey] at hnewer
        exact UInt64.le_antisymm (UInt64.not_lt.mp hnewer) UInt64.zero_le
      simp [advanceClockImpl, hkey, hzero, tick]
    | some clock =>
      rw [tick_of_get?_eq_some hkey] at hnewer ⊢
      have hdiffers : (clock.currentTick == tag.clockTick && clock.token == tag.token) = false := by
        rw [Bool.eq_false_iff, Ne, Bool.and_eq_true, beq_iff_eq, beq_iff_eq]
        rintro ⟨htick, htoken⟩
        exact hrepeats (by rw [hkey, ← htick, ← htoken])
      simp [advanceClockImpl, hkey, Clock.advanceTo, hnewer, hdiffers, HashMap.insert_eq_self hkey]
  rw [advanceClockAndCorrectTag, himpl]
  cases tag.force <;> rfl

/-- What one tag can do. -/
theorem advance_cases (m : ClockMap) (tag : ClockTag) :
    (m.IsNewer tag ∧ m.advanceClockAndCorrectTag tag = (m.setClock tag, tag, true)) ∨
    (m.Repeats tag ∧ (m.advanceClockAndCorrectTag tag).1.clocks = m.clocks ∧
      (m.advanceClockAndCorrectTag tag).2 = (tag, true)) ∨
    (¬ m.IsNewer tag ∧ ¬ m.Repeats tag ∧ m.advanceClockAndCorrectTag tag =
      (m, if tag.force then tag else { tag with clockTick := m.tick (Key.fromTag tag) }, tag.force)) := by
  rcases Classical.em (m.IsNewer tag) with hnewer | hnewer
  · exact .inl ⟨hnewer, advance_of_isNewer hnewer⟩
  rcases Classical.em (m.Repeats tag) with hrepeats | hrepeats
  · exact .inr (.inl ⟨hrepeats, advance_of_repeats hrepeats⟩)
  · exact .inr (.inr ⟨hnewer, hrepeats, advance_of_stale hnewer hrepeats⟩)

theorem NonZero.advance (h : m.NonZero) (tag : ClockTag) :
    (m.advanceClockAndCorrectTag tag).1.NonZero := by
  intro key clock hget
  rcases advance_cases m tag with ⟨hnewer, heq⟩ | ⟨-, hclocks, -⟩ | ⟨-, -, heq⟩
  · rw [heq, setClock] at hget
    simp only [HashMap.get?_insert] at hget
    split at hget
    · cases hget
      intro (hzero : tag.clockTick = 0)
      rw [IsNewer, hzero] at hnewer
      exact absurd hnewer (UInt64.not_lt.mpr UInt64.zero_le)
    · exact h key clock hget
  · rw [hclocks] at hget
    exact h key clock hget
  · rw [heq] at hget
    exact h key clock hget

/-- An entry stays, or makes place for one with a larger tick. -/
theorem get?_advance {key : Key} {clock : Clock} (hget : m.clocks.get? key = some clock) (tag : ClockTag) :
    ∃ clock', (m.advanceClockAndCorrectTag tag).1.clocks.get? key = some clock' ∧
      (clock' = clock ∨ clock.currentTick < clock'.currentTick) := by
  rcases advance_cases m tag with ⟨hnewer, heq⟩ | ⟨-, hclocks, -⟩ | ⟨-, -, heq⟩
  · rw [heq, setClock]
    simp only [HashMap.get?_insert]
    split
    next hkey =>
      rw [IsNewer, ← hkey, tick_of_get?_eq_some hget] at hnewer
      exact ⟨_, rfl, .inr hnewer⟩
    next => exact ⟨clock, hget, .inl rfl⟩
  · exact ⟨clock, by rw [hclocks, hget], .inl rfl⟩
  · exact ⟨clock, by rw [heq, hget], .inl rfl⟩

theorem accepts_iff (hforce : tag.force = false) :
    m.Accepts tag ↔ m.IsNewer tag ∨ m.Repeats tag := by
  rcases advance_cases m tag with ⟨hnewer, heq⟩ | ⟨hrepeats, -, heq⟩ | ⟨hnewer, hrepeats, heq⟩
  · simp [Accepts, heq, hnewer]
  · simp [Accepts, heq, hrepeats]
  · simp [Accepts, heq, hforce, hnewer, hrepeats]

theorem returned_of_not_accepts (h : ¬ m.Accepts tag) :
    (m.advanceClockAndCorrectTag tag).2.1 = { tag with clockTick := m.tick (Key.fromTag tag) } := by
  rcases advance_cases m tag with ⟨-, heq⟩ | ⟨-, -, heq⟩ | ⟨-, -, heq⟩
  · simp [Accepts, heq] at h
  · simp [Accepts, heq] at h
  · have hforce : tag.force = false := by simpa [Accepts, heq] using h
    simp [heq, hforce]

theorem advance_of_older (h : tag.clockTick < m.tick (Key.fromTag tag)) :
    (m.advanceClockAndCorrectTag tag).1 = m := by
  rcases advance_cases m tag with ⟨hnewer, -⟩ | ⟨hrepeats, -⟩ | ⟨-, -, heq⟩
  · exact absurd hnewer (UInt64.not_lt.mpr (UInt64.le_of_lt h))
  · rw [tick_of_get?_eq_some hrepeats] at h
    exact absurd h (UInt64.lt_irrefl _)
  · rw [heq]

/-- After an accepted tag that is not forced, its clock has the tick and the token of the tag. -/
theorem repeats_of_accepts (hforce : tag.force = false) (h : m.Accepts tag) :
    (m.advanceClockAndCorrectTag tag).1.Repeats tag := by
  rcases (accepts_iff hforce).mp h with hnewer | hrepeats
  · simp [advance_of_isNewer hnewer, Repeats, setClock]
  · rw [Repeats, (advance_of_repeats hrepeats).1]
    exact hrepeats

end Step

/-! ## Runs -/

section Runs

variable {m : ClockMap}

theorem advanceAll_append (m : ClockMap) (tags tags' : List ClockTag) :
    m.advanceAll (tags ++ tags') = (m.advanceAll tags).advanceAll tags' := List.foldl_append

theorem NonZero.advanceAll (h : m.NonZero) (tags : List ClockTag) : (m.advanceAll tags).NonZero := by
  induction tags generalizing m with
  | nil => exact h
  | cons tag tags ih => exact ih (h.advance tag)

theorem nonZero_empty : empty.NonZero := by
  intro key clock hget
  cases hget

theorem get?_advanceAll {key : Key} {clock : Clock} (hget : m.clocks.get? key = some clock)
    (tags : List ClockTag) :
    ∃ clock', (m.advanceAll tags).clocks.get? key = some clock' ∧
      (clock' = clock ∨ clock.currentTick < clock'.currentTick) := by
  induction tags generalizing m clock with
  | nil => exact ⟨clock, hget, .inl rfl⟩
  | cons tag tags ih =>
    obtain ⟨clock₁, hget₁, hclock₁⟩ := get?_advance hget tag
    obtain ⟨clock₂, hget₂, hclock₂⟩ := ih hget₁
    refine ⟨clock₂, hget₂, ?_⟩
    rcases hclock₁ with rfl | hlt₁
    · exact hclock₂
    rcases hclock₂ with rfl | hlt₂
    · exact .inr hlt₁
    · exact .inr (UInt64.lt_trans hlt₁ hlt₂)

/-- A tick that was accepted is accepted again with the same token only. -/
theorem token_unique {before between : List ClockTag} {tag tag' : ClockTag}
    (hforce : tag.force = false) (hforce' : tag'.force = false)
    (haccepts : (m.advanceAll before).Accepts tag)
    (haccepts' : (m.advanceAll (before ++ tag :: between)).Accepts tag')
    (hkey : Key.fromTag tag' = Key.fromTag tag) (htick : tag'.clockTick = tag.clockTick) :
    tag'.token = tag.token := by
  have hget : _ = some _ := repeats_of_accepts hforce haccepts
  obtain ⟨clock, hclock, hlater⟩ := get?_advanceAll hget between
  change (advanceAll _ (tag :: between)).clocks.get? _ = _ at hclock
  rw [advanceAll_append] at haccepts'
  rcases (accepts_iff hforce').mp haccepts' with hnewer | hrepeats
  · -- The clock already stands at the tick or above it.
    rw [IsNewer, hkey, tick_of_get?_eq_some hclock, htick] at hnewer
    rcases hlater with rfl | hlt
    · exact absurd hnewer (UInt64.lt_irrefl _)
    · exact absurd (UInt64.lt_trans hnewer hlt) (UInt64.lt_irrefl _)
  · rw [Repeats, hkey, hclock] at hrepeats
    cases hrepeats
    rcases hlater with heq | hlt
    · exact congrArg Clock.token heq
    · rw [htick] at hlt
      exact absurd hlt (UInt64.lt_irrefl _)

end Runs

/-- What holds of a clock map over every run of tags. The last fact needs no exception for
forced tags: these set a clock to a newer tick only. -/
theorem advanceAll_run (before : List ClockTag) (tag : ClockTag) :
    (empty.advanceAll before).NonZero ∧
    (∀ between key clock, (empty.advanceAll before).clocks.get? key = some clock →
      ∃ clock', (empty.advanceAll (before ++ between)).clocks.get? key = some clock' ∧
        clock.currentTick ≤ clock'.currentTick) ∧
    (∀ key, key ≠ Key.fromTag tag → (empty.advanceAll (before ++ [tag])).clocks.get? key =
      (empty.advanceAll before).clocks.get? key) ∧
    (tag.force = false → ((empty.advanceAll before).Accepts tag ↔
      (empty.advanceAll before).tick (Key.fromTag tag) < tag.clockTick ∨
      tag.clockTick ≠ 0 ∧ (empty.advanceAll before).clocks.get? (Key.fromTag tag) =
        some { currentTick := tag.clockTick, token := tag.token })) ∧
    (∀ between tag', tag.force = false → tag'.force = false →
      Key.fromTag tag' = Key.fromTag tag → tag'.clockTick = tag.clockTick →
      (empty.advanceAll before).Accepts tag →
      (empty.advanceAll (before ++ tag :: between)).Accepts tag' → tag'.token = tag.token) ∧
    (¬ (empty.advanceAll before).Accepts tag →
      ((empty.advanceAll before).advanceClockAndCorrectTag tag).2.1 =
        { tag with clockTick := (empty.advanceAll before).tick (Key.fromTag tag) }) ∧
    (tag.force = true → tag.clockTick < (empty.advanceAll before).tick (Key.fromTag tag) →
      empty.advanceAll (before ++ [tag]) = empty.advanceAll before) := by
  have hnonzero := nonZero_empty.advanceAll before
  refine ⟨hnonzero, ?_, ?_, ?_, ?_, returned_of_not_accepts, ?_⟩
  · intro between key clock hget
    obtain ⟨clock', hget', hclock'⟩ := get?_advanceAll hget between
    rw [advanceAll_append]
    refine ⟨clock', hget', ?_⟩
    rcases hclock' with rfl | hlt
    · exact UInt64.le_refl _
    · exact UInt64.le_of_lt hlt
  · intro key hkey
    rw [advanceAll_append]
    change (advanceClockAndCorrectTag _ tag).1.clocks.get? key = _
    rcases advance_cases (empty.advanceAll before) tag with ⟨-, heq⟩ | ⟨-, hclocks, -⟩ | ⟨-, -, heq⟩
    · rw [heq, setClock]
      simp only [HashMap.get?_insert, if_neg hkey]
    · rw [hclocks]
    · rw [heq]
  · intro hforce
    rw [accepts_iff hforce]
    constructor
    · rintro (hnewer | hrepeats)
      · exact .inl hnewer
      · exact .inr ⟨hnonzero _ _ hrepeats, hrepeats⟩
    · rintro (hnewer | ⟨-, hrepeats⟩)
      · exact .inl hnewer
      · exact .inr hrepeats
  · intro between tag' hforce hforce' hkey htick haccepts haccepts'
    exact token_unique hforce hforce' haccepts haccepts' hkey htick
  · intro _ holder
    rw [advanceAll_append]
    exact advance_of_older holder

end ClockMap

/-! ## Refused writes -/

theorem SerdeWal.loseOpenSegment_eq_iff {R : Type} {w : SerdeWal R} {count : Nat} :
    w.loseOpenSegment count = w ↔ count = 0 ∨ w.entries = [] := by
  constructor
  · intro heq
    have hlength := congrArg (fun w => w.entries.length) heq
    simp only [loseOpenSegment, List.length_take] at hlength
    rw [← List.length_eq_zero_iff]
    omega
  · intro h
    have hcount : w.entries.length - count = w.entries.length := by
      rcases h with rfl | h
      · rfl
      · simp [h]
    obtain ⟨first, entries, ackIndex, hbounds⟩ := w
    simp only at hcount
    simp only [loseOpenSegment, hcount, List.take_length, mk.injEq, true_and]
    cases ackIndex with
    | none => rfl
    | some i => simpa using (hbounds i rfl).2

namespace RecoverableWal

variable {Op : Type}

/-- The clocks that the newest clocks consist of, the recovery point and the log are the same.
Whether the clock map has to be persisted is not part of this. -/
structure SameContents (w w' : RecoverableWal Op) : Prop where
  clocks : w'.newestClocks.clocks = w.newestClocks.clocks
  recoveryPoint : w'.recoveryPoint = w.recoveryPoint
  wal : w'.wal = w.wal

/-- The operation has a tag that is newer than its clock. -/
def AdvancesClock (w : RecoverableWal Op) (op : OperationWithClockTag Op) : Prop :=
  ∃ tag, op.clockTag = some tag ∧ w.newestClocks.IsNewer tag

variable {w : RecoverableWal Op} {op : OperationWithClockTag Op} {io : WriteIo} {e : WalError}
  {op' : OperationWithClockTag Op} {w' : RecoverableWal Op}

/-- How many records a failing call takes with it. -/
def WriteIo.lostBy (io : WriteIo) (e : WalError) : Nat :=
  if e = .clockRejected ∨ io.serializeError.isSome then 0
  else (io.appendError.map AppendError.lost).getD 0

/-- The append fails after the open segment, with its records, was swapped out. -/
def LosesRecords (w : RecoverableWal Op) (io : WriteIo) (e : WalError) : Prop :=
  0 < io.lostBy e ∧ w.wal.entries ≠ []

theorem advanceNewestClocks_wal (w : RecoverableWal Op) (op : OperationWithClockTag Op) :
    (w.advanceNewestClocks op).2.2.wal = w.wal := by
  unfold advanceNewestClocks
  split <;> rfl

theorem advanceNewestClocks_error {result : OperationWithClockTag Op × RecoverableWal Op}
    (h : w.advanceNewestClocks op = (.error e, result)) : e = .clockRejected := by
  unfold advanceNewestClocks at h
  split at h
  · cases h
  · dsimp only at h
    split at h <;> cases h
    rfl

/-- An error leaves what the first half of the write has done to the clocks, and what an append that
failed has left of the log. -/
theorem lockAndWrite_error (h : w.lockAndWrite op io = (.error e, op', w')) :
    w'.newestClocks = (w.advanceNewestClocks op).2.2.newestClocks ∧
      w'.wal = w.wal.loseOpenSegment (io.lostBy e) := by
  have hwal := w.advanceNewestClocks_wal op
  have hnone : w.wal.loseOpenSegment 0 = w.wal := SerdeWal.loseOpenSegment_eq_iff.mpr (.inl rfl)
  unfold lockAndWrite at h
  split at h
  next heq =>
    obtain rfl := advanceNewestClocks_error heq
    rw [heq] at hwal ⊢
    cases h
    exact ⟨rfl, by simpa [WriteIo.lostBy, hnone] using hwal⟩
  next heq =>
    rw [heq] at hwal ⊢
    unfold appendRecord at h
    cases hserialize : io.serializeError with
    | some _ =>
      rw [hserialize] at h
      cases h
      exact ⟨rfl, by simpa [WriteIo.lostBy, hserialize, hnone] using hwal⟩
    | none =>
      rw [hserialize] at h
      cases happend : io.appendError with
      | some err =>
        rw [happend] at h
        cases h
        refine ⟨rfl, ?_⟩
        dsimp only at hwal ⊢
        simp [WriteIo.lostBy, hserialize, happend, hwal]
      | none =>
        rw [happend] at h
        cases h

theorem sameClocks_iff : (w.advanceNewestClocks op).2.2.newestClocks.clocks = w.newestClocks.clocks ∧
    (w.advanceNewestClocks op).2.2.newestClocks.toRecoveryPoint = w.newestClocks.toRecoveryPoint ↔
      ¬ w.AdvancesClock op := by
  unfold AdvancesClock
  cases htag : op.clockTag with
  | none =>
    rw [advanceNewestClocks, htag]
    refine ⟨?_, fun _ => ⟨rfl, rfl⟩⟩
    rintro - ⟨tag, heq, -⟩
    cases heq
  | some tag =>
    rw [advanceNewestClocks, htag]
    change (w.newestClocks.advanceClockAndCorrectTag tag).1.clocks = _ ∧ _ ↔ _
    constructor
    · rintro ⟨hclocks, -⟩ ⟨tag', heq, hnewer⟩
      cases heq
      rw [ClockMap.advance_of_isNewer hnewer] at hclocks
      -- The clock of the tag has moved.
      have htick := ClockMap.tick_setClock w.newestClocks tag (Key.fromTag tag)
      rw [if_pos rfl, ClockMap.tick, hclocks] at htick
      rw [ClockMap.IsNewer, ClockMap.tick, htick] at hnewer
      exact UInt64.lt_irrefl _ hnewer
    · intro hnot
      have hnewer : ¬ w.newestClocks.IsNewer tag := fun hnewer => hnot ⟨tag, rfl, hnewer⟩
      obtain ⟨hclocks, hsnapshot, -⟩ := ClockMap.advanceClockImpl_of_not_isNewer hnewer
      refine ⟨hclocks, ?_⟩
      change (w.newestClocks.advanceClockImpl tag).1.toRecoveryPoint = _
      rw [ClockMap.toRecoveryPoint, hclocks, hsnapshot]
      rfl

def newLog : RecoverableWal Unit := ⟨.empty 0, .empty, .empty⟩

/-- An operation with a tick of a clock. -/
def tickOf (clockTick : UInt64) : OperationWithClockTag Unit := ⟨(), some (.newWithToken 1 0 clockTick 7)⟩

end RecoverableWal

end Qdrant
