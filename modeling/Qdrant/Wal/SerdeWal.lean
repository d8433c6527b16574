-- SUMMARY: The shard WAL over segments: the logical first index across acknowledgement, tail truncation and reopening.
import Qdrant.Base.Run
import Qdrant.Wal.RecoverableWal
import Qdrant.Wal.SegmentList

/-!
# The shard WAL over segments

`SerdeWal` (`lib/shard/src/wal.rs`) keeps a logical first index beside the segments: an
acknowledgement moves it, while the segments can only drop whole files. The logical index
is saved in a file of its own and read back when the WAL is opened. `Qdrant.SerdeWal` is
the same log without segments; `SerdeWal.unsegmented` maps to it.

The run below also keeps what was written and not dropped, and the largest index that was
acknowledged. That is what a read has to return.
-/

namespace Qdrant.Wal

open IndexedLog List SegmentList

variable {R : Type}

/-! ## Numbered records -/

/-- The entries with their indices, the first of which is `i`. -/
def numbered : Nat → List R → List (Nat × R)
  | _, [] => []
  | i, r :: rs => (i, r) :: numbered (i + 1) rs

theorem numbered_append (i : Nat) (rs rs' : List R) :
    numbered i (rs ++ rs') = numbered i rs ++ numbered (i + rs.length) rs' := by
  induction rs generalizing i with
  | nil => rfl
  | cons r rs ih =>
    rw [cons_append, numbered, ih, Nat.add_right_comm]
    rfl

theorem numbered_drop (i n : Nat) (rs : List R) :
    (numbered i rs).drop n = numbered (i + n) (rs.drop n) := by
  induction n generalizing i rs with
  | zero => rfl
  | succ n ih =>
    cases rs with
    | nil => rfl
    | cons r rs =>
      rw [numbered, drop_succ_cons, drop_succ_cons, ih, Nat.add_right_comm, Nat.add_assoc]

theorem numbered_take (i n : Nat) (rs : List R) :
    (numbered i rs).take n = numbered i (rs.take n) := by
  induction n generalizing i rs with
  | zero => rfl
  | succ n ih =>
    cases rs with
    | nil => rfl
    | cons r rs => rw [numbered, take_succ_cons, ih]; rfl

theorem mem_numbered {i : Nat} {rs : List R} {p : Nat × R} (h : p ∈ numbered i rs) :
    i ≤ p.1 ∧ p.1 < i + rs.length := by
  induction rs generalizing i with
  | nil => cases h
  | cons r rs ih =>
    rw [length_cons]
    rcases mem_cons.mp h with rfl | h
    · omega
    · have := ih h
      omega

/-- The records before an index and those from it on. -/
theorem numbered_split (i k : Nat) (rs : List R) :
    (∀ p ∈ (numbered i rs).take (k - i), p.1 < k) ∧ ∀ p ∈ (numbered i rs).drop (k - i), k ≤ p.1 := by
  rw [numbered_take, numbered_drop]
  refine ⟨fun p hp => ?_, fun p hp => ?_⟩
  · obtain ⟨hge, hlt⟩ := mem_numbered hp
    rw [length_take] at hlt
    omega
  · have := (mem_numbered hp).1
    omega

theorem numbered_filter_le (i k : Nat) (rs : List R) :
    (numbered i rs).filter (fun p => decide (k ≤ p.1)) = (numbered i rs).drop (k - i) := by
  obtain ⟨hbefore, hfrom⟩ := numbered_split i k rs
  rw [← take_append_drop (k - i) (numbered i rs), filter_append,
    filter_eq_nil_iff.mpr (by simpa using hbefore), filter_eq_self.mpr (by simpa using hfrom)]
  simp

theorem numbered_filter_lt (i k : Nat) (rs : List R) :
    (numbered i rs).filter (fun p => decide (p.1 < k)) = numbered i (rs.take (k - i)) := by
  obtain ⟨hbefore, hfrom⟩ := numbered_split i k rs
  rw [← numbered_take, ← take_append_drop (k - i) (numbered i rs), filter_append,
    filter_eq_self.mpr (by simpa using hbefore), filter_eq_nil_iff.mpr (by simpa using hfrom)]
  simp

theorem numbered_eq_zip (i : Nat) (rs : List R) :
    numbered i rs = (List.range' i rs.length).zip rs := by
  induction rs generalizing i with
  | nil => rfl
  | cons r rs ih => rw [numbered, ih, length_cons, List.range'_succ, zip_cons_cons]

/-- The entries of a log with their indices. -/
def IndexedLog.records (log : IndexedLog R) : List (Nat × R) := numbered log.first log.entries

namespace IndexedLog

theorem records_push (log : IndexedLog R) (r : R) :
    (log.push r).records = log.records ++ [(log.next, r)] := numbered_append _ _ _

theorem records_truncate (log : IndexedLog R) (i : Nat) :
    (log.truncate i).records = log.records.filter fun p => decide (p.1 < i) :=
  (numbered_filter_lt _ _ _).symm

theorem records_dropFirst (log : IndexedLog R) (n : Nat) :
    (log.dropFirst n).records = log.records.drop n := (numbered_drop _ _ _).symm

end IndexedLog

/-! ## Code -/

/-- A WAL of records. Their serialization is left out. -/
structure SerdeWal (R : Type) where
  wal : SegmentList (List R)
  retainClosed : ℕ+
  /-- First index of the logical WAL. -/
  first : Option Nat
  /-- The acknowledged index in the file `first-index`, if there is one. -/
  ackIndex : Option Nat
deriving DecidableEq

namespace SerdeWal

/-- A WAL in an empty directory. -/
def create (retainClosed : ℕ+) : SerdeWal R where
  wal := ⟨[], []⟩
  retainClosed
  first := none
  ackIndex := none

section

variable (w : SerdeWal R)

/-- Open the WAL again. The segments hold the same entries as before. -/
def reopen : SerdeWal R :=
  { w with first := w.ackIndex.map fun i => min (max i w.wal.firstIndex) w.wal.lastIndex }

def firstClosedIndex : Nat := w.wal.firstIndex

def firstIndex : Nat := w.first.getD w.firstClosedIndex

def lastIndex : Nat := w.wal.lastIndex

def truncatedPrefixEntriesNum : Nat := w.firstIndex - w.wal.firstIndex

def len (withAcknowledged : Bool) : Nat :=
  if withAcknowledged then w.wal.numEntries else w.wal.numEntries - w.truncatedPrefixEntriesNum

/-- Append a record and return its index. Whether the open segment is full depends on the
sizes of the records. -/
def write (full : Bool) (record : R) : SerdeWal R × Nat :=
  let (wal, i) := w.wal.append full record
  ({ w with wal }, i)

def readEntry (idx : Nat) : Except WalError (Nat × R) :=
  match w.wal.entry idx with
  | .ok (some record) => .ok (idx, record)
  | .ok none => .error (.readWalError ("Can't read entry " ++ toString idx ++ " from WAL"))
  | .error e => .error (.readWalError e.message)

def readRange (start stop : Nat) : List (Except WalError (Nat × R)) :=
  (List.range' start (stop - start)).map w.readEntry

def read (start : Nat) : List (Except WalError (Nat × R)) :=
  w.readRange start (w.firstIndex + w.len false)

def readAll (withAcknowledged : Bool) : List (Except WalError (Nat × R)) :=
  if withAcknowledged then w.read w.firstClosedIndex else w.read w.firstIndex

/-- The records below index `stop` are no longer required. -/
def ack (stop : Nat) : Except WalError (SerdeWal R) :=
  match w.wal.prefixTruncate w.retainClosed stop with
  | .error e => .error (.truncateWalError e.message)
  | .ok wal =>
    let w := { w with wal }
    let minimalFirstIndex := w.first.getD w.wal.firstIndex
    let newFirstIndex := some (min (max stop minimalFirstIndex) w.wal.lastIndex)
    -- The file is only written if the index has changed.
    if w.first ≠ newFirstIndex then .ok { w with first := newFirstIndex, ackIndex := newFirstIndex }
    else .ok w

/-- Drop the records from index `start` on. -/
def dropFrom (start : Nat) : Except WalError (SerdeWal R) :=
  match w.wal.truncate start with
  | .error e => .error (.truncateWalError e.message)
  | .ok wal => .ok { w with wal }

end

/-! ## Reading -/

/-- The logical first index lies in the log, or right behind it. -/
structure InBounds (w : SerdeWal R) : Prop where
  contiguous : w.wal.Contiguous
  first_le : w.wal.log.first ≤ w.firstIndex
  le_next : w.firstIndex ≤ w.wal.log.next

section

variable (w : SerdeWal R) (h : w.InBounds)

include h

/-- The same log without its segments. -/
def unsegmented : Qdrant.SerdeWal R where
  firstClosedIndex := w.wal.log.first
  entries := w.wal.log.entries
  ackIndex := w.first
  ackIndex_bounds := by
    intro i hi
    have hfirst : w.firstIndex = i := by
      rw [firstIndex, Option.mem_def.mp hi]
      rfl
    exact ⟨hfirst ▸ h.first_le, hfirst ▸ h.le_next⟩

theorem readEntry_eq (i : Nat) : w.readEntry i = (w.unsegmented h).readEntry i := by
  have hget : (if i < (w.unsegmented h).firstClosedIndex then none
      else (w.unsegmented h).entries[i - (w.unsegmented h).firstClosedIndex]?) =
      w.wal.log.get? i := rfl
  rw [readEntry, h.contiguous.entry_eq, Qdrant.SerdeWal.readEntry, hget]
  cases w.wal.log.get? i with
  | none => rfl
  | some record => rfl

theorem firstIndex_add_len : w.firstIndex + w.len false = w.wal.log.next := by
  have hle := h.first_le
  have hnext := h.le_next
  have hlen : w.len false = w.wal.log.entries.length - (w.firstIndex - w.wal.log.first) := by
    rw [len, h.contiguous.numEntries_eq]
    rfl
  simp only [IndexedLog.next] at hnext ⊢
  omega

end

variable {w : SerdeWal R}

/-- Reads see the records from the logical first index on. -/
theorem readAll_false (w : SerdeWal R) (h : w.InBounds) : w.readAll false =
      (w.wal.log.records.filter fun p => decide (w.firstIndex ≤ p.1)).map .ok := by
  have hread := (w.unsegmented h).read_eq_records (w.firstIndex - w.wal.log.first)
  have hstart : (w.unsegmented h).firstClosedIndex + (w.firstIndex - w.wal.log.first) =
      w.firstIndex := Nat.add_sub_cancel' h.first_le
  have hrecords : (w.unsegmented h).records = w.wal.log.records := (numbered_eq_zip _ _).symm
  rw [hstart, hrecords] at hread
  have hfilter : (w.wal.log.records.filter fun p => decide (w.firstIndex ≤ p.1)) =
      w.wal.log.records.drop (w.firstIndex - w.wal.log.first) := numbered_filter_le _ _ _
  have hsame : w.readEntry = (w.unsegmented h).readEntry := funext (w.readEntry_eq h)
  rw [hfilter, ← hread, Qdrant.SerdeWal.read, Qdrant.SerdeWal.firstIndex_add_len, ← hsame, readAll,
    if_neg Bool.false_ne_true, read, w.firstIndex_add_len h]
  rfl

/-! ## What the calls do to the log -/

theorem InBounds.write (h : w.InBounds) (full : Bool) (record : R) :
    (w.write full record).1.InBounds ∧ (w.write full record).1.wal.log = w.wal.log.push record := by
  obtain ⟨hc, hlog, -⟩ := h.contiguous.append full record
  have hfirst : (w.write full record).1.wal.firstIndex = w.wal.firstIndex :=
    congrArg IndexedLog.first hlog
  have hindex : (w.write full record).1.firstIndex = w.firstIndex := congrArg w.first.getD hfirst
  refine ⟨⟨hc, ?_, ?_⟩, hlog⟩
  · rw [hindex]
    exact hfirst.le.trans h.first_le
  · have hnext : (w.write full record).1.wal.log.next = w.wal.log.next + 1 := by
      refine (congrArg next hlog).trans ?_
      simp only [IndexedLog.next, push, length_append, length_singleton, Nat.add_assoc]
    rw [hindex, hnext]
    exact Nat.le_succ_of_le h.le_next

/-- An acknowledgement drops records below its index, or none. -/
theorem InBounds.ack (h : w.InBounds) (stop : Nat) :
    ∃ w' k, w.ack stop = .ok w' ∧ w'.InBounds ∧ w'.wal.log = w.wal.log.dropFirst k ∧
      k ≤ w.wal.log.entries.length ∧ (k = 0 ∨ w.wal.log.first + k ≤ stop) := by
  obtain ⟨wal, k, hwal, hc, hlog, hstop⟩ := h.contiguous.exists_prefixTruncate w.retainClosed stop
  have hle := h.first_le
  have hfirst : wal.firstIndex = w.wal.log.first + k := congrArg IndexedLog.first hlog
  have hlast := hc.lastIndex_eq
  -- The new logical index is at least the first one of the segments that are left.
  have hminimal : wal.firstIndex ≤ max stop (w.first.getD wal.firstIndex) := by
    cases hs : w.first with
    | none => exact Nat.le_max_right _ _
    | some i =>
      rw [firstIndex, hs, Option.getD_some] at hle
      rw [Option.getD_some]
      omega
  generalize hnew : min (max stop (w.first.getD wal.firstIndex)) wal.lastIndex = first
  have hlo : wal.log.first ≤ first := hnew ▸ Nat.le_min.mpr ⟨hminimal, hlast ▸ Nat.le_add_right _ _⟩
  have hhi : first ≤ wal.log.next := by
    rw [IndexedLog.next]
    omega
  refine ⟨{ w with
    wal
    first := some first
    ackIndex := if w.first ≠ some first then some first else w.ackIndex },
    k, ?_, ⟨hc, hlo, hhi⟩, hlog, by omega, hstop.imp_right And.left⟩
  simp only [SerdeWal.ack, hwal, hnew]
  split
  · rfl
  next hsame => rw [← Decidable.not_not.mp hsame]

end SerdeWal

/-! ## Runs -/

/-- A WAL with what it should remember. -/
structure SerdeRun (R : Type) where
  wal : SerdeWal R
  /-- The records that were written and not dropped, with their indices. -/
  live : List (Nat × R)
  /-- The largest acknowledged index. -/
  acked : Nat

inductive SerdeCall (R : Type) where
  | write (full : Bool) (record : R)
  | ack (stop : Nat)
  | dropFrom (start : Nat)
  | reopen

namespace SerdeRun

def create (retainClosed : ℕ+) : SerdeRun R := ⟨.create retainClosed, [], 0⟩

/-- One call. An acknowledgement counts up to the last index; records can be dropped from
the logical first index on. -/
def step (s : SerdeRun R) : SerdeCall R → Option (SerdeRun R)
  | .write full record =>
    let (wal, i) := s.wal.write full record
    some { s with wal, live := s.live ++ [(i, record)] }
  | .ack stop =>
    (s.wal.ack stop).toOption.map fun wal =>
      { s with wal, acked := max s.acked (min stop s.wal.lastIndex) }
  | .dropFrom start =>
    if s.wal.firstIndex ≤ start then
      (s.wal.dropFrom start).toOption.map fun wal =>
        { s with wal, live := s.live.filter fun p => decide (p.1 < start) }
    else none
  | .reopen => some { s with wal := s.wal.reopen }

/-- Reads return exactly the live records from the acknowledged index on, and the next
record that is written gets an index that is not acknowledged and is read back. -/
structure Faithful (s : SerdeRun R) : Prop where
  readAll : s.wal.readAll false = (s.live.filter fun p => decide (s.acked ≤ p.1)).map .ok
  index : ∀ full record, s.acked ≤ (s.wal.write full record).2
  written : ∀ full record,
    .ok ((s.wal.write full record).2, record) ∈ (s.wal.write full record).1.readAll false

/-- Dropping from the first physical index on would empty the segments and restart their
indices; after dropping down to the logical first index, a record has to be written before
that index is computed again. -/
def Safe (s : SerdeRun R) : SerdeCall R → Prop
  | .write _ _ => True
  | .ack _ => s.wal.firstIndex ≤ s.wal.lastIndex
  | .dropFrom start => s.wal.firstClosedIndex < start ∨ start = 0
  | .reopen => s.wal.firstIndex ≤ s.wal.lastIndex

instance (s : SerdeRun R) : (c : SerdeCall R) → Decidable (s.Safe c)
  | .write _ _ => inferInstanceAs (Decidable True)
  | .ack _ => inferInstanceAs (Decidable (_ ≤ _))
  | .dropFrom _ => inferInstanceAs (Decidable (_ ∨ _))
  | .reopen => inferInstanceAs (Decidable (_ ≤ _))

structure Inv (s : SerdeRun R) : Prop where
  inBounds : s.wal.InBounds
  first : s.wal.firstIndex = s.acked
  saved : s.wal.ackIndex = s.wal.first
  /-- Records that the segments have lost are acknowledged. -/
  live : ∃ lost, s.live = lost ++ s.wal.wal.log.records ∧ ∀ p ∈ lost, p.1 < s.acked

theorem inv_create (retainClosed : ℕ+) : (create retainClosed : SerdeRun R).Inv where
  inBounds := ⟨trivial, le_rfl, le_rfl⟩
  first := rfl
  saved := rfl
  live := ⟨[], rfl, by simp⟩

variable {s : SerdeRun R}

section

variable (h : s.Inv)

include h

/-- Other segments with the same first index, in a call that leaves the logical index alone. -/
theorem Inv.with_wal {wal : SegmentList (List R)} {live : List (Nat × R)}
    (hc : wal.Contiguous) (hfirst : wal.log.first = s.wal.wal.log.first)
    (hnext : s.acked ≤ wal.log.next)
    (hlive : ∃ lost, live = lost ++ wal.log.records ∧ ∀ p ∈ lost, p.1 < s.acked) :
    Inv { s with wal := { s.wal with wal }, live } := by
  have hindex : ({ s.wal with wal } : SerdeWal R).firstIndex = s.acked := by
    rw [← h.first]
    exact congrArg s.wal.first.getD hfirst
  refine ⟨⟨hc, ?_, hindex ▸ hnext⟩, hindex, h.saved, hlive⟩
  rw [hindex, ← h.first]
  exact hfirst ▸ h.inBounds.first_le

theorem Inv.write (full : Bool) (record : R) : Inv { s with
      wal := (s.wal.write full record).1
      live := s.live ++ [((s.wal.write full record).2, record)] } := by
  obtain ⟨lost, hlive, hlost⟩ := h.live
  have hle : s.acked ≤ s.wal.wal.log.next := h.first ▸ h.inBounds.le_next
  have hspec := h.inBounds.contiguous.append full record
  rcases happend : s.wal.wal.append full record with ⟨wal, i⟩
  have hwrite : s.wal.write full record = ({ s.wal with wal }, i) := by
    rw [SerdeWal.write, happend]
  rw [happend] at hspec
  obtain ⟨hc, hlog, hi⟩ := hspec
  rw [hwrite, hi]
  refine h.with_wal hc (by rw [hlog]; rfl) ?_ ⟨lost, ?_, hlost⟩
  · rw [hlog]
    simp only [IndexedLog.next, push, length_append] at hle ⊢
    omega
  · rw [hlog, records_push, hlive, append_assoc]

theorem Inv.dropFrom {start : Nat} (hstart : s.acked ≤ start)
    (hsafe : s.wal.firstClosedIndex < start ∨ start = 0) :
    ∃ wal, s.wal.dropFrom start = .ok { s.wal with wal } ∧
      Inv { s with
        wal := { s.wal with wal }
        live := s.live.filter fun p => decide (p.1 < start) } := by
  obtain ⟨lost, hlive, hlost⟩ := h.live
  have hkeep : (lost.filter fun p => decide (p.1 < start)) = lost := by
    apply filter_eq_self.mpr
    intro p hp
    have := hlost p hp
    simp only [decide_eq_true_eq]
    omega
  have hle : s.acked ≤ s.wal.wal.log.next := h.first ▸ h.inBounds.le_next
  have hge : s.wal.wal.log.first ≤ s.acked := h.first ▸ h.inBounds.first_le
  rcases hsafe with hbehind | rfl
  · obtain ⟨wal, hwal, hc, hlog⟩ := h.inBounds.contiguous.truncate_eq hbehind
    refine ⟨wal, by rw [SerdeWal.dropFrom, hwal], h.with_wal hc (by rw [hlog]; rfl) ?_ ⟨lost, ?_, hlost⟩⟩
    · rw [hlog]
      simp only [IndexedLog.next, IndexedLog.truncate, length_take] at hle ⊢
      omega
    · rw [hlive, filter_append, hkeep, hlog, IndexedLog.records_truncate]
  · have hzero : s.wal.wal.log.first = 0 := by omega
    have hwal := h.inBounds.contiguous.truncate_first (Nat.zero_le _)
    have hc : Contiguous (⟨[], []⟩ : SegmentList (List R)) := trivial
    refine ⟨_, by rw [SerdeWal.dropFrom, hwal], h.with_wal hc hzero.symm ?_ ⟨[], ?_, by simp⟩⟩
    · exact hstart
    · simp [records, SegmentList.log, numbered]

/-- As long as the logical index does not exceed the last one, the new logical index is the
largest acknowledged index. -/
theorem Inv.ack (stop : Nat) (hlast : s.wal.firstIndex ≤ s.wal.lastIndex) :
    ∃ wal, s.wal.ack stop = .ok wal ∧
      Inv { s with wal, acked := max s.acked (min stop s.wal.lastIndex) } := by
  obtain ⟨wal, k, hwal, hc, hlog, hstop⟩ :=
    h.inBounds.contiguous.exists_prefixTruncate s.wal.retainClosed stop
  have hlastEq := h.inBounds.contiguous.lastIndex_eq
  obtain ⟨lost, hlive, hlost⟩ := h.live
  have hge : s.wal.wal.log.first ≤ s.acked := h.first ▸ h.inBounds.first_le
  rw [h.first] at hlast
  have hfirst : wal.log.first = s.wal.wal.log.first + k := by rw [hlog]; rfl
  have hlength : wal.log.entries.length = s.wal.wal.log.entries.length - k := by
    rw [hlog]
    exact length_drop
  have hlast' : wal.lastIndex = s.wal.lastIndex := by
    have hlastWal := hc.lastIndex_eq
    simp only [SerdeWal.lastIndex] at hlast ⊢
    omega
  generalize hacked : max s.acked (min stop s.wal.lastIndex) = acked
  have hdropped : wal.log.first ≤ acked := by
    simp only [SerdeWal.lastIndex] at *
    omega
  -- The acknowledged index was the logical one, or else the first one of the segments.
  have hnew : min (max stop (s.wal.first.getD wal.firstIndex)) wal.lastIndex = acked := by
    have hold := h.first
    simp only [SerdeWal.firstIndex, SerdeWal.firstClosedIndex] at hold
    cases hs : s.wal.first with
    | none =>
      rw [hs, Option.getD_none] at hold
      rw [Option.getD_none]
      simp only [SegmentList.log] at *
      omega
    | some i =>
      rw [hs, Option.getD_some] at hold
      rw [Option.getD_some]
      omega
  refine ⟨{ s.wal with
    wal
    first := some acked
    ackIndex := some acked }, ?_, ?_⟩
  · simp only [SerdeWal.ack, hwal, hnew]
    split
    · rfl
    next hsame =>
      have hfirst' := Decidable.not_not.mp hsame
      rw [← hfirst', ← h.saved]
  · refine ⟨⟨hc, hdropped, ?_⟩, rfl, rfl, lost ++ s.wal.wal.log.records.take k, ?_, ?_⟩
    · simp only [SerdeWal.firstIndex, Option.getD_some, IndexedLog.next]
      have := hc.lastIndex_eq
      omega
    · rw [hlog, records_dropFirst, append_assoc, take_append_drop, hlive]
    · intro p hp
      rcases mem_append.mp hp with hp | hp
      · exact (hlost p hp).trans_le (hacked ▸ Nat.le_max_left _ _)
      · rw [records, numbered_take] at hp
        have hlt := (mem_numbered hp).2
        rw [length_take] at hlt
        show p.1 < acked
        omega

theorem Inv.reopen (hlast : s.wal.firstIndex ≤ s.wal.lastIndex) :
    Inv { s with wal := s.wal.reopen } := by
  have hge : s.wal.wal.log.first ≤ s.wal.firstIndex := h.inBounds.first_le
  have hfirst : s.wal.reopen.first = s.wal.first := by
    rw [SerdeWal.reopen, h.saved]
    cases hs : s.wal.first with
    | none => rfl
    | some i =>
      have hi : s.wal.firstIndex = i := by
        rw [SerdeWal.firstIndex, hs]
        rfl
      rw [hi] at hlast hge
      simp only [SerdeWal.lastIndex, SegmentList.log] at hlast hge
      rw [Option.map_some, Nat.max_eq_left hge, Nat.min_eq_left hlast]
  have hsame : s.wal.reopen = s.wal := by
    simp only [SerdeWal.reopen] at hfirst ⊢
    rw [hfirst]
  rw [hsame]
  exact h

theorem Inv.readAll :
    s.wal.readAll false = (s.live.filter fun p => decide (s.acked ≤ p.1)).map .ok := by
  obtain ⟨lost, hlive, hlost⟩ := h.live
  have hnone : (lost.filter fun p => decide (s.acked ≤ p.1)) = [] := by
    apply filter_eq_nil_iff.mpr
    intro p hp
    have := hlost p hp
    simp only [decide_eq_true_eq]
    omega
  rw [s.wal.readAll_false h.inBounds, h.first, hlive, filter_append, hnone, nil_append]

theorem Inv.faithful : s.Faithful := by
  have hindex (full : Bool) (record : R) : s.acked ≤ (s.wal.write full record).2 := by
    have hnext : (s.wal.write full record).2 = s.wal.wal.log.next :=
      (h.inBounds.contiguous.append full record).2.2
    rw [hnext, ← h.first]
    exact h.inBounds.le_next
  refine ⟨h.readAll, hindex, fun full record => ?_⟩
  have hread := (h.write full record).readAll
  rw [hread]
  apply mem_map_of_mem
  rw [mem_filter]
  exact ⟨mem_append_right _ mem_cons_self, decide_eq_true (hindex full record)⟩

end

/-- In a run whose calls are all safe, no unacknowledged record is hidden and no acknowledged
index is used again. -/
theorem faithful_of_safe {retainClosed : ℕ+} {calls : List (SerdeCall R)} {s : SerdeRun R}
    (hsafe : Run.Guarded step Safe (create retainClosed) calls)
    (hrun : Run.run step (create retainClosed) calls = some s) : s.Faithful := by
  suffices hinv : s.Inv from hinv.faithful
  apply Run.run_invariant _ hrun hsafe (inv_create retainClosed)
  intro s c t hs hC ht
  cases c with
  | write full record =>
    cases ht
    exact hs.write full record
  | ack stop =>
    obtain ⟨wal, hwal, hinv⟩ := hs.ack stop hC
    rw [step, hwal] at ht
    cases ht
    exact hinv
  | dropFrom start =>
    rw [step] at ht
    split at ht
    next hle =>
      obtain ⟨wal, hwal, hinv⟩ := hs.dropFrom (hs.first ▸ hle) hC
      rw [hwal] at ht
      cases ht
      exact hinv
    next => cases ht
  | reopen =>
    cases ht
    exact hs.reopen hC

/-- Three records in three segments, of which the first is acknowledged. -/
def threeRecords : List (SerdeCall Nat) :=
  [.write false 10, .write true 11, .write true 12, .ack 1]

/-- The last record is dropped, another one is written and the WAL is reopened. -/
theorem faithful_of_safe_rewritten :
    ∃ s, Run.run step (create 1) (threeRecords ++ [.dropFrom 2, .write false 13, .reopen]) = some s ∧
      s.Faithful ∧ s.wal.readAll false = [.ok (1, 11), .ok (2, 13)] := by
  have hsafe : Run.Guarded step Safe (create 1)
      (threeRecords ++ [.dropFrom 2, .write false 13, .reopen]) := by decide +kernel
  exact ⟨_, rfl, faithful_of_safe hsafe rfl, by decide +kernel⟩

/-- The two unacknowledged records are dropped. The WAL is empty then, a new record gets the
index of the acknowledged one, and a read does not find it. -/
theorem new_record_hidden : ∃ s, Run.run step (create 1) (threeRecords ++ [.dropFrom 1]) = some s ∧
      s.acked = 1 ∧ s.wal.firstIndex = 1 ∧ (s.wal.write false 13).2 = 0 ∧
      (s.wal.write false 13).1.readAll false = [] := by
  refine ⟨_, rfl, ?_, ?_, ?_, ?_⟩
  · rfl
  · rfl
  · rfl
  · rfl

end SerdeRun

end Qdrant.Wal
