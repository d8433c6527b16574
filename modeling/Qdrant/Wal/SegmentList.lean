-- SUMMARY: The segments of a WAL: global indices over closed segments and the open one.
import Mathlib.Data.List.Forall2
import Mathlib.Data.PNat.Basic
import Qdrant.Wal.Segment

/-!
# Segments of a WAL

A WAL (`lib/wal/src/lib.rs`) is a list of closed segments, each with the index of its first
entry, and one open segment that takes the appends. The index of an entry is never stored:
it follows from the start index of a closed segment and the position in it, and the open
segment starts where the last closed one ends.

The code that computes with indices needs little of a segment, so it is written here for
any type of segments. `SegmentList Segment` is what the WAL holds; `SegmentList (List R)`
is the same with the entries of each segment in a list. Over lists, the segments together
are an indexed log, and each operation is what one expects of it.
-/

namespace Qdrant.Wal

open List Bytes

/-! ## Code -/

/-- What the WAL uses of a segment with entries of type `R`. -/
class SegmentOps (S : Type) (R : outParam Type) where
  len : S → Nat
  entry : S → Nat → Except IoError (Option R)
  /-- Drop the entries from this position on. -/
  truncate : S → Nat → S
  flush : S → S

instance : SegmentOps Segment (List UInt8) where
  len := Segment.len
  entry := Segment.entry
  truncate := Segment.truncate
  flush := Segment.flush

instance {R : Type} : SegmentOps (List R) R where
  len := List.length
  entry s i := .ok s[i]?
  truncate s n := s.take n
  flush s := s

structure ClosedSegment (S : Type) where
  startIndex : Nat
  segment : S
deriving DecidableEq

structure SegmentList (S : Type) where
  closedSegments : List (ClosedSegment S)
  openSegment : S
deriving DecidableEq

/-- `slice::binary_search_by` on a slice that the comparison orders: the position of a match,
or else the position where one would have to be inserted. -/
def binarySearchBy {α : Type} (compare : α → Ordering) (l : List α) : Except Nat Nat :=
  match l.findIdx? fun x => compare x == .eq with
  | some i => .ok i
  | none => .error (l.takeWhile fun x => compare x == .lt).length

section

variable {α : Type} {compare : α → Ordering} {x : α} {l : List α}

theorem binarySearchBy_cons_lt (h : compare x = .lt) {i : Nat}
    (hl : binarySearchBy compare l = .ok i) : binarySearchBy compare (x :: l) = .ok (i + 1) := by
  have hfind : (l.findIdx? fun x => compare x == .eq) = some i := by
    unfold binarySearchBy at hl
    split at hl
    next hj => rwa [← Except.ok.inj hl]
    next => cases hl
  simp [binarySearchBy, h, findIdx?_cons, hfind]

theorem binarySearchBy_congr {β : Type} {compare' : β → Ordering} {l' : List β}
    (h : List.Forall₂ (fun x y => compare x = compare' y) l l') :
    binarySearchBy compare l = binarySearchBy compare' l' := by
  have hfind : (l.findIdx? fun x => compare x == .eq) = l'.findIdx? fun y => compare' y == .eq := by
    induction h with
    | nil => rfl
    | cons hxy _ ih => rw [findIdx?_cons, findIdx?_cons, hxy, ih]
  have hbefore : (l.takeWhile fun x => compare x == .lt).length =
      (l'.takeWhile fun y => compare' y == .lt).length := by
    clear hfind
    induction h with
    | nil => rfl
    | cons hxy _ ih =>
      rw [takeWhile_cons, takeWhile_cons, hxy]
      split
      · rw [length_cons, length_cons, ih]
      · rfl
  rw [binarySearchBy, binarySearchBy, hfind, hbefore]

theorem binarySearchBy_of_gt (h : ∀ x ∈ l, compare x = .gt) :
    binarySearchBy compare l = .error 0 := by
  have hnone : (l.findIdx? fun x => compare x == .eq) = none := by
    rw [findIdx?_eq_none_iff]
    intro x hx
    rw [h x hx]
    rfl
  have hstart : (l.takeWhile fun x => compare x == .lt) = [] := by
    cases l with
    | nil => rfl
    | cons x l => simp [h x mem_cons_self]
  rw [binarySearchBy, hnone, hstart]
  rfl

end

namespace SegmentList

variable {S R : Type} [SegmentOps S R]

/-- The index behind the last entry of a closed segment. -/
def stopIndex (s : ClosedSegment S) : Nat := s.startIndex + SegmentOps.len s.segment

section

variable (w : SegmentList S)

def openSegmentStartIndex : Nat :=
  match w.closedSegments.getLast? with
  | none => 0
  | some s => stopIndex s

def firstIndex : Nat :=
  match w.closedSegments.head? with
  | none => 0
  | some s => s.startIndex

def numEntries : Nat :=
  w.openSegmentStartIndex - w.firstIndex + SegmentOps.len w.openSegment

def lastIndex : Nat := w.firstIndex + (w.numEntries - 1)

end

/-- The closed segments of a WAL that is opened must follow each other without gap. Returns the
next start index. -/
def validateClosed : Nat → List (ClosedSegment S) → Except IoError Nat
  | nextStartIndex, [] => .ok nextStartIndex
  | nextStartIndex, s :: rest =>
    if s.startIndex < nextStartIndex then .error (.panicked "not implemented")
    else if s.startIndex = nextStartIndex then validateClosed (stopIndex s) rest
    else
      .error (.invalidData ("missing segment(s) containing wal entries " ++
        toString nextStartIndex ++ " to " ++ toString s.startIndex))

def compareIndex (index : Nat) (s : ClosedSegment S) : Ordering :=
  if index < s.startIndex then .gt
  else if index ≥ stopIndex s then .lt
  else .eq

variable {s : ClosedSegment S} {index : Nat}

theorem compareIndex_lt (h : stopIndex s ≤ index) : compareIndex index s = .lt := by
  have hstart : ¬ index < s.startIndex := not_lt.mpr (Nat.le_trans (Nat.le_add_right _ _) h)
  rw [compareIndex, if_neg hstart, if_pos h]

theorem compareIndex_eq (hstart : s.startIndex ≤ index)
    (hstop : index < stopIndex s) : compareIndex index s = .eq := by
  rw [compareIndex, if_neg (not_lt.mpr hstart), if_neg (not_le.mpr hstop)]

section

variable (w : SegmentList S)

def findClosedSegment (index : Nat) : Except Nat Nat :=
  binarySearchBy (compareIndex index) w.closedSegments

/-- The entry with this index. -/
def entry (index : Nat) : Except IoError (Option R) :=
  let openStartIndex := w.openSegmentStartIndex
  if index ≥ openStartIndex then SegmentOps.entry w.openSegment (index - openStartIndex)
  else
    match w.findClosedSegment index with
    | .ok i =>
      match w.closedSegments[i]? with
      | some s => SegmentOps.entry s.segment (index - s.startIndex)
      | none => .error (.panicked "index out of bounds")
    | .error i =>
      -- The missing index must lie before the start of the log.
      if i = 0 then .ok none else .error (.panicked "assertion `left == right` failed")

/-- Drop the entries from index `start` on. -/
def truncate (start : Nat) : Except IoError (SegmentList S) :=
  let openStartIndex := w.openSegmentStartIndex
  if start ≥ openStartIndex then
    .ok { w with openSegment := SegmentOps.truncate w.openSegment (start - openStartIndex) }
  else
    let w := { w with openSegment := SegmentOps.truncate w.openSegment 0 }
    match w.findClosedSegment start with
    | .ok i =>
      match w.closedSegments[i]? with
      | some s =>
        if start = s.startIndex then
          .ok { w with closedSegments := w.closedSegments.take i }
        else
          let segment := SegmentOps.truncate s.segment (start - s.startIndex)
          .ok { w with
            closedSegments :=
              w.closedSegments.take i ++ [{ s with segment := SegmentOps.flush segment }] }
      | none => .error (.panicked "index out of bounds")
    | .error i =>
      if start ≤ (w.closedSegments[i]?.map ClosedSegment.startIndex).getD 0 then
        .ok { w with closedSegments := [] }
      else .error (.panicked "assertion failed")

/-- Drop closed segments whose entries all stand below index `stop`, but keep the last
`retainClosed` closed segments. -/
def prefixTruncate (retainClosed : ℕ+) (stop : Nat) : Except IoError (SegmentList S) :=
  if stop ≤ w.firstIndex then .ok w
  else
    let retainStartIndex := w.closedSegments.length - retainClosed
    if stop ≥ w.openSegmentStartIndex then
      .ok { w with closedSegments := w.closedSegments.drop retainStartIndex }
    else
      match w.findClosedSegment stop with
      | .ok i =>
        .ok { w with closedSegments := w.closedSegments.drop (min i retainStartIndex) }
      | .error _ => .error (.panicked "called `Result::unwrap()` on an `Err` value")

end

/-- Prefix truncation only drops closed segments, and none of the last `retainClosed`. -/
theorem prefixTruncate_ok {w w' : SegmentList S} {retainClosed : ℕ+} {stop : Nat}
    (h : w.prefixTruncate retainClosed stop = .ok w') :
    ∃ n, n ≤ w.closedSegments.length - retainClosed ∧
      w' = ⟨w.closedSegments.drop n, w.openSegment⟩ := by
  unfold prefixTruncate at h
  split at h
  · exact ⟨0, Nat.zero_le _, (Except.ok.inj h).symm⟩
  · split at h
    · exact ⟨_, le_rfl, (Except.ok.inj h).symm⟩
    · split at h
      · exact ⟨_, Nat.min_le_right _ _, (Except.ok.inj h).symm⟩
      · cases h

/-- The closed segments without an empty one at the end. -/
def dropEmptyLast (closed : List (ClosedSegment S)) : List (ClosedSegment S) :=
  match closed.getLast? with
  | some last => if SegmentOps.len last.segment = 0 then closed.dropLast else closed
  | none => closed

theorem dropEmptyLast_eq {closed : List (ClosedSegment S)}
    (h : ∀ s ∈ closed, SegmentOps.len s.segment ≠ 0) : dropEmptyLast closed = closed := by
  unfold dropEmptyLast
  cases hlast : closed.getLast? with
  | none => rfl
  | some last => exact if_neg (h last (mem_of_getLast? hlast))

/-- Close the open segment and continue with a new one. -/
def retireOpenSegment (w : SegmentList S) (next : S) : SegmentList S where
  closedSegments := dropEmptyLast w.closedSegments ++
    [{ startIndex := w.openSegmentStartIndex, segment := SegmentOps.flush w.openSegment }]
  openSegment := next

end SegmentList

/-! ## Indexed logs -/

/-- Entries numbered from `first` on. -/
structure IndexedLog (R : Type) where
  first : Nat
  entries : List R
deriving DecidableEq

namespace IndexedLog

variable {R : Type}

section

variable (log : IndexedLog R)

/-- The index of the next entry. -/
def next : Nat := log.first + log.entries.length

def get? (i : Nat) : Option R :=
  if i < log.first then none else log.entries[i - log.first]?

def push (r : R) : IndexedLog R := { log with entries := log.entries ++ [r] }

/-- Keep the entries below index `start`. -/
def truncate (start : Nat) : IndexedLog R :=
  { log with entries := log.entries.take (start - log.first) }

/-- Drop the first `n` entries. -/
def dropFirst (n : Nat) : IndexedLog R where
  first := log.first + n
  entries := log.entries.drop n

end

end IndexedLog

namespace SegmentList

variable {R : Type}

/-- All entries of closed segments. -/
def closedEntries (closed : List (ClosedSegment (List R))) : List R :=
  closed.flatMap ClosedSegment.segment

/-- The log that the segments hold. -/
def log (w : SegmentList (List R)) : IndexedLog R where
  first := w.firstIndex
  entries := closedEntries w.closedSegments ++ w.openSegment

/-- The closed segments hold entries from index `start` on, without gaps, and each holds at
least one. -/
def ContiguousFrom : Nat → List (ClosedSegment (List R)) → Prop
  | _, [] => True
  | start, s :: rest =>
    s.startIndex = start ∧ s.segment ≠ [] ∧ ContiguousFrom (start + s.segment.length) rest

/-- The closed segments of a log follow each other. -/
def Contiguous (w : SegmentList (List R)) : Prop := ContiguousFrom w.firstIndex w.closedSegments

@[simp] theorem closedEntries_nil : closedEntries ([] : List (ClosedSegment (List R))) = [] := by
  rw [closedEntries, flatMap_nil]

@[simp] theorem closedEntries_cons (s : ClosedSegment (List R)) (rest : List (ClosedSegment (List R))) :
    closedEntries (s :: rest) = s.segment ++ closedEntries rest := rfl

@[simp] theorem closedEntries_append (closed closed' : List (ClosedSegment (List R))) :
    closedEntries (closed ++ closed') = closedEntries closed ++ closedEntries closed' :=
  flatMap_append

theorem length_closedEntries_take_le (closed : List (ClosedSegment (List R))) (n : Nat) :
    (closedEntries (closed.take n)).length ≤ (closedEntries closed).length := by
  have hsplit : closedEntries closed =
      closedEntries (closed.take n) ++ closedEntries (closed.drop n) := by
    rw [← closedEntries_append, take_append_drop]
  rw [hsplit, length_append]
  exact Nat.le_add_right _ _

theorem stopIndex_list (s : ClosedSegment (List R)) :
    stopIndex s = s.startIndex + s.segment.length := rfl

variable {start : Nat} {closed : List (ClosedSegment (List R))}

theorem contiguousFrom_append {closed' : List (ClosedSegment (List R))} :
    ContiguousFrom start (closed ++ closed') ↔ ContiguousFrom start closed ∧
        ContiguousFrom (start + (closedEntries closed).length) closed' := by
  induction closed generalizing start with
  | nil => simp [ContiguousFrom]
  | cons s rest ih =>
    simp only [cons_append, ContiguousFrom, ih, closedEntries_cons, length_append,
      Nat.add_assoc, and_assoc]

/-- Closed segments that pass the validation and are not empty are contiguous, and the other way
round. -/
theorem validateClosed_ok_iff : (∃ stop, validateClosed start closed = .ok stop) ∧
      (∀ s ∈ closed, s.segment ≠ []) ↔ ContiguousFrom start closed := by
  induction closed generalizing start with
  | nil => simp [validateClosed, ContiguousFrom]
  | cons s rest ih =>
    rw [validateClosed, ContiguousFrom, forall_mem_cons]
    rcases Nat.lt_trichotomy s.startIndex start with hlt | heq | hgt
    · simp [hlt, hlt.ne]
    · rw [if_neg (heq ▸ Nat.lt_irrefl _), if_pos heq, stopIndex_list, heq, ← ih]
      tauto
    · simp [hgt.not_gt, hgt.ne']

variable {w : SegmentList (List R)}

/-- A WAL that can be opened and has no empty closed segment is contiguous. -/
theorem contiguous_iff : (∃ stop, validateClosed w.firstIndex w.closedSegments = .ok stop) ∧
      (∀ s ∈ w.closedSegments, s.segment ≠ []) ↔ w.Contiguous := validateClosed_ok_iff

/-- The open segment starts behind the entries of the closed ones. -/
theorem Contiguous.openSegmentStartIndex_eq (h : w.Contiguous) :
    w.openSegmentStartIndex = w.firstIndex + (closedEntries w.closedSegments).length := by
  unfold Contiguous at h
  rcases eq_nil_or_concat w.closedSegments with hc | ⟨pre, s, hc⟩
  · simp [openSegmentStartIndex, firstIndex, hc]
  · rw [concat_eq_append] at hc
    have hs := (contiguousFrom_append.mp (hc ▸ h)).2
    simp only [openSegmentStartIndex, hc, getLast?_append, getLast?_singleton,
      Option.some_or, stopIndex, hs.1, SegmentOps.len, closedEntries_append, closedEntries_cons,
      closedEntries_nil, append_nil, length_append]
    omega

theorem Contiguous.next_eq (h : w.Contiguous) :
    w.log.next = w.openSegmentStartIndex + w.openSegment.length := by
  rw [h.openSegmentStartIndex_eq, IndexedLog.next, log, length_append, Nat.add_assoc]

theorem Contiguous.numEntries_eq (h : w.Contiguous) : w.numEntries = w.log.entries.length := by
  rw [numEntries, h.openSegmentStartIndex_eq, Nat.add_sub_cancel_left, log, length_append]
  rfl

/-! ### Finding a closed segment -/

/-- The segment that holds an index between the start and the end of the closed segments, and what
stands before it. -/
theorem ContiguousFrom.find {i : Nat} (h : ContiguousFrom start closed) (hlo : start ≤ i)
    (hhi : i < start + (closedEntries closed).length) :
    ∃ pre s post, closed = pre ++ s :: post ∧
      binarySearchBy (compareIndex i) closed = .ok pre.length ∧
      s.startIndex = start + (closedEntries pre).length ∧
      s.startIndex ≤ i ∧ i < s.startIndex + s.segment.length := by
  induction closed generalizing start with
  | nil => simp at hhi; omega
  | cons s rest ih =>
    obtain ⟨hstart, _, hrest⟩ := h
    rw [closedEntries_cons, length_append] at hhi
    rcases Nat.lt_or_ge i (start + s.segment.length) with hin | hout
    · have hstop : i < stopIndex s := by rwa [stopIndex_list, hstart]
      have heq : compareIndex i s = .eq := compareIndex_eq (hstart ▸ hlo) hstop
      exact ⟨[], s, rest, rfl, by simp [binarySearchBy, heq, findIdx?_cons], hstart, hstart ▸ hlo, hstop⟩
    · have hlt : compareIndex i s = .lt := compareIndex_lt (by rwa [stopIndex_list, hstart])
      obtain ⟨pre, t, post, rfl, hfind, hbefore, ht⟩ := ih hrest hout (by omega)
      refine ⟨s :: pre, t, post, rfl, binarySearchBy_cons_lt hlt hfind, ?_, ht⟩
      rw [hbefore, closedEntries_cons, length_append, Nat.add_assoc]

/-- An index before the start of the log is before every closed segment. -/
theorem ContiguousFrom.find_before {i : Nat} (h : ContiguousFrom start closed) (hi : i < start) :
    binarySearchBy (compareIndex i) closed = .error 0 := by
  apply binarySearchBy_of_gt
  induction closed generalizing start with
  | nil => simp
  | cons s rest ih =>
    obtain ⟨hstart, _, hrest⟩ := h
    intro t ht
    rcases mem_cons.mp ht with rfl | ht
    · exact if_pos (by omega)
    · exact ih hrest (by omega) t ht

/-! ### The operations on the log -/

section

variable {w : SegmentList (List R)}

/-- Reading an entry never runs into an assertion, and gives the entry of the log. -/
theorem Contiguous.entry_eq (h : w.Contiguous) (i : Nat) : w.entry i = .ok (w.log.get? i) := by
  have hopen := h.openSegmentStartIndex_eq
  unfold entry
  dsimp only
  split
  next hge =>
    have hget : w.log.get? i = w.openSegment[i - w.openSegmentStartIndex]? := by
      rw [IndexedLog.get?, log]
      dsimp only
      rw [if_neg (by omega), getElem?_append_right (by omega)]
      congr 1
      omega
    rw [hget]
    rfl
  next hlt =>
    rcases Nat.lt_or_ge i w.firstIndex with hbefore | hafter
    · have hfind : w.findClosedSegment i = .error 0 := ContiguousFrom.find_before h hbefore
      rw [hfind]
      simp only [IndexedLog.get?, log, hbefore, if_true]
    · obtain ⟨pre, s, post, hc, hfind, hs, hlo, hhi⟩ := ContiguousFrom.find h hafter (by omega)
      have hfind' : w.findClosedSegment i = .ok pre.length := hfind
      have hget : w.log.get? i = s.segment[i - s.startIndex]? := by
        rw [IndexedLog.get?, log]
        dsimp only
        rw [if_neg (by omega), hc, closedEntries_append, closedEntries_cons, append_assoc,
          append_assoc, getElem?_append_right (by omega),
          getElem?_append_left (by omega)]
        congr 1
        omega
      rw [hfind', hget]
      simp only [hc, getElem?_append_right le_rfl, Nat.sub_self]
      rfl

variable {start : Nat} {closed : List (ClosedSegment (List R))}

/-- A log whose closed segments start at an index has this first index, if there are any. -/
theorem of_contiguousFrom (h : ContiguousFrom start closed) (o : List R) : Contiguous ⟨closed, o⟩ ∧
      (closed ≠ [] → log ⟨closed, o⟩ = ⟨start, closedEntries closed ++ o⟩) := by
  cases closed with
  | nil => exact ⟨trivial, fun hne => absurd rfl hne⟩
  | cons s rest =>
    obtain rfl : s.startIndex = start := h.1
    exact ⟨h, fun _ => rfl⟩

/-- Truncation inside the log keeps exactly the entries below the index. -/
theorem Contiguous.truncate_eq (h : w.Contiguous) (hstart : w.firstIndex < start) :
    ∃ w', w.truncate start = .ok w' ∧ w'.Contiguous ∧ w'.log = w.log.truncate start := by
  have hopen := h.openSegmentStartIndex_eq
  unfold truncate
  dsimp only
  split
  next hge =>
    have hall : (closedEntries w.closedSegments).take (start - w.firstIndex) =
        closedEntries w.closedSegments := take_of_length_le (by omega)
    have hrest : start - w.firstIndex - (closedEntries w.closedSegments).length =
        start - w.openSegmentStartIndex := by omega
    refine ⟨_, rfl, h, ?_⟩
    simp only [IndexedLog.truncate, log, take_append, hall, hrest]
    rfl
  next hlt =>
    obtain ⟨pre, s, post, hc, hfind, hs, hlo, hhi⟩ := ContiguousFrom.find h hstart.le (by omega)
    have hfind' : findClosedSegment { w with openSegment := SegmentOps.truncate w.openSegment 0 }
        start = .ok pre.length := hfind
    have hget : w.closedSegments[pre.length]? = some s := by
      rw [hc, getElem?_append_right le_rfl, Nat.sub_self, getElem?_cons_zero]
    have hpre : w.closedSegments.take pre.length = pre := by
      rw [hc, take_left]
    have hfrom : ContiguousFrom w.firstIndex (pre ++ s :: post) := hc ▸ h
    obtain ⟨hfromPre, _, hne, _⟩ := contiguousFrom_append.mp hfrom
    have hkept : w.log.truncate start =
        ⟨w.firstIndex, closedEntries pre ++ s.segment.take (start - s.startIndex)⟩ := by
      have hall : (closedEntries pre).take (start - w.firstIndex) = closedEntries pre :=
        take_of_length_le (by omega)
      have hrest : start - w.firstIndex - (closedEntries pre).length = start - s.startIndex := by
        omega
      have hnone : start - s.startIndex - s.segment.length = 0 := by omega
      simp only [IndexedLog.truncate, log, hc, closedEntries_append, closedEntries_cons,
        append_assoc, take_append, hall, hrest, hnone, Nat.zero_sub, take_zero,
        append_nil]
    simp only [hfind', hget, hpre]
    split
    next heq =>
      have hpreNe : pre ≠ [] := by
        rintro rfl
        simp at hs
        omega
      refine ⟨_, rfl, (of_contiguousFrom hfromPre _).1, ?_⟩
      rw [hkept, (of_contiguousFrom hfromPre _).2 hpreNe]
      simp [heq, SegmentOps.truncate]
    next hinside =>
      have hfrom' : ContiguousFrom w.firstIndex (pre ++ [{ s with
          segment := SegmentOps.flush (SegmentOps.truncate s.segment (start - s.startIndex)) }]) := by
        refine contiguousFrom_append.mpr ⟨hfromPre, hs, ?_, trivial⟩
        intro hnil
        rcases take_eq_nil_iff.mp hnil with hzero | hempty
        · omega
        · exact hne hempty
      refine ⟨_, rfl, (of_contiguousFrom hfrom' _).1, ?_⟩
      rw [hkept, (of_contiguousFrom hfrom' _).2 (by simp)]
      simp [SegmentOps.truncate, SegmentOps.flush]

theorem ContiguousFrom.eq_nil
    (h : ContiguousFrom start closed) (hempty : closedEntries closed = []) : closed = [] := by
  cases closed with
  | nil => rfl
  | cons s rest =>
    rw [closedEntries_cons, append_eq_nil_iff] at hempty
    exact absurd hempty.1 h.2.1

/-- Truncation at or before the first entry empties the log, and its indices start over. -/
theorem Contiguous.truncate_first (h : w.Contiguous) (hstart : start ≤ w.firstIndex) :
    w.truncate start = .ok ⟨[], []⟩ := by
  have hopen := h.openSegmentStartIndex_eq
  unfold truncate
  dsimp only
  split
  next hge =>
    have hlength : (closedEntries w.closedSegments).length = 0 := by omega
    have hc : w.closedSegments = [] := ContiguousFrom.eq_nil h (length_eq_zero_iff.mp hlength)
    have hzero : start - w.openSegmentStartIndex = 0 := by omega
    rw [hc, hzero]
    rfl
  next hlt =>
    rcases Nat.lt_or_eq_of_le hstart with hbefore | rfl
    · have hfind : findClosedSegment { w with openSegment := SegmentOps.truncate w.openSegment 0 }
          start = .error 0 := ContiguousFrom.find_before h hbefore
      have hassert : start ≤ (w.closedSegments[0]?.map ClosedSegment.startIndex).getD 0 := by
        rw [← head?_eq_getElem?]
        unfold firstIndex at hstart
        cases hc : w.closedSegments.head? with
        | none => simp [hc] at hstart ⊢; exact hstart
        | some s => simpa [hc] using hstart
      simp only [hfind, hassert]
      rfl
    · obtain ⟨pre, s, post, hc, hfind, hs, hlo, _⟩ := ContiguousFrom.find h le_rfl (by omega)
      have hfind' : findClosedSegment { w with openSegment := SegmentOps.truncate w.openSegment 0 }
          w.firstIndex = .ok pre.length := hfind
      have hfrom : ContiguousFrom w.firstIndex (pre ++ s :: post) := hc ▸ h
      have hpre : pre = [] := by
        apply ContiguousFrom.eq_nil (contiguousFrom_append.mp hfrom).1
        apply length_eq_zero_iff.mp
        omega
      subst hpre
      have hget : w.closedSegments[0]? = some s := by rw [hc]; rfl
      have heq : w.firstIndex = s.startIndex := by simpa using hs.symm
      simp only [hfind', length_nil, hget]
      rw [if_pos heq]
      rfl

/-- Prefix truncation drops whole closed segments whose entries stand below the index, and
none of the last `retainClosed` ones. -/
theorem Contiguous.prefixTruncate_eq (h : w.Contiguous) (retainClosed : ℕ+) (stop : Nat) :
    ∃ n, n ≤ w.closedSegments.length - retainClosed ∧
      w.prefixTruncate retainClosed stop = .ok ⟨w.closedSegments.drop n, w.openSegment⟩ ∧
      (n = 0 ∨ w.firstIndex + (closedEntries (w.closedSegments.take n)).length ≤ stop) := by
  have hopen := h.openSegmentStartIndex_eq
  unfold prefixTruncate
  split
  next hle => exact ⟨0, Nat.zero_le _, rfl, .inl rfl⟩
  next hgt =>
    split
    next hge =>
      refine ⟨_, le_rfl, rfl, .inr ?_⟩
      have := length_closedEntries_take_le w.closedSegments (w.closedSegments.length - retainClosed)
      omega
    next hlt =>
      have hstop : stop < w.firstIndex + (closedEntries w.closedSegments).length := by omega
      obtain ⟨pre, s, post, hc, hfind, hs, hlo, _⟩ := ContiguousFrom.find h (Nat.le_of_not_le hgt) hstop
      have hfind' : w.findClosedSegment stop = .ok pre.length := hfind
      refine ⟨min pre.length (w.closedSegments.length - retainClosed), Nat.min_le_right _ _, ?_,
        .inr ?_⟩
      · rw [hfind']
      · rw [hc, take_append_of_le_length (Nat.min_le_left _ _)]
        have := length_closedEntries_take_le pre (min pre.length
          ((pre ++ s :: post).length - retainClosed))
        omega

/-- Without its first closed segments, but not without all, a log has lost its first entries. -/
theorem Contiguous.drop_closed (h : w.Contiguous) {pre rest : List (ClosedSegment (List R))}
    (hclosed : w.closedSegments = pre ++ rest) (hrest : rest ≠ []) (o : List R) :
    Contiguous ⟨rest, o⟩ ∧
      log ⟨rest, o⟩ = ⟨w.firstIndex + (closedEntries pre).length, closedEntries rest ++ o⟩ ∧
      closedEntries rest ≠ [] := by
  have hfrom : ContiguousFrom w.firstIndex (pre ++ rest) := hclosed ▸ h
  obtain ⟨-, hfrom⟩ := contiguousFrom_append.mp hfrom
  obtain ⟨hc, hlog⟩ := of_contiguousFrom hfrom o
  exact ⟨hc, hlog hrest, mt hfrom.eq_nil hrest⟩

/-- Prefix truncation drops closed segments one by one. At any time entries below the index are
gone from the log, but never all of them. -/
theorem Contiguous.prefixTruncate_steps (h : w.Contiguous) (retainClosed : ℕ+) (stop : Nat) :
    ∃ w', w.prefixTruncate retainClosed stop = .ok w' ∧ w'.openSegment = w.openSegment ∧
      w'.closedSegments <:+ w.closedSegments ∧
      ∀ rest, rest <:+ w.closedSegments → w'.closedSegments <:+ rest →
        Contiguous ⟨rest, w.openSegment⟩ ∧ ∃ k, log ⟨rest, w.openSegment⟩ = w.log.dropFirst k ∧
          (k = 0 ∨ w.log.first + k ≤ stop ∧ k < w.log.entries.length) := by
  obtain ⟨n, hn, hwal, hbelow⟩ := h.prefixTruncate_eq retainClosed stop
  refine ⟨_, hwal, rfl, drop_suffix n _, fun rest hrest hdrop => ?_⟩
  obtain ⟨j, hj, rfl⟩ : ∃ j ≤ n, rest = w.closedSegments.drop j := by
    have hlength := hdrop.length_le
    rw [length_drop] at hlength
    exact ⟨w.closedSegments.length - rest.length, by omega, suffix_iff_eq_drop.mp hrest⟩
  rcases Nat.eq_zero_or_pos j with rfl | hpos
  · exact ⟨h, 0, by simp [IndexedLog.dropFirst], .inl rfl⟩
  · have hretain := retainClosed.pos
    have hne : w.closedSegments.drop j ≠ [] := by
      intro hnil
      have := drop_eq_nil_iff.mp hnil
      omega
    obtain ⟨hc, hlog, hleft⟩ :=
      h.drop_closed (take_append_drop j w.closedSegments).symm hne w.openSegment
    have hsplit : closedEntries w.closedSegments =
        closedEntries (w.closedSegments.take j) ++ closedEntries (w.closedSegments.drop j) := by
      rw [← closedEntries_append, take_append_drop]
    refine ⟨hc, (closedEntries (w.closedSegments.take j)).length, ?_, .inr ⟨?_, ?_⟩⟩
    · rw [hlog]
      simp only [IndexedLog.dropFirst, log, hsplit, append_assoc, drop_left]
    · have hle := length_closedEntries_take_le (w.closedSegments.take n) j
      rw [take_take, Nat.min_eq_left hj] at hle
      exact (Nat.add_le_add_left hle _).trans (hbelow.resolve_left (by omega))
    · have := length_pos_iff.mpr hleft
      simp only [log, hsplit, length_append]
      omega

/-- Prefix truncation drops entries below the index from the log, but never all of them. -/
theorem Contiguous.exists_prefixTruncate (h : w.Contiguous) (retainClosed : ℕ+) (stop : Nat) :
    ∃ w' k, w.prefixTruncate retainClosed stop = .ok w' ∧ w'.Contiguous ∧ w'.log = w.log.dropFirst k ∧
      (k = 0 ∨ w.log.first + k ≤ stop ∧ k < w.log.entries.length) := by
  obtain ⟨⟨closed, o⟩, hwal, rfl, hsuffix, hsteps⟩ := h.prefixTruncate_steps retainClosed stop
  obtain ⟨hc, k, hlog, hbelow⟩ := hsteps closed hsuffix suffix_rfl
  exact ⟨_, k, hwal, hc, hlog, hbelow⟩

/-! ### Appending -/

/-- Append an entry and return its index. Whether the open segment is full depends on the
sizes of the entries; a full segment is retired first, unless it is empty. -/
def append (w : SegmentList (List R)) (full : Bool) (r : R) : SegmentList (List R) × Nat :=
  let w := if full && !w.openSegment.isEmpty then w.retireOpenSegment [] else w
  ({ w with openSegment := w.openSegment ++ [r] }, w.openSegmentStartIndex + w.openSegment.length)

theorem ContiguousFrom.len_ne_zero
    (h : ContiguousFrom start closed) : ∀ s ∈ closed, SegmentOps.len s.segment ≠ 0 := by
  induction closed generalizing start with
  | nil => simp
  | cons s rest ih =>
    intro t ht hzero
    rcases mem_cons.mp ht with rfl | ht
    · exact h.2.1 (length_eq_zero_iff.mp hzero)
    · exact ih h.2.2 t ht hzero

section

variable (h : w.Contiguous)

include h

/-- The closed segments are not empty, so retiring the open one removes none of them. -/
theorem Contiguous.retireOpenSegment_eq (next : List R) : w.retireOpenSegment next =
      ⟨w.closedSegments ++ [⟨w.openSegmentStartIndex, w.openSegment⟩], next⟩ := by
  rw [SegmentList.retireOpenSegment, dropEmptyLast_eq (ContiguousFrom.len_ne_zero h)]
  rfl

theorem Contiguous.retireOpenSegment (hne : w.openSegment ≠ []) :
    (w.retireOpenSegment []).Contiguous ∧ (w.retireOpenSegment []).log = w.log := by
  have hopen := h.openSegmentStartIndex_eq
  have hfrom : ContiguousFrom w.firstIndex
      (w.closedSegments ++ [⟨w.openSegmentStartIndex, w.openSegment⟩]) :=
    contiguousFrom_append.mpr ⟨h, hopen, hne, trivial⟩
  rw [h.retireOpenSegment_eq]
  refine ⟨(of_contiguousFrom hfrom _).1, ?_⟩
  rw [(of_contiguousFrom hfrom _).2 (by simp)]
  simp [log]

/-- An append adds one entry at the end of the log and returns its index. -/
theorem Contiguous.append (full : Bool) (r : R) :
    (w.append full r).1.Contiguous ∧ (w.append full r).1.log = w.log.push r ∧
      (w.append full r).2 = w.log.next := by
  obtain ⟨v, hv, hlog, heq⟩ : ∃ v : SegmentList (List R), v.Contiguous ∧ v.log = w.log ∧
      w.append full r = ({ v with openSegment := v.openSegment ++ [r] },
          v.openSegmentStartIndex + v.openSegment.length) := by
    by_cases hfull : (full && !w.openSegment.isEmpty) = true
    · have hne : w.openSegment ≠ [] := by
        simp at hfull
        exact hfull.2
      obtain ⟨hv, hlog⟩ := h.retireOpenSegment hne
      exact ⟨_, hv, hlog, by rw [SegmentList.append, if_pos hfull]⟩
    · exact ⟨w, h, rfl, by rw [SegmentList.append, if_neg hfull]⟩
  rw [heq, ← hlog, hv.next_eq]
  refine ⟨hv, ?_, rfl⟩
  simp only [log, IndexedLog.push, append_assoc]
  rfl

theorem Contiguous.lastIndex_eq : w.lastIndex = w.log.first + (w.log.entries.length - 1) := by
  rw [lastIndex, h.numEntries_eq]
  rfl

end

end

/-! ## Simulation of segments

The index computations of a WAL only look at a segment through `SegmentOps`. So if the
segments of one list hold the entries of the segments of another, every operation gives
related lists again. With lists on one side this carries the facts about the indexed log
over to segments that are files.
-/

/-- The operations on a type of segments do to the entries what the list operations do. -/
structure Simulates {S : Type} [SegmentOps S R] (r : S → List R → Prop) : Prop where
  len : ∀ {s es}, r s es → SegmentOps.len s = es.length
  entry : ∀ {s es}, r s es → ∀ i, SegmentOps.entry s i = .ok es[i]?
  truncate : ∀ {s es}, r s es → ∀ n, r (SegmentOps.truncate s n) (es.take n)
  flush : ∀ {s es}, r s es → r (SegmentOps.flush s) es

/-- The same closed segments and the same open one, up to `r`. -/
structure Corresponds {S : Type} (r : S → List R → Prop) (w : SegmentList S)
    (v : SegmentList (List R)) : Prop where
  closedSegments : List.Forall₂ (fun s t => s.startIndex = t.startIndex ∧ r s.segment t.segment)
    w.closedSegments v.closedSegments
  openSegment : r w.openSegment v.openSegment

namespace Corresponds

variable {S : Type} {r : S → List R → Prop} {w : SegmentList S} {v : SegmentList (List R)}

theorem firstIndex_eq (h : Corresponds r w v) : w.firstIndex = v.firstIndex := by
  have hclosed := h.closedSegments
  unfold firstIndex
  generalize w.closedSegments = cs at hclosed
  generalize v.closedSegments = ds at hclosed
  cases hclosed with
  | nil => rfl
  | cons hs _ => exact hs.1

variable {t : ClosedSegment (List R)}

/-- The closed segments at a position correspond. -/
theorem getElem?_closed (h : Corresponds r w v) {i : Nat} (ht : v.closedSegments[i]? = some t) :
    ∃ s, w.closedSegments[i]? = some s ∧ s.startIndex = t.startIndex ∧ r s.segment t.segment := by
  obtain ⟨hi, rfl⟩ := List.getElem?_eq_some_iff.mp ht
  have hi' : i < w.closedSegments.length := by
    rw [h.closedSegments.length_eq]
    exact hi
  exact ⟨w.closedSegments[i], getElem?_eq_getElem hi', h.closedSegments.get hi' hi⟩

theorem getElem?_closed_none (h : Corresponds r w v) {i : Nat}
    (ht : v.closedSegments[i]? = none) : w.closedSegments[i]? = none := by
  rw [getElem?_eq_none_iff] at ht ⊢
  rwa [h.closedSegments.length_eq]

theorem map_startIndex_getElem? (h : Corresponds r w v) (i : Nat) :
    w.closedSegments[i]?.map ClosedSegment.startIndex =
      v.closedSegments[i]?.map ClosedSegment.startIndex := by
  cases ht : v.closedSegments[i]? with
  | none => rw [h.getElem?_closed_none ht]; rfl
  | some t =>
    obtain ⟨s, hs, hstart, _⟩ := h.getElem?_closed ht
    rw [hs, Option.map_some, Option.map_some, hstart]

variable {s : ClosedSegment S}

theorem exists_of_mem (h : Corresponds r w v) (hs : s ∈ w.closedSegments) :
    ∃ t ∈ v.closedSegments, s.startIndex = t.startIndex ∧ r s.segment t.segment := by
  obtain ⟨i, hi, rfl⟩ := mem_iff_getElem.mp hs
  have hi' : i < v.closedSegments.length := by rwa [← h.closedSegments.length_eq]
  exact ⟨v.closedSegments[i], getElem_mem hi', h.closedSegments.get hi hi'⟩

variable [SegmentOps S R]

section

variable (hr : Simulates r)

include hr

theorem stopIndex_eq
    (h : s.startIndex = t.startIndex ∧ r s.segment t.segment) : stopIndex s = stopIndex t := by
  rw [stopIndex, h.1, hr.len h.2]
  rfl

theorem openSegmentStartIndex_eq (h : Corresponds r w v) :
    w.openSegmentStartIndex = v.openSegmentStartIndex := by
  have hclosed := forall₂_reverse_iff.mpr h.closedSegments
  unfold openSegmentStartIndex
  rw [getLast?_eq_head?_reverse, getLast?_eq_head?_reverse]
  generalize w.closedSegments.reverse = cs at hclosed
  generalize v.closedSegments.reverse = ds at hclosed
  cases hclosed with
  | nil => rfl
  | cons hs _ => exact stopIndex_eq hr hs

theorem compareIndex_eq (i : Nat) (h : s.startIndex = t.startIndex ∧ r s.segment t.segment) :
    compareIndex i s = compareIndex i t := by
  rw [compareIndex, compareIndex, stopIndex_eq hr h, h.1]

theorem findClosedSegment_eq (h : Corresponds r w v) (i : Nat) :
    w.findClosedSegment i = v.findClosedSegment i := by
  have hclosed := h.closedSegments
  apply binarySearchBy_congr
  exact hclosed.imp fun _ _ hs => compareIndex_eq hr i hs

theorem entry_eq (h : Corresponds r w v) (i : Nat) : w.entry i = v.entry i := by
  unfold entry
  rw [h.openSegmentStartIndex_eq hr, h.findClosedSegment_eq hr]
  dsimp only
  split
  · exact hr.entry h.openSegment _
  · cases v.findClosedSegment i with
    | error j => rfl
    | ok j =>
      dsimp only
      cases ht : v.closedSegments[j]? with
      | none => rw [h.getElem?_closed_none ht]
      | some t =>
        obtain ⟨s, hs, hstart, hr'⟩ := h.getElem?_closed ht
        rw [hs]
        dsimp only
        rw [hstart]
        exact hr.entry hr' _

variable {v' : SegmentList (List R)}

theorem truncate (h : Corresponds r w v) {start : Nat} (hv : v.truncate start = .ok v') :
    ∃ w', w.truncate start = .ok w' ∧ Corresponds r w' v' := by
  unfold SegmentList.truncate at hv ⊢
  dsimp only at hv ⊢
  rw [h.openSegmentStartIndex_eq hr]
  split at hv
  next hge =>
    cases hv
    rw [if_pos hge]
    exact ⟨_, rfl, h.closedSegments, hr.truncate h.openSegment _⟩
  next hlt =>
    rw [if_neg hlt]
    have hopen : Corresponds r { w with openSegment := SegmentOps.truncate w.openSegment 0 }
        { v with openSegment := SegmentOps.truncate v.openSegment 0 } :=
      ⟨h.closedSegments, hr.truncate h.openSegment 0⟩
    rw [hopen.findClosedSegment_eq hr]
    split at hv
    next j hfind =>
      split at hv
      next t ht =>
        obtain ⟨s, hs, hstart, hr'⟩ := h.getElem?_closed ht
        rw [hs]
        dsimp only
        rw [hstart]
        split at hv
        next heq =>
          cases hv
          rw [if_pos heq]
          exact ⟨_, rfl, forall₂_take _ h.closedSegments, hopen.openSegment⟩
        next hne =>
          cases hv
          rw [if_neg hne]
          refine ⟨_, rfl, ?_, hopen.openSegment⟩
          apply rel_append (forall₂_take _ h.closedSegments)
          exact .cons ⟨rfl, hr.flush (hr.truncate hr' _)⟩ .nil
      next => cases hv
    next j hfind =>
      split at hv
      next hassert =>
        cases hv
        refine ⟨_, if_pos ?_, .nil, hopen.openSegment⟩
        rwa [h.map_startIndex_getElem?]
      next => cases hv

theorem prefixTruncate (h : Corresponds r w v) {retainClosed : ℕ+} {stop : Nat}
    (hv : v.prefixTruncate retainClosed stop = .ok v') :
    ∃ w', w.prefixTruncate retainClosed stop = .ok w' ∧ Corresponds r w' v' := by
  unfold SegmentList.prefixTruncate at hv ⊢
  rw [h.firstIndex_eq, h.openSegmentStartIndex_eq hr, h.findClosedSegment_eq hr,
    h.closedSegments.length_eq]
  split at hv
  next hle =>
    cases hv
    rw [if_pos hle]
    exact ⟨w, rfl, h⟩
  next hgt =>
    rw [if_neg hgt]
    split at hv
    next hge =>
      cases hv
      rw [if_pos hge]
      exact ⟨_, rfl, forall₂_drop _ h.closedSegments, h.openSegment⟩
    next hlt =>
      rw [if_neg hlt]
      split at hv
      next j hfind =>
        cases hv
        exact ⟨_, rfl, forall₂_drop _ h.closedSegments, h.openSegment⟩
      next => cases hv

theorem retireOpenSegment (h : Corresponds r w v) (hv : v.Contiguous) {s : S}
    {es : List R} (hs : r s es) :
    Corresponds r (w.retireOpenSegment s) (v.retireOpenSegment es) := by
  have hne : ∀ s ∈ w.closedSegments, SegmentOps.len s.segment ≠ 0 := by
    intro s hs
    obtain ⟨t, ht, _, hrel⟩ := h.exists_of_mem hs
    rw [hr.len hrel]
    exact ContiguousFrom.len_ne_zero hv t ht
  rw [hv.retireOpenSegment_eq, SegmentList.retireOpenSegment, dropEmptyLast_eq hne]
  refine ⟨rel_append h.closedSegments ?_, hs⟩
  exact .cons ⟨h.openSegmentStartIndex_eq hr, hr.flush h.openSegment⟩ .nil

end

end Corresponds

end SegmentList

end Qdrant.Wal
