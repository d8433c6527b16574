-- SUMMARY: The operations on the segments of a WAL as sequences of writes, and the logs that a crash between two of them leaves.
import Qdrant.Base.Crash
import Qdrant.Wal.SegmentList

/-!
# Writes to the segments of a WAL

An operation on a WAL changes several files, one after the other: a truncation empties the open
segment, cuts one closed segment and deletes the files behind it, and a full segment is renamed
before the next one is written. A crash of the process leaves the files between two of these
writes. A flush only matters when the machine itself goes down.

`Torn` are the segments that an interrupted truncation can leave. Segments are deleted front to
back, so if some are to stay, there is a gap behind them until the last one is gone, and the WAL
cannot be opened. If all are to be deleted, the log just starts later.
-/

namespace Qdrant.Wal.SegmentList

open List Crash

/-! ## Code -/

section

variable {S R : Type} [SegmentOps S R]

/-- A write to one file. -/
def writeFile (f : SegmentList S → SegmentList S) : Prog (SegmentList S) IoError Unit :=
  .write fun w => .ok ((), f w)

/-- Delete the closed segments that stand between others, front to back. -/
def deleteSegments (before after : List (ClosedSegment S)) :
    List (ClosedSegment S) → Prog (SegmentList S) IoError Unit
  | [] => pure ()
  | _ :: rest => do
    writeFile fun w => { w with closedSegments := before ++ rest ++ after }
    deleteSegments before after rest

/-- The writes of `truncate`. -/
def truncateFiles (start : Nat) : Prog (SegmentList S) IoError Unit := do
  let w ← .get
  let openStartIndex := w.openSegmentStartIndex
  if start ≥ openStartIndex then
    writeFile fun w =>
      { w with openSegment := SegmentOps.truncate w.openSegment (start - openStartIndex) }
  else
    writeFile fun w => { w with openSegment := SegmentOps.truncate w.openSegment 0 }
    match w.findClosedSegment start with
    | .ok i =>
      match w.closedSegments[i]? with
      | some s =>
        if start = s.startIndex then
          deleteSegments (w.closedSegments.take i) [] (w.closedSegments.drop i)
        else
          let segment := SegmentOps.truncate s.segment (start - s.startIndex)
          let s := { s with segment := SegmentOps.flush segment }
          writeFile fun w => { w with closedSegments := w.closedSegments.set i s }
          deleteSegments (w.closedSegments.take i ++ [s]) [] (w.closedSegments.drop (i + 1))
      | none => throw (.panicked "index out of bounds")
    | .error i =>
      if start ≤ (w.closedSegments[i]?.map ClosedSegment.startIndex).getD 0 then
        deleteSegments [] [] w.closedSegments
      else throw (.panicked "assertion failed")

/-- Remove all entries. -/
def clear : Prog (SegmentList S) IoError Unit := do
  let w ← .get
  truncateFiles w.firstIndex

/-- The writes of `prefixTruncate`. -/
def prefixTruncateFiles (retainClosed : ℕ+) (stop : Nat) : Prog (SegmentList S) IoError Unit := do
  let w ← .get
  if stop ≤ w.firstIndex then pure ()
  else
    let retainStartIndex := w.closedSegments.length - retainClosed
    if stop ≥ w.openSegmentStartIndex then
      deleteSegments [] (w.closedSegments.drop retainStartIndex)
        (w.closedSegments.take retainStartIndex)
    else
      match w.findClosedSegment stop with
      | .ok i =>
        let truncateUntilIndex := min i retainStartIndex
        deleteSegments [] (w.closedSegments.drop truncateUntilIndex)
          (w.closedSegments.take truncateUntilIndex)
      | .error _ => throw (.panicked "called `Result::unwrap()` on an `Err` value")

/-- The writes of `append`: a full segment is retired first. -/
def appendFiles (full : Bool) (r : R) : Prog (SegmentList (List R)) IoError Nat := do
  let w ← .get
  if full && !w.openSegment.isEmpty then writeFile fun w => w.retireOpenSegment []
  .write fun w => .ok (w.openSegmentStartIndex + w.openSegment.length,
    { w with openSegment := w.openSegment ++ [r] })

/-! ## Between two writes -/

/-- What a truncation can leave: the segments as they were, without the entries of the open one, or
with those that are kept and some that are not deleted yet. -/
def Torn (w : SegmentList S) (start : Nat) (t : SegmentList S) : Prop :=
  t = w ∨ start < w.openSegmentStartIndex ∧
    (t = { w with openSegment := SegmentOps.truncate w.openSegment 0 } ∨
      ∃ kept rest, w.truncate start = .ok ⟨kept, SegmentOps.truncate w.openSegment 0⟩ ∧
        rest <:+ w.closedSegments ∧ rest ≠ [] ∧
        t = ⟨kept ++ rest, SegmentOps.truncate w.openSegment 0⟩)

variable {Q : Unit → SegmentList S → Prop} {E : IoError → SegmentList S → Prop}
  {C : SegmentList S → Prop} {w w' : SegmentList S}

theorem wp_writeFile {f : SegmentList S → SegmentList S} :
    wp (writeFile f) Q E C w ↔ C w ∧ Q () (f w) := wp_write rfl

theorem wp_deleteSegments {before after l : List (ClosedSegment S)}
    (hw : w.closedSegments = before ++ l ++ after)
    (hC : ∀ rest, rest <:+ l → rest ≠ [] → C ⟨before ++ rest ++ after, w.openSegment⟩)
    (hQ : Q () ⟨before ++ after, w.openSegment⟩) :
    wp (deleteSegments before after l) Q E C w := by
  induction l generalizing w with
  | nil =>
    obtain ⟨closed, o⟩ := w
    obtain rfl : closed = before ++ [] ++ after := hw
    apply (wp_pure _).mpr
    rwa [append_nil]
  | cons s rest ih =>
    have hhere := hC (s :: rest) suffix_rfl (cons_ne_nil _ _)
    rw [← hw] at hhere
    apply wp_bind.mpr
    apply wp_writeFile.mpr
    refine ⟨hhere, ih rfl ?_ hQ⟩
    exact fun rest' hsuffix => hC rest' (hsuffix.trans (suffix_cons s rest))

variable {start : Nat}

/-- The files behind what is kept are deleted. -/
theorem wp_deleteSegments_behind {kept l : List (ClosedSegment S)}
    (hw : w.truncate start = .ok ⟨kept, SegmentOps.truncate w.openSegment 0⟩)
    (hlt : start < w.openSegmentStartIndex) (hl : l <:+ w.closedSegments) :
    wp (deleteSegments kept [] l) (fun _ t => t = ⟨kept, SegmentOps.truncate w.openSegment 0⟩) E
      (Torn w start) ⟨kept ++ l, SegmentOps.truncate w.openSegment 0⟩ := by
  apply wp_deleteSegments (append_nil _).symm
  · intro rest hrest hne
    rw [append_nil]
    exact .inr ⟨hlt, .inr ⟨kept, rest, hw, hrest.trans hl, hne, rfl⟩⟩
  · rw [append_nil]

/-- The writes of a truncation give what it gives as a whole. -/
theorem wp_truncateFiles (hw : w.truncate start = .ok w') :
    wp (truncateFiles start) (fun _ t => t = w') E (Torn w start) w := by
  have htruncate := hw
  unfold truncate at hw
  dsimp only at hw
  apply wp_get_bind
  dsimp only
  split at hw
  next hge =>
    cases hw
    rw [if_pos hge]
    exact wp_writeFile.mpr ⟨.inl rfl, rfl⟩
  next hlt =>
    have hfind : findClosedSegment { w with openSegment := SegmentOps.truncate w.openSegment 0 }
        start = w.findClosedSegment start := rfl
    rw [hfind] at hw
    rw [if_neg hlt]
    rw [not_le] at hlt
    apply wp_bind.mpr
    apply wp_writeFile.mpr
    refine ⟨.inl rfl, ?_⟩
    cases hi : w.findClosedSegment start with
    | ok i =>
      rw [hi] at hw
      dsimp only at hw ⊢
      cases hs : w.closedSegments[i]? with
      | none =>
        rw [hs] at hw
        cases hw
      | some s =>
        rw [hs] at hw
        dsimp only at hw ⊢
        split at hw
        next heq =>
          cases hw
          rw [if_pos heq]
          have hdelete := wp_deleteSegments_behind (E := E) htruncate hlt (drop_suffix i _)
          rwa [take_append_drop] at hdelete
        next hinside =>
          cases hw
          rw [if_neg hinside]
          apply wp_bind.mpr
          apply wp_writeFile.mpr
          refine ⟨.inr ⟨hlt, .inl rfl⟩, ?_⟩
          have hi' := (List.getElem?_eq_some_iff.mp hs).1
          rw [set_eq_take_append_cons_drop, if_pos hi', append_cons _ _ (w.closedSegments.drop _)]
          exact wp_deleteSegments_behind htruncate hlt (drop_suffix (i + 1) _)
    | error i =>
      rw [hi] at hw
      dsimp only at hw ⊢
      split at hw
      next hassert =>
        cases hw
        rw [if_pos hassert]
        exact wp_deleteSegments_behind htruncate hlt suffix_rfl
      next => cases hw

/-- Between two writes of a prefix truncation, some of the closed segments that it drops are there. -/
def DroppingTo (w w' t : SegmentList S) : Prop :=
  ∃ rest, rest <:+ w.closedSegments ∧ w'.closedSegments <:+ rest ∧ t = ⟨rest, w.openSegment⟩

theorem wp_deleteSegments_front (n : Nat) :
    wp (deleteSegments [] (w.closedSegments.drop n) (w.closedSegments.take n))
      (fun _ t => t = ⟨w.closedSegments.drop n, w.openSegment⟩) E
      (DroppingTo w ⟨w.closedSegments.drop n, w.openSegment⟩) w := by
  apply wp_deleteSegments
  · rw [nil_append, take_append_drop]
  · rintro rest ⟨before, hbefore⟩ -
    refine ⟨rest ++ w.closedSegments.drop n, ⟨before, ?_⟩, suffix_append _ _, rfl⟩
    rw [← append_assoc, hbefore, take_append_drop]
  · rfl

/-- The writes of a prefix truncation give what it gives as a whole. -/
theorem wp_prefixTruncateFiles {retainClosed : ℕ+}
    (hw : w.prefixTruncate retainClosed start = .ok w') :
    wp (prefixTruncateFiles retainClosed start) (fun _ t => t = w') E (DroppingTo w w') w := by
  unfold prefixTruncate at hw
  apply wp_get_bind
  split at hw
  next hle =>
    cases hw
    rw [if_pos hle]
    exact (wp_pure _).mpr rfl
  next hgt =>
    rw [if_neg hgt]
    dsimp only at hw ⊢
    split at hw
    next hge =>
      cases hw
      rw [if_pos hge]
      exact wp_deleteSegments_front _
    next hlt =>
      rw [if_neg hlt]
      cases hi : w.findClosedSegment start with
      | ok i =>
        rw [hi] at hw
        cases hw
        exact wp_deleteSegments_front _
      | error =>
        rw [hi] at hw
        cases hw

end

/-! ## The logs that are left -/

section

variable {R : Type} {w t : SegmentList (List R)} {start : Nat}

/-- A log that an interrupted truncation can leave: it is cut behind the index, and if everything is
to be removed, some of its first entries can be gone. -/
def TornLog (log : IndexedLog R) (start : Nat) (log' : IndexedLog R) : Prop :=
  ∃ stop k, start < stop ∧ log' = (log.truncate stop).dropFirst k ∧
    (k = 0 ∨ start ≤ log.first ∧ log'.entries ≠ [])

theorem TornLog.truncate {log : IndexedLog R} {stop : Nat} (h : start < stop) :
    TornLog log start (log.truncate stop) :=
  ⟨stop, 0, h, by rw [IndexedLog.dropFirst, drop_zero]; rfl, .inl rfl⟩

/-- In a list, nothing is left of a segment that is emptied. -/
theorem torn_list : w.Torn start t ↔ t = w ∨ start < w.openSegmentStartIndex ∧
      (t = ⟨w.closedSegments, []⟩ ∨ ∃ kept rest, w.truncate start = .ok ⟨kept, []⟩ ∧
        rest <:+ w.closedSegments ∧ rest ≠ [] ∧ t = ⟨kept ++ rest, []⟩) := Iff.rfl

variable (h : w.Contiguous)

include h

/-- Without the entries of the open segment, the log is cut where that starts. -/
theorem Contiguous.log_emptied :
    w.log.truncate w.openSegmentStartIndex = ⟨w.firstIndex, closedEntries w.closedSegments⟩ := by
  rw [h.openSegmentStartIndex_eq, IndexedLog.truncate, log, Nat.add_sub_cancel_left, take_left]

/-- If an interrupted truncation leaves segments without a gap, nothing below the index is lost. -/
theorem Contiguous.tornLog (ht : w.Torn start t) (hc : t.Contiguous) :
    TornLog w.log start t.log := by
  rcases torn_list.mp ht with rfl | ⟨hlt, rfl | ⟨kept, rest, hkept, ⟨pre, hpre⟩, hne, rfl⟩⟩
  · have hall : t.log.truncate (max (start + 1) t.log.next) = t.log := by
      rw [IndexedLog.truncate, take_of_length_le]
      rw [IndexedLog.next]
      omega
    have htorn : TornLog t.log start (t.log.truncate (max (start + 1) t.log.next)) :=
      .truncate (Nat.le_max_left (start + 1) t.log.next)
    rwa [hall] at htorn
  · have hlog : log ⟨w.closedSegments, []⟩ = w.log.truncate w.openSegmentStartIndex := by
      rw [h.log_emptied, log, append_nil]
      rfl
    rw [hlog]
    exact .truncate hlt
  · rcases Nat.lt_or_ge w.firstIndex start with hfirst | hfirst
    · -- Something is kept. What follows it must stand where it stood before, so nothing is missing.
      obtain ⟨w', hw', hc', hlog⟩ := h.truncate_eq hfirst
      rw [hkept] at hw'
      cases hw'
      have hkeptNe : kept ≠ [] := by
        rintro rfl
        have hlength := congrArg (fun l => l.entries.length) hlog
        have hopen := h.openSegmentStartIndex_eq
        simp only [IndexedLog.truncate, log, closedEntries_nil, append_nil, length_nil, length_take,
          length_append] at hlength
        omega
      have hfirstIndex : firstIndex ⟨kept ++ rest, []⟩ = w.firstIndex := by
        cases kept with
        | nil => exact absurd rfl hkeptNe
        | cons s kept => exact congrArg IndexedLog.first hlog
      have hfrom : ContiguousFrom w.firstIndex (kept ++ rest) := hfirstIndex ▸ hc
      have hfrom' : ContiguousFrom w.firstIndex (pre ++ rest) := hpre ▸ h
      have hlength : (closedEntries kept).length = (closedEntries pre).length := by
        cases rest with
        | nil => exact absurd rfl hne
        | cons s rest =>
          have hstart := (contiguousFrom_append.mp hfrom).2.1
          have hstart' := (contiguousFrom_append.mp hfrom').2.1
          omega
      have hpref : closedEntries kept <+: closedEntries pre ++ (closedEntries rest ++ w.openSegment) := by
        have hentries := congrArg IndexedLog.entries hlog
        simp only [log, append_nil, IndexedLog.truncate, ← hpre, closedEntries_append,
          append_assoc] at hentries
        rw [hentries]
        exact take_prefix _ _
      have hkeptEntries : closedEntries kept = closedEntries pre := by
        rw [prefix_iff_eq_take.mp hpref, hlength, take_left]
      have hlog' : log ⟨kept ++ rest, []⟩ = w.log.truncate w.openSegmentStartIndex := by
        rw [h.log_emptied, log, hfirstIndex, append_nil, closedEntries_append, hkeptEntries,
          ← closedEntries_append, hpre]
      rw [hlog']
      exact .truncate hlt
    · -- Nothing is kept, and the log has lost its first entries.
      rw [h.truncate_first hfirst] at hkept
      cases hkept
      obtain ⟨-, hlog, hleft⟩ := h.drop_closed hpre.symm hne []
      rw [nil_append, hlog, append_nil]
      refine ⟨w.openSegmentStartIndex, (closedEntries pre).length, hlt, ?_, .inr ⟨hfirst, hleft⟩⟩
      rw [h.log_emptied, IndexedLog.dropFirst, ← hpre, closedEntries_append, drop_left]

/-- No closed segment that an interrupted truncation leaves is empty. -/
theorem Contiguous.torn_ne_nil (ht : w.Torn start t) : ∀ s ∈ t.closedSegments, s.segment ≠ [] := by
  have hne := (contiguous_iff.mpr h).2
  rcases torn_list.mp ht with rfl | ⟨-, rfl | ⟨kept, rest, hkept, hrest, -, rfl⟩⟩
  · exact hne
  · exact hne
  · intro s hs
    rcases mem_append.mp hs with hs | hs
    · rcases Nat.lt_or_ge w.firstIndex start with hfirst | hfirst
      · obtain ⟨w', hw', hc', -⟩ := h.truncate_eq hfirst
        rw [hkept] at hw'
        cases hw'
        exact (contiguous_iff.mpr hc').2 s hs
      · rw [h.truncate_first hfirst] at hkept
        cases hkept
        cases hs
    · exact hne s (hrest.subset hs)

theorem Contiguous.wp_appendFiles (full : Bool) (r : R) {E : IoError → SegmentList (List R) → Prop} :
    wp (appendFiles full r) (fun i t => t = (w.append full r).1 ∧ i = (w.append full r).2) E
      (fun t => t.Contiguous ∧ t.log = w.log) w := by
  apply wp_get_bind
  by_cases hfull : (full && !w.openSegment.isEmpty) = true
  · have hne : w.openSegment ≠ [] := by
      simp at hfull
      exact hfull.2
    rw [if_pos hfull]
    apply wp_bind.mpr
    apply wp_writeFile.mpr
    refine ⟨⟨h, rfl⟩, (wp_write rfl).mpr ⟨h.retireOpenSegment hne, ?_⟩⟩
    rw [SegmentList.append, if_pos hfull]
    exact ⟨rfl, rfl⟩
  · rw [if_neg hfull]
    apply (wp_write rfl).mpr
    refine ⟨⟨h, rfl⟩, ?_⟩
    rw [SegmentList.append, if_neg hfull]
    exact ⟨rfl, rfl⟩

end

end Qdrant.Wal.SegmentList
