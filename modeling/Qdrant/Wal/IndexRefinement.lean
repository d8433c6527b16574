-- SUMMARY: The WAL on disk behaves as an indexed log, also across reopening its directory.
import Qdrant.Wal.Physical

/-!
# The WAL refines an indexed log

`Valid w v` says that the files of the WAL `w` hold the entries of the segments `v`, and
that the segments created ahead are new and have later ids. Every operation keeps it and
does to `v` what it does to lists of entries, so that the facts about the indexed log of
`v` hold for the files.
-/

namespace Qdrant.Wal

open Wal.Segment List Bytes SegmentList ClosedSegment

variable {crc32cAppend : Checksum}

/-! ## Segments that hold entries -/

/-- The segment file holds entries with this data. -/
def Segment.Holds (crc32cAppend : Checksum) (s : Segment) (es : List (List UInt8)) : Prop :=
  ∃ seed data, s.Represents crc32cAppend seed data ∧ es = data.map ByteSlice.bytes

variable {s : Segment} {es : List (List UInt8)}

theorem Segment.Holds.flush (h : s.Holds crc32cAppend es) : s.flush.Holds crc32cAppend es := by
  obtain ⟨seed, data, hs, rfl⟩ := h
  exact ⟨seed, data, { hs with }, rfl⟩

theorem Segment.holds_simulates : Simulates (Segment.Holds crc32cAppend) where
  len := by
    rintro s es ⟨seed, data, hs, rfl⟩
    rw [length_map]
    exact hs.len_eq
  entry := by
    rintro s es ⟨seed, data, hs, rfl⟩ i
    rw [getElem?_map]
    exact hs.entry i
  truncate := by
    rintro s es ⟨seed, data, hs, rfl⟩ n
    exact ⟨seed, _, hs.truncate n, map_take.symm⟩
  flush := Segment.Holds.flush

theorem Segment.Holds.isEmpty_eq (h : s.Holds crc32cAppend es) : s.isEmpty = es.isEmpty := by
  obtain ⟨seed, data, hs, rfl⟩ := h
  rw [hs.isEmpty_eq]
  cases data <;> rfl

/-- An entry that fits is appended. -/
theorem Segment.Holds.append (h : s.Holds crc32cAppend es)
    {data : ByteSlice} (hfit : s.sufficientCapacity data.len = true) :
    ∃ s', s.append crc32cAppend data = some (s', es.length) ∧
      s'.Holds crc32cAppend (es ++ [data.bytes]) := by
  obtain ⟨seed, old, hs, rfl⟩ := h
  obtain ⟨s', hs', h'⟩ := hs.append hfit
  rw [length_map]
  exact ⟨s', hs', seed, _, h', by rw [map_append]; rfl⟩

/-- An empty segment can be grown for every entry. -/
theorem Segment.Holds.ensureCapacity (h : s.Holds crc32cAppend []) (data : ByteSlice) :
    ∃ s', s.ensureCapacity data.len = .ok s' ∧ s'.Holds crc32cAppend [] ∧
      s'.sufficientCapacity data.len = true := by
  obtain ⟨seed, old, hs, hold⟩ := h
  obtain rfl : old = [] := map_eq_nil_iff.mp hold.symm
  have hsize : s.size = 8 := hs.size_eq
  have hlimit : s.size + footprint data.len < usizeLimit := by
    have hlt := data.length_lt
    have hpad := padding_lt data.len
    simp only [footprint, headerLen, crcLen, usizeLimit, ByteSlice.len] at hpad ⊢
    omega
  obtain ⟨s', hs'⟩ := hs.exists_ensureCapacity hlimit
  obtain ⟨h', hfit⟩ := hs.ensureCapacity hs'
  exact ⟨s', hs', ⟨seed, [], h', rfl⟩, hfit⟩

theorem Segment.Holds.openFile
    (h : s.Holds crc32cAppend es) (htail : TailBreaksChain crc32cAppend s.crc) :
    Segment.openFile crc32cAppend s.mmap = .ok s.flush := by
  obtain ⟨seed, data, hs, rfl⟩ := h
  exact hs.openFile htail

/-! ## Segments created ahead -/

/-- Sorting by a key finds the order in which the keys grow. -/
theorem insertionSort_eq {α : Type} {key : α → Nat} {l m : List α} (hperm : l.Perm m)
    (hm : (m.map key).Pairwise (· < ·)) : (l.insertionSort fun a b => key a ≤ key b) = m := by
  have hsorted : m.Pairwise fun a b => key a ≤ key b := (pairwise_map.mp hm).imp Nat.le_of_lt
  have hinj := inj_on_of_nodup_map (hm.imp Nat.ne_of_lt)
  have hsort : (l.insertionSort fun a b => key a ≤ key b).Perm m :=
    (perm_insertionSort _ l).trans hperm
  apply List.Perm.eq_of_pairwise _ (pairwise_insertionSort _ l) hsorted hsort
  intro a b ha hb hab hba
  exact hinj (hsort.subset ha) hb (Nat.le_antisymm hab hba)

theorem createSegments_ok (crc32cAppend : Checksum) (seeds : Nat → UInt32)
    {segmentCapacity : UInt64} (hcap : 8 ≤ segmentCapacity.toNat) (count id : Nat) :
    ∃ l, createSegments seeds segmentCapacity count id = .ok l ∧
      l.map OpenSegment.id = List.range' id count ∧
      ∀ s ∈ l, s.segment.Holds crc32cAppend [] := by
  induction count generalizing id with
  | zero => exact ⟨[], rfl, rfl, by simp⟩
  | succ count ih =>
    obtain ⟨rest, hrest, hids, hfresh⟩ := ih (id + 1)
    obtain ⟨s, hs⟩ : ∃ s, create segmentCapacity (seeds id) = .ok s := by
      have hroom : ¬ alignDown segmentCapacity.toNat < headerLen := by
        simp only [alignDown, headerLen]
        omega
      exact ⟨_, if_neg hroom⟩
    refine ⟨⟨id, s⟩ :: rest, ?_, ?_, ?_⟩
    · rw [createSegments, hs]
      rw [hrest]
    · rw [map_cons, hids]
      rfl
    · intro t ht
      rcases mem_cons.mp ht with rfl | ht
      · exact ⟨_, [], .of_create hs, rfl⟩
      · exact hfresh t ht

namespace SegmentCreator

/-- The waiting segments are new, and their ids grow from the id of the open segment on. -/
structure Valid (crc32cAppend : Checksum) (openId : Nat) (c : SegmentCreator) : Prop where
  capacity : 8 ≤ c.segmentCapacity.toNat
  queue : 0 < c.segmentQueueLen
  ids : (openId :: c.pendingSegments.map OpenSegment.id).Pairwise (· < ·)
  below : ∀ i ∈ openId :: c.pendingSegments.map OpenSegment.id, i < c.currentId
  fresh : ∀ s ∈ c.pendingSegments, s.segment.Holds crc32cAppend []
  thread : ∀ r, c.thread = some r → ∃ l, r = .ok l ∧ l ≠ [] ∧
    l.map OpenSegment.id = List.range' c.currentId l.length ∧
    ∀ s ∈ l, s.segment.Holds crc32cAppend []

/-- There is a segment to hand out, at the latest when the creation thread is done. -/
structure Ready (crc32cAppend : Checksum) (openId : Nat) (c : SegmentCreator) : Prop
    extends Valid crc32cAppend openId c where
  available : c.thread = none → c.pendingSegments ≠ []

variable {openId : Nat} {c : SegmentCreator}

theorem Valid.scheduleCreation (h : Valid crc32cAppend openId c) (seeds : Nat → UInt32) :
    Ready crc32cAppend openId (c.scheduleCreation seeds) := by
  unfold SegmentCreator.scheduleCreation
  split
  next hneeded =>
    obtain ⟨l, hl, hids, hfresh⟩ := createSegments_ok crc32cAppend seeds h.capacity
      (c.segmentQueueLen - c.pendingSegments.length) c.currentId
    have hlength : l.length = c.segmentQueueLen - c.pendingSegments.length := by
      have := congrArg List.length hids
      rwa [length_map, length_range'] at this
    refine ⟨⟨h.capacity, h.queue, h.ids, h.below, h.fresh, ?_⟩, ?_⟩
    · rintro r ⟨⟩
      refine ⟨l, hl, ?_, hlength ▸ hids, hfresh⟩
      rintro rfl
      rw [length_nil] at hlength
      omega
    · intro hnone
      cases hnone
  next hnot =>
    refine ⟨h, fun hnone hnil => hnot ⟨by rw [hnone]; rfl, ?_⟩⟩
    rw [hnil]
    exact h.queue

/-- The segments of the creation thread follow the waiting ones. -/
theorem Valid.pending_append (h : Valid crc32cAppend openId c) {l : List OpenSegment}
    (hids : l.map OpenSegment.id = List.range' c.currentId l.length)
    (hfresh : ∀ s ∈ l, s.segment.Holds crc32cAppend []) :
    (∀ s ∈ c.pendingSegments ++ l, s.segment.Holds crc32cAppend []) ∧
      (openId :: (c.pendingSegments ++ l).map OpenSegment.id).Pairwise (· < ·) := by
  refine ⟨fun s hs => (mem_append.mp hs).elim (h.fresh s) (hfresh s), ?_⟩
  rw [map_append, ← cons_append, pairwise_append, hids]
  refine ⟨h.ids, pairwise_lt_range', fun i hi j hj => ?_⟩
  exact (h.below i hi).trans_le (mem_range'_1.mp hj).1

theorem Ready.refillPending (h : Ready crc32cAppend openId c) (finished : Bool) :
    ∃ c', c.refillPending finished = .ok c' ∧ Valid crc32cAppend openId c' ∧
      c'.pendingSegments ≠ [] := by
  unfold SegmentCreator.refillPending
  cases hthread : c.thread with
  | none => exact ⟨c, rfl, h.toValid, h.available hthread⟩
  | some r =>
    obtain ⟨l, rfl, hne, hids, hfresh⟩ := h.thread r hthread
    dsimp only
    split
    next hjoin =>
      obtain ⟨hnew, hgrow⟩ := h.pending_append hids hfresh
      refine ⟨_, rfl, ⟨h.capacity, h.queue, hgrow, fun i hi => ?_, hnew, by simp⟩, by simp [hne]⟩
      rw [map_append, ← cons_append, mem_append, hids] at hi
      rcases hi with hi | hi
      · exact Nat.lt_add_right _ (h.below i hi)
      · exact (mem_range'_1.mp hi).2
    next hwait =>
      refine ⟨c, rfl, h.toValid, fun hnil => hwait ?_⟩
      rw [hnil]
      rfl

/-- The creator always hands out a new segment, with a later id. -/
theorem Ready.next (h : Ready crc32cAppend openId c) (seeds : Nat → UInt32) (finished : Bool) :
    ∃ s c', c.next seeds finished = .ok (s, c') ∧ Ready crc32cAppend s.id c' ∧
      s.segment.Holds crc32cAppend [] := by
  obtain ⟨c', hc', hvalid, hne⟩ := h.refillPending finished
  unfold SegmentCreator.next
  rw [hc']
  cases hpending : c'.pendingSegments with
  | nil => exact absurd hpending hne
  | cons s rest =>
    have hids := hvalid.ids
    have hbelow := hvalid.below
    have hfresh := hvalid.fresh
    rw [hpending] at hids hbelow hfresh
    dsimp only
    rw [hpending]
    refine ⟨s, _, rfl, ?_, hfresh s mem_cons_self⟩
    apply Valid.scheduleCreation
    exact ⟨hvalid.capacity, hvalid.queue, (pairwise_cons.mp hids).2,
      fun i hi => hbelow i (mem_cons_of_mem _ hi),
      fun t ht => hfresh t (mem_cons_of_mem _ ht), hvalid.thread⟩

/-- A creator over unused segments that follow the open one. -/
theorem ready_new {openSegment : OpenSegment} {unusedSegments : List OpenSegment}
    {segmentCapacity : UInt64} (hcap : 8 ≤ segmentCapacity.toNat)
    (hids : (openSegment.id :: unusedSegments.map OpenSegment.id).Pairwise (· < ·))
    (hfresh : ∀ s ∈ unusedSegments, s.segment.Holds crc32cAppend []) (seeds : Nat → UInt32)
    (segmentQueueLen : Nat) :
    Ready crc32cAppend openSegment.id
      (new seeds (some openSegment) unusedSegments segmentCapacity segmentQueueLen) := by
  have hsorted : (unusedSegments.insertionSort fun a b => a.id ≤ b.id) = unusedSegments :=
    insertionSort_eq (.refl _) (pairwise_cons.mp hids).2
  unfold new
  simp only [hsorted]
  apply Valid.scheduleCreation
  refine ⟨hcap, Nat.zero_lt_one.trans_le (Nat.le_max_right _ _), hids, ?_, hfresh, by simp⟩
  -- The last id in use is the greatest one.
  rcases eq_nil_or_concat unusedSegments with rfl | ⟨pre, last, rfl⟩
  · simp
  · simp only [concat_eq_append, getLast?_append, map_append, map_cons] at hids ⊢
    rw [← cons_append, pairwise_append] at hids
    intro i hi
    rw [← cons_append, mem_append] at hi
    rcases hi with hi | hi
    · exact Nat.lt_succ_of_lt (hids.2.2 i hi last.id mem_cons_self)
    · rw [mem_singleton.mp hi]
      exact Nat.lt_succ_self last.id

end SegmentCreator

/-! ## Operations -/

/-- The files of the WAL hold the entries of these segments. -/
structure Valid (crc32cAppend : Checksum) (w : Wal) (v : SegmentList (List (List UInt8))) :
    Prop where
  segments : Corresponds (Segment.Holds crc32cAppend) w.segments v
  contiguous : v.Contiguous
  creator : SegmentCreator.Ready crc32cAppend w.openId w.creator

section

variable {w : Wal} {v : SegmentList (List (List UInt8))}

section

variable (h : Valid crc32cAppend w v)

include h

theorem Valid.entry_eq (i : Nat) : w.entry i = .ok (v.log.get? i) := by
  rw [entry, h.segments.entry_eq holds_simulates, h.contiguous.entry_eq]

theorem Valid.retireOpenSegment (hne : v.openSegment ≠ [])
    (seeds : Nat → UInt32) (finished : Bool) :
    ∃ w', w.retireOpenSegment seeds finished = .ok w' ∧
      Valid crc32cAppend w' (v.retireOpenSegment []) := by
  obtain ⟨s, creator, hnext, hready, hs⟩ := h.creator.next seeds finished
  refine ⟨_, by rw [Wal.retireOpenSegment, hnext], ?_, ?_, hready⟩
  · exact h.segments.retireOpenSegment holds_simulates h.contiguous hs
  · exact (h.contiguous.retireOpenSegment hne).1

section

variable (seeds : Nat → UInt32) (finished : Bool) (data : ByteSlice)

/-- After making room the entry fits. The segment is retired first if it is not empty. -/
theorem Valid.makeRoom : ∃ w' full, w.makeRoom seeds finished data.len = .ok w' ∧
      Valid crc32cAppend w' (if full && !v.openSegment.isEmpty then v.retireOpenSegment [] else v) ∧
      w'.segments.openSegment.sufficientCapacity data.len = true := by
  unfold Wal.makeRoom
  cases hfit : w.segments.openSegment.sufficientCapacity data.len with
  | true => exact ⟨w, false, rfl, h, hfit⟩
  | false =>
    have hopen := h.segments.openSegment
    rw [hopen.isEmpty_eq]
    obtain ⟨u, hu, hvalid, hempty⟩ : ∃ u,
        (if !v.openSegment.isEmpty then w.retireOpenSegment seeds finished else .ok w) = .ok u ∧
        Valid crc32cAppend u
          (if true && !v.openSegment.isEmpty then v.retireOpenSegment [] else v) ∧
        u.segments.openSegment.Holds crc32cAppend [] := by
      cases hv : v.openSegment with
      | nil =>
        rw [hv] at hopen
        exact ⟨w, rfl, h, hopen⟩
      | cons e es =>
        obtain ⟨u, hu, hvalid⟩ := h.retireOpenSegment (by simp [hv]) seeds finished
        exact ⟨u, hu, hvalid, hvalid.segments.openSegment⟩
    obtain ⟨s, hs, hholds, hfits⟩ := hempty.ensureCapacity data
    refine ⟨{ u with segments := { u.segments with openSegment := s } }, true, ?_, ?_, hfits⟩
    · simp only [Bool.false_eq_true, if_false, hu, hs]
    · refine ⟨⟨hvalid.segments.closedSegments, ?_⟩, hvalid.contiguous, hvalid.creator⟩
      have hlen := (holds_simulates.len hvalid.segments.openSegment).symm.trans
        (holds_simulates.len hempty)
      rw [length_eq_zero_iff.mp hlen]
      exact hholds

/-- An append returns the next index of the log and adds the data to it. -/
theorem Valid.append : ∃ w' full, w.append crc32cAppend seeds finished data = .ok (w', v.log.next) ∧
      Valid crc32cAppend w' (v.append full data.bytes).1 := by
  obtain ⟨u, full, hu, hvalid, hfit⟩ := h.makeRoom seeds finished data
  obtain ⟨s, hs, hholds⟩ := hvalid.segments.openSegment.append hfit
  have hspec := h.contiguous.append full data.bytes
  refine ⟨{ u with segments := { u.segments with openSegment := s } }, full, ?_,
    ⟨hvalid.segments.closedSegments, hholds⟩, hspec.1, hvalid.creator⟩
  have hindex : u.segments.openSegmentStartIndex + _ = (v.append full data.bytes).2 :=
    congrArg (· + _) (hvalid.segments.openSegmentStartIndex_eq holds_simulates)
  simp only [Wal.append, hu, hs, hindex, hspec.2.2]

end

/-- Truncation never runs into an assertion. Behind the first index it keeps exactly the
entries below the given one. -/
theorem Valid.truncate (start : Nat) :
    ∃ w' v', w.truncate start = .ok w' ∧ Valid crc32cAppend w' v' ∧
      (w.firstIndex < start → v'.log = v.log.truncate start) := by
  have hfirst : w.firstIndex = v.firstIndex := h.segments.firstIndex_eq
  obtain ⟨v', hv', hc, hlog⟩ : ∃ v', v.truncate start = .ok v' ∧ v'.Contiguous ∧
      (w.firstIndex < start → v'.log = v.log.truncate start) := by
    rcases Nat.lt_or_ge w.firstIndex start with hlt | hge
    · obtain ⟨v', hv', hc, hlog⟩ := h.contiguous.truncate_eq (hfirst ▸ hlt)
      exact ⟨v', hv', hc, fun _ => hlog⟩
    · refine ⟨⟨[], []⟩, h.contiguous.truncate_first (hfirst ▸ hge), trivial, fun hlt => ?_⟩
      exact absurd hlt (not_lt.mpr hge)
  obtain ⟨segments, hs, hcorr⟩ := h.segments.truncate holds_simulates hv'
  exact ⟨{ w with segments }, v', by rw [Wal.truncate, hs], ⟨hcorr, hc, h.creator⟩, hlog⟩

/-- Prefix truncation drops entries below the index, in whole closed segments. -/
theorem Valid.prefixTruncate (stop : Nat) :
    ∃ w' v' n k, w.prefixTruncate stop = .ok w' ∧ Valid crc32cAppend w' v' ∧
      n ≤ w.segments.closedSegments.length - w.retainClosed ∧
      w'.segments.closedSegments = w.segments.closedSegments.drop n ∧
      v'.log = v.log.dropFirst k ∧ (k = 0 ∨ w.firstIndex + k ≤ stop) := by
  obtain ⟨v', k, hv', hc, hlog, hbelow⟩ := h.contiguous.exists_prefixTruncate w.retainClosed stop
  obtain ⟨segments, hs, hcorr⟩ := h.segments.prefixTruncate holds_simulates hv'
  obtain ⟨n, hn, rfl⟩ := prefixTruncate_ok hs
  have hfirst : w.firstIndex = v.log.first := h.segments.firstIndex_eq
  exact ⟨{ w with segments := _ }, v', n, k, by rw [Wal.prefixTruncate, hs], ⟨hcorr, hc, h.creator⟩,
    hn, rfl, hlog, hbelow.imp_right (hfirst ▸ And.left)⟩

end

/-! ## Reopening -/

/-- All segments that the WAL has files of. -/
def allSegments (w : Wal) : List Segment :=
  w.segments.closedSegments.map segment ++
    (⟨w.openId, w.segments.openSegment⟩ :: w.waitingSegments).map OpenSegment.segment

/-- The open segment file of a directory entry. -/
def openedEntry (crc32cAppend : Checksum) : DirEntry → Option OpenSegment
  | .opened id file => (Segment.openFile crc32cAppend file).toOption.map (OpenSegment.mk id)
  | _ => none

/-- The closed segment file of a directory entry. -/
def closedEntry (crc32cAppend : Checksum) : DirEntry → Option (ClosedSegment Segment)
  | .closed startIndex file =>
    (Segment.openFile crc32cAppend file).toOption.map (ClosedSegment.mk startIndex)
  | _ => none

/-- The file of a directory entry, if it is one of a segment. -/
def segmentFile : DirEntry → Option (List UInt8)
  | .opened _ file => some file
  | .closed _ file => some file
  | _ => none

/-- If every segment file can be opened, the order of the directory does not matter. -/
theorem readDir_eq {dir : List DirEntry}
    (h : ∀ e ∈ dir, ∀ file ∈ segmentFile e, ∃ s, Segment.openFile crc32cAppend file = .ok s) :
    readDir crc32cAppend dir =
      .ok (dir.filterMap (openedEntry crc32cAppend), dir.filterMap (closedEntry crc32cAppend)) := by
  induction dir with
  | nil => rfl
  | cons e dir ih =>
    have hrest := ih fun e he => h e (mem_cons_of_mem _ he)
    cases e with
    | closed i file | opened id file =>
      obtain ⟨s, hs⟩ := h _ mem_cons_self file rfl
      simp only [readDir, hs, hrest, filterMap_cons, openedEntry, closedEntry,
        Except.toOption, Option.map_some]
    | tmp | other => simpa only [readDir, filterMap_cons, openedEntry, closedEntry] using hrest

/-- The closed segments of a contiguous log pass the validation. -/
theorem validateClosed_eq {start : Nat} {closed : List (ClosedSegment Segment)}
    {closed' : List (ClosedSegment (List (List UInt8)))}
    (h : List.Forall₂ (fun s t => s.startIndex = t.startIndex ∧
      s.segment.Holds crc32cAppend t.segment) closed closed')
    (hc : ContiguousFrom start closed') :
    validateClosed start closed = .ok (start + (closedEntries closed').length) := by
  induction h generalizing start with
  | nil => rfl
  | @cons s t closed closed' hst hrest ih =>
    obtain ⟨hstart, _, hc⟩ := hc
    have hstop : stopIndex s = start + t.segment.length := by
      rw [Corresponds.stopIndex_eq holds_simulates hst, stopIndex_list, hstart]
    rw [validateClosed, hst.1, hstart, if_neg (Nat.lt_irrefl _), if_pos rfl, hstop, ih hc,
      closedEntries_cons, length_append, Nat.add_assoc]

/-- Empty segments behind the open one are unused. -/
theorem foldl_selectOpen {found : Found} {l : List OpenSegment}
    (hfound : found.openSegment.isSome) (hl : ∀ s ∈ l, s.segment.isEmpty = true) :
    l.foldl selectOpen found = { found with unusedSegments := found.unusedSegments ++ l } := by
  induction l generalizing found with
  | nil => rw [append_nil]; rfl
  | cons s l ih =>
    have hl' : ∀ t ∈ l, t.segment.isEmpty = true := fun t ht => hl t (mem_cons_of_mem _ ht)
    obtain ⟨o, ho⟩ := Option.isSome_iff_exists.mp hfound
    have hstep : selectOpen found s = { found with unusedSegments := found.unusedSegments ++ [s] } := by
      simp only [selectOpen, hl s mem_cons_self, ho, Bool.not_true, Bool.false_eq_true, if_false]
    have hsome : (selectOpen found s).openSegment.isSome := by rwa [hstep]
    have hrest := ih hsome hl'
    rw [foldl_cons, hrest, hstep]
    simp only [append_assoc, singleton_append]

theorem Valid.waitingSegments (h : Valid crc32cAppend w v) :
    (∀ s ∈ w.waitingSegments, s.segment.Holds crc32cAppend []) ∧
      ((⟨w.openId, w.segments.openSegment⟩ :: w.waitingSegments).map
        OpenSegment.id).Pairwise (· < ·) := by
  unfold Wal.waitingSegments
  cases hthread : w.creator.thread with
  | none => exact ⟨h.creator.fresh, h.creator.ids⟩
  | some r =>
    obtain ⟨l, rfl, _, hids, hfresh⟩ := h.creator.thread r hthread
    exact h.creator.pending_append hids hfresh

/-- The closed segments start at growing indices. -/
theorem ContiguousFrom.startIndex_pairwise {start : Nat}
    {closed : List (ClosedSegment (List (List UInt8)))} (h : ContiguousFrom start closed) :
    (closed.map startIndex).Pairwise (· < ·) ∧
      ∀ i ∈ closed.map ClosedSegment.startIndex, start ≤ i := by
  induction closed generalizing start with
  | nil => simp
  | cons s rest ih =>
    obtain ⟨hs, hne, hrest⟩ := h
    obtain ⟨hpair, hge⟩ := ih hrest
    have hpos : 0 < s.segment.length := length_pos_iff.mpr hne
    refine ⟨pairwise_cons.mpr ⟨fun i hi => ?_, hpair⟩, fun i hi => ?_⟩
    · have := hge i hi
      omega
    · rcases mem_cons.mp hi with rfl | hi
      · omega
      · have := hge i hi
        omega

/-- The open segments of the WAL, as its files give them back. -/
def openedSegments (w : Wal) : List OpenSegment :=
  (⟨w.openId, w.segments.openSegment⟩ :: w.waitingSegments).map fun s => ⟨s.id, s.segment.flush⟩

/-- The closed segments of the WAL, as its files give them back. -/
def flushedSegments (w : Wal) : List (ClosedSegment Segment) :=
  w.segments.closedSegments.map fun s => ⟨s.startIndex, s.segment.flush⟩

theorem Valid.exists_holds (h : Valid crc32cAppend w v) {s : Segment} (hs : s ∈ w.allSegments) :
    ∃ es, s.Holds crc32cAppend es := by
  rcases mem_append.mp hs with hs | hs
  · obtain ⟨c, hc, rfl⟩ := mem_map.mp hs
    obtain ⟨t, _, _, ht⟩ := h.segments.exists_of_mem hc
    exact ⟨_, ht⟩
  · rcases mem_cons.mp hs with rfl | hs
    · exact ⟨_, h.segments.openSegment⟩
    · obtain ⟨o, ho, rfl⟩ := mem_map.mp hs
      exact ⟨_, h.waitingSegments.1 o ho⟩

theorem filterMap_map_of_none {α β : Type} {f : DirEntry → Option α} {g : β → DirEntry}
    (h : ∀ b, f (g b) = none) (l : List β) : (l.map g).filterMap f = [] := by
  rw [filterMap_map, filterMap_eq_nil_iff]
  exact fun b _ => h b

theorem filterMap_map_of_some {α β : Type} {f : DirEntry → Option α} {g : β → DirEntry} {k : β → α}
    {l : List β} (h : ∀ b ∈ l, f (g b) = some (k b)) : (l.map g).filterMap f = l.map k := by
  rw [filterMap_map, ← filterMap_eq_map]
  exact filterMap_congr h

/-- Files that are no segments are ignored. -/
theorem filterMap_extra {α : Type} {f : DirEntry → Option α} {extra : List DirEntry}
    (hextra : ∀ e ∈ extra, e = .tmp ∨ e = .other) (htmp : f .tmp = none) (hother : f .other = none) :
    extra.filterMap f = [] := by
  rw [filterMap_eq_nil_iff]
  intro e he
  rcases hextra e he with rfl | rfl
  · exact htmp
  · exact hother

section

variable (hfile : ∀ s ∈ w.allSegments, Segment.openFile crc32cAppend s.mmap = .ok s.flush)
include hfile

theorem filterMap_openedEntry_files :
    w.files.filterMap (openedEntry crc32cAppend) = w.openedSegments := by
  rw [files, filterMap_append, filterMap_map_of_none fun _ => rfl]
  apply filterMap_map_of_some
  intro s hs
  rw [openedEntry, hfile _ (mem_append_right _ (mem_map_of_mem hs))]
  rfl

theorem filterMap_closedEntry_files :
    w.files.filterMap (closedEntry crc32cAppend) = w.flushedSegments := by
  have hopened := filterMap_map_of_none (f := closedEntry crc32cAppend)
    (g := fun s : OpenSegment => .opened s.id s.segment.mmap) fun _ => rfl
  rw [files, filterMap_append, hopened, append_nil]
  apply filterMap_map_of_some
  intro s hs
  rw [closedEntry, hfile _ (mem_append_left _ (mem_map_of_mem hs))]
  rfl

/-- Reading the directory gives the segments of the WAL back, in some order. -/
theorem readDir_files {dir extra : List DirEntry} (hdir : dir.Perm (w.files ++ extra))
    (hextra : ∀ e ∈ extra, e = .tmp ∨ e = .other) :
    ∃ opened closed, readDir crc32cAppend dir = .ok (opened, closed) ∧
      opened.Perm w.openedSegments ∧ closed.Perm w.flushedSegments := by
  refine ⟨_, _, readDir_eq fun e he file hsegment => ?_, ?_, ?_⟩
  · rcases mem_append.mp (hdir.subset he) with he | he
    · rcases mem_append.mp he with he | he
      · obtain ⟨s, hs, rfl⟩ := mem_map.mp he
        cases hsegment
        exact ⟨_, hfile _ (mem_append_left _ (mem_map_of_mem hs))⟩
      · obtain ⟨s, hs, rfl⟩ := mem_map.mp he
        cases hsegment
        exact ⟨_, hfile _ (mem_append_right _ (mem_map_of_mem hs))⟩
    · rcases hextra e he with rfl | rfl <;> cases hsegment
  · have hperm := hdir.filterMap (openedEntry crc32cAppend)
    rwa [filterMap_append, filterMap_openedEntry_files hfile, filterMap_extra hextra rfl rfl,
      append_nil] at hperm
  · have hperm := hdir.filterMap (closedEntry crc32cAppend)
    rwa [filterMap_append, filterMap_closedEntry_files hfile, filterMap_extra hextra rfl rfl,
      append_nil] at hperm

end

/-- Closing the WAL and opening its directory again finds the same entries. -/
theorem Valid.reopen (h : Valid crc32cAppend w v) {options : WalOptions}
    (hcap : 8 ≤ options.segmentCapacity.toNat) (seeds : Nat → UInt32) {dir extra : List DirEntry}
    (hdir : dir.Perm (w.files ++ extra)) (hextra : ∀ e ∈ extra, e = .tmp ∨ e = .other)
    (htail : ∀ s ∈ w.allSegments, Segment.TailBreaksChain crc32cAppend s.crc) :
    ∃ w', withOptions crc32cAppend seeds options dir = .ok w' ∧ Valid crc32cAppend w' v := by
  obtain ⟨hfresh, hids⟩ := h.waitingSegments
  have hfile : ∀ s ∈ w.allSegments, openFile crc32cAppend s.mmap = .ok s.flush := by
    intro s hs
    obtain ⟨es, hes⟩ := h.exists_holds hs
    exact hes.openFile (htail s hs)
  obtain ⟨opened, closed, hread, hopened, hclosed⟩ := readDir_files hfile hdir hextra
  have hflushed : List.Forall₂ (fun s t => s.startIndex = t.startIndex ∧ s.segment.Holds crc32cAppend t.segment)
      w.flushedSegments v.closedSegments := by
    apply List.forall₂_map_left_iff.mpr
    exact h.segments.closedSegments.imp fun s t hst => ⟨hst.1, hst.2.flush⟩
  have hstarts : w.flushedSegments.map startIndex =
      v.closedSegments.map startIndex := by
    have heq : List.Forall₂ (· = ·) (w.flushedSegments.map startIndex)
        (v.closedSegments.map startIndex) :=
      List.forall₂_map_left_iff.mpr (List.forall₂_map_right_iff.mpr
        (hflushed.imp fun _ _ hst => hst.1))
    rwa [List.forall₂_eq_eq_eq] at heq
  have hsortClosed : (closed.insertionSort fun a b => a.startIndex ≤ b.startIndex) =
      w.flushedSegments := by
    apply insertionSort_eq hclosed
    rw [hstarts]
    exact (ContiguousFrom.startIndex_pairwise h.contiguous).1
  have hids' : (w.openedSegments.map OpenSegment.id).Pairwise (· < ·) := by
    rw [openedSegments, map_map]
    exact hids
  have hsortOpened : (opened.insertionSort fun a b => a.id ≤ b.id) = w.openedSegments :=
    insertionSort_eq hopened hids'
  have hvalid : validateClosed ((w.flushedSegments.head?.map startIndex).getD 0)
      w.flushedSegments = .ok v.openSegmentStartIndex := by
    have hfirst : (w.flushedSegments.head?.map startIndex).getD 0 = v.firstIndex := by
      rw [← head?_map, hstarts, head?_map, SegmentList.firstIndex]
      cases v.closedSegments.head? <;> rfl
    rw [hfirst, validateClosed_eq hflushed h.contiguous, h.contiguous.openSegmentStartIndex_eq]
  have hunused : ∀ s ∈ w.waitingSegments.map fun s => (⟨s.id, s.segment.flush⟩ : OpenSegment),
      s.segment.Holds crc32cAppend [] := by
    intro s hs
    obtain ⟨t, ht, rfl⟩ := mem_map.mp hs
    exact (hfresh t ht).flush
  have hfound : w.openedSegments.foldl selectOpen
      ⟨none, [], w.flushedSegments, v.openSegmentStartIndex⟩ =
      ⟨some ⟨w.openId, w.segments.openSegment.flush⟩,
        w.waitingSegments.map fun s => ⟨s.id, s.segment.flush⟩, w.flushedSegments,
        v.openSegmentStartIndex⟩ := by
    have hfirst (s : OpenSegment) : selectOpen
        ⟨none, [], w.flushedSegments, v.openSegmentStartIndex⟩ s =
        ⟨some s, [], w.flushedSegments, v.openSegmentStartIndex⟩ := by
      unfold selectOpen
      split <;> rfl
    rw [openedSegments, map_cons, foldl_cons, hfirst, foldl_selectOpen rfl]
    · rfl
    · intro s hs
      rw [(hunused s hs).isEmpty_eq]
      rfl
  unfold withOptions
  simp only [hread, hsortClosed, hsortOpened, hvalid, hfound]
  refine ⟨_, rfl, ⟨hflushed, h.segments.openSegment.flush⟩, h.contiguous, ?_⟩
  exact SegmentCreator.ready_new hcap hids' hunused seeds _

end

/-! ## Runs -/

/-- The data of all entries of a segment. -/
def Segment.entries (s : Segment) : List (List UInt8) :=
  s.index.map fun position => slice s.mmap position.1 position.2

/-- The log that the WAL holds. -/
def log (w : Wal) : IndexedLog (List UInt8) where
  first := w.firstIndex
  entries := (w.segments.closedSegments.map segment ++
    [w.segments.openSegment]).flatMap Segment.entries

theorem Segment.Holds.entries_eq (h : s.Holds crc32cAppend es) : s.entries = es := by
  apply ext_getElem?
  intro i
  have hentry : s.entry i = .ok es[i]? := holds_simulates.entry h i
  rw [entries, getElem?_map]
  unfold entry at hentry
  cases hi : s.index[i]? with
  | none =>
    rw [hi] at hentry
    exact Except.ok.inj hentry
  | some position =>
    rw [hi] at hentry
    dsimp only at hentry
    split at hentry
    · exact Except.ok.inj hentry
    · cases hentry

variable {w : Wal} {v : SegmentList (List (List UInt8))}

theorem Valid.log_eq (h : Valid crc32cAppend w v) : w.log = v.log := by
  have hclosed : (w.segments.closedSegments.map segment).flatMap entries =
      closedEntries v.closedSegments := by
    have hfor := h.segments.closedSegments
    generalize w.segments.closedSegments = closed at hfor
    generalize v.closedSegments = closed' at hfor
    induction hfor with
    | nil => rfl
    | cons hst _ ih =>
      rw [map_cons, flatMap_cons, ih, hst.2.entries_eq]
      rfl
  simp only [log, SegmentList.log, flatMap_append, hclosed, flatMap_cons,
    flatMap_nil, append_nil, h.segments.openSegment.entries_eq, Wal.firstIndex,
    h.segments.firstIndex_eq]

/-- The calls of the users of a WAL. -/
inductive Call where
  | append (seeds : Nat → UInt32) (finished : Bool) (data : ByteSlice)
  | truncate (start : Nat)
  | prefixTruncate (stop : Nat)
  | reopen (seeds : Nat → UInt32) (dir : List DirEntry)

def step (crc32cAppend : Checksum) (options : WalOptions) (w : Wal) : Call → Option Wal
  | .append seeds finished data =>
    (w.append crc32cAppend seeds finished data).toOption.map Prod.fst
  | .truncate start => (w.truncate start).toOption
  | .prefixTruncate stop => (w.prefixTruncate stop).toOption
  | .reopen seeds dir => (withOptions crc32cAppend seeds options dir).toOption

/-- The directory lists the files that the WAL left when it was closed, in any order, and
possibly some that are no segments. -/
def LeftBy (w : Wal) (dir : List DirEntry) : Prop :=
  ∃ extra, dir.Perm (w.files ++ extra) ∧ ∀ e ∈ extra, e = .tmp ∨ e = .other

/-- No segment file continues the checksum chain into the zeros behind its entries. -/
def ChainsEnd (crc32cAppend : Checksum) (w : Wal) : Prop :=
  ∀ s ∈ w.allSegments, Segment.TailBreaksChain crc32cAppend s.crc

/-- The WAL is reopened from its own files, and these do not continue their chains. -/
def CleanReopen (crc32cAppend : Checksum) (w : Wal) : Call → Prop
  | .reopen _ dir => w.LeftBy dir ∧ w.ChainsEnd crc32cAppend
  | _ => True

/-- What the WAL does next is what an indexed log does. -/
structure RefinesLog (crc32cAppend : Checksum) (options : WalOptions) (w : Wal) : Prop where
  entry : ∀ i, w.entry i = .ok (w.log.get? i)
  append : ∀ seeds finished data, ∃ w',
    w.append crc32cAppend seeds finished data = .ok (w', w.log.next) ∧
      w'.log = w.log.push data.bytes
  truncate : ∀ start, ∃ w', w.truncate start = .ok w' ∧
    (w.firstIndex < start → w'.log = w.log.truncate start)
  prefixTruncate : ∀ stop, ∃ w' n k, w.prefixTruncate stop = .ok w' ∧
    n ≤ w.segments.closedSegments.length - w.retainClosed ∧
    w'.segments.closedSegments = w.segments.closedSegments.drop n ∧
    w'.log = w.log.dropFirst k ∧ (k = 0 ∨ w.firstIndex + k ≤ stop)
  reopen : ∀ seeds dir, w.LeftBy dir → w.ChainsEnd crc32cAppend →
    ∃ w', withOptions crc32cAppend seeds options dir = .ok w' ∧ w'.log = w.log

variable {options : WalOptions}

section

variable (h : Valid crc32cAppend w v) (hcap : 8 ≤ options.segmentCapacity.toNat)

include h hcap

theorem Valid.refinesLog : w.RefinesLog crc32cAppend options := by
  refine ⟨?_, ?_, ?_, ?_, ?_⟩
  · intro i
    rw [h.log_eq]
    exact h.entry_eq i
  · intro seeds finished data
    obtain ⟨w', full, happend, h'⟩ := h.append seeds finished data
    refine ⟨w', by rw [h.log_eq, happend], ?_⟩
    rw [h'.log_eq, h.log_eq]
    exact (h.contiguous.append full data.bytes).2.1
  · intro start
    obtain ⟨w', v', hw', h', hlog⟩ := h.truncate start
    refine ⟨w', hw', fun hlt => ?_⟩
    rw [h'.log_eq, h.log_eq]
    exact hlog hlt
  · intro stop
    obtain ⟨w', v', n, k, hw', h', hn, hclosed, hlog, hk⟩ := h.prefixTruncate stop
    refine ⟨w', n, k, hw', hn, hclosed, ?_, hk⟩
    rw [h'.log_eq, h.log_eq]
    exact hlog
  · rintro seeds dir ⟨extra, hdir, hextra⟩ htail
    obtain ⟨w', hw', h'⟩ := h.reopen hcap seeds hdir hextra htail
    exact ⟨w', hw', h'.log_eq.trans h.log_eq.symm⟩

/-- Every call of a run succeeds and keeps the WAL valid. -/
theorem Valid.step {c : Call} (hclean : CleanReopen crc32cAppend w c) :
    ∃ w' v', Wal.step crc32cAppend options w c = some w' ∧ Valid crc32cAppend w' v' := by
  cases c with
  | append seeds finished data =>
    obtain ⟨w', full, happend, h'⟩ := h.append seeds finished data
    exact ⟨w', _, by rw [Wal.step, happend]; rfl, h'⟩
  | truncate start =>
    obtain ⟨w', v', hw', h', _⟩ := h.truncate start
    exact ⟨w', v', by rw [Wal.step, hw']; rfl, h'⟩
  | prefixTruncate stop =>
    obtain ⟨w', v', _, _, hw', h', _⟩ := h.prefixTruncate stop
    exact ⟨w', v', by rw [Wal.step, hw']; rfl, h'⟩
  | reopen seeds dir =>
    obtain ⟨⟨extra, hdir, hextra⟩, htail⟩ := hclean
    obtain ⟨w', hw', h'⟩ := h.reopen hcap seeds hdir hextra htail
    exact ⟨w', v, by rw [Wal.step, hw']; rfl, h'⟩

end

/-- Opening an empty directory gives an empty WAL. It fails if no segment can be created. -/
theorem valid_withOptions {seeds : Nat → UInt32}
    (h : withOptions crc32cAppend seeds options [] = .ok w) :
    8 ≤ options.segmentCapacity.toNat ∧ Valid crc32cAppend w ⟨[], []⟩ := by
  -- No file is found, so the open segment comes from the creator.
  obtain ⟨s, creator, hnext, rfl⟩ : ∃ s creator,
      (SegmentCreator.new seeds none [] options.segmentCapacity options.segmentQueueLen).next
        seeds false = .ok (s, creator) ∧
      w = ⟨⟨[], s.segment⟩, s.id, creator, options.retainClosed⟩ := by
    unfold withOptions at h
    simp only [readDir, insertionSort_nil, validateClosed, foldl_nil] at h
    split at h
    · cases h
    next s creator hnext =>
      exact ⟨s, creator, hnext, (Except.ok.inj h).symm⟩
  rcases Nat.lt_or_ge options.segmentCapacity.toNat 8 with hsmall | hcap
  · have hcreate : ∃ e, createSegments seeds options.segmentCapacity
        (max options.segmentQueueLen 1 - 0) 1 = .error e := by
      obtain ⟨count, hcount⟩ : ∃ count, max options.segmentQueueLen 1 - 0 = count + 1 :=
        ⟨max options.segmentQueueLen 1 - 1, by omega⟩
      have hroom : alignDown options.segmentCapacity.toNat < headerLen := by
        simp only [alignDown, headerLen]
        omega
      rw [hcount, createSegments, create, if_pos hroom]
      exact ⟨_, rfl⟩
    obtain ⟨e, he⟩ := hcreate
    have hnew : SegmentCreator.new seeds none [] options.segmentCapacity options.segmentQueueLen =
        { pendingSegments := []
          segmentCapacity := options.segmentCapacity
          segmentQueueLen := max options.segmentQueueLen 1
          currentId := 1
          thread := some (.error e) } := by
      have hqueue : (0 : Nat) < max options.segmentQueueLen 1 := by omega
      rw [← he]
      exact if_pos ⟨rfl, hqueue⟩
    rw [hnew] at hnext
    cases hnext
  · refine ⟨hcap, ?_⟩
    have hready : SegmentCreator.Ready crc32cAppend 0
        (SegmentCreator.new seeds none [] options.segmentCapacity options.segmentQueueLen) := by
      apply SegmentCreator.Valid.scheduleCreation
      exact ⟨hcap, Nat.zero_lt_one.trans_le (Nat.le_max_right _ _), by simp, by simp,
        by simp, by simp⟩
    obtain ⟨s', creator', hnext', hready', hs'⟩ := hready.next seeds false
    rw [hnext] at hnext'
    cases hnext'
    exact ⟨⟨.nil, hs'⟩, trivial, hready'⟩

/-- Over every run of appends, truncations, prefix truncations and clean reopenings, the WAL
behaves as the indexed log that it holds. -/
theorem refines_indexedLog {options : WalOptions} {seeds : Nat → UInt32} {w₀ w : Wal}
    {calls : List Call} (hinit : withOptions crc32cAppend seeds options [] = .ok w₀)
    (hclean : Run.Guarded (step crc32cAppend options) (CleanReopen crc32cAppend) w₀ calls)
    (hrun : Run.run (step crc32cAppend options) w₀ calls = some w) :
    w.RefinesLog crc32cAppend options := by
  obtain ⟨hcap, hvalid⟩ := valid_withOptions hinit
  have hinv : ∃ v, Valid crc32cAppend w v := by
    apply Run.run_invariant _ hrun hclean ⟨_, hvalid⟩
    rintro s c s' ⟨v, hv⟩ hC hs'
    obtain ⟨t, v', ht, hv'⟩ := hv.step hcap hC
    rw [ht] at hs'
    cases hs'
    exact ⟨v', hv'⟩
  obtain ⟨v, hv⟩ := hinv
  exact hv.refinesLog hcap

/-- Segments of 32 bytes, one of them created ahead. -/
def smallOptions : WalOptions where
  segmentCapacity := 32
  segmentQueueLen := 1
  retainClosed := ⟨1, Nat.one_pos⟩

/-- An empty WAL, with the seeds of its open segment and of the one created ahead. -/
def emptyWal (seed seed' : UInt32) : Wal where
  segments := ⟨[], ⟨Segment.header seed ++ zeros 24, [], seed, 0⟩⟩
  openId := 1
  creator :=
    { pendingSegments := []
      segmentCapacity := 32
      segmentQueueLen := 1
      currentId := 2
      thread := some (.ok [⟨2, ⟨Segment.header seed' ++ zeros 24, [], seed', 0⟩⟩]) }
  retainClosed := ⟨1, Nat.one_pos⟩

def appendTwoBytes : Call := .append (fun _ => 9) true ⟨[3, 4], by decide⟩

/-- The WAL after its first entry. -/
def writtenWal : Wal :=
  (step Segment.crc32c smallOptions (emptyWal 7 8) appendTwoBytes).get (by decide +kernel)

/-- One entry is written, and then the WAL is reopened. -/
theorem refines_indexedLog_reopened : ∃ w, Run.run (step Segment.crc32c smallOptions) (emptyWal 7 8)
        [appendTwoBytes, .reopen (fun _ => 9) writtenWal.files] = some w ∧
      w.RefinesLog Segment.crc32c smallOptions := by
  have hinit : withOptions crc32c (fun id => if id = 1 then 7 else 8) smallOptions [] =
      .ok (emptyWal 7 8) := by decide +kernel
  have hwritten : step crc32c smallOptions (emptyWal 7 8) appendTwoBytes =
      some writtenWal := (Option.some_get _).symm
  have hreopened : (step crc32c smallOptions writtenWal
      (.reopen (fun _ => 9) writtenWal.files)).isSome := by decide +kernel
  obtain ⟨w, hw⟩ := Option.isSome_iff_exists.mp hreopened
  have hrun : Run.run (step crc32c smallOptions) (emptyWal 7 8)
      [appendTwoBytes, .reopen (fun _ => 9) writtenWal.files] = some w := by
    simp only [Run.run, hwritten, hw, Option.bind_some]
  refine ⟨w, hrun, refines_indexedLog hinit ?_ hrun⟩
  have hends : writtenWal.ChainsEnd crc32c := by
    unfold ChainsEnd
    decide +kernel
  refine ⟨trivial, ?_⟩
  rw [hwritten]
  refine ⟨⟨⟨[], by rw [append_nil], by simp⟩, hends⟩, ?_⟩
  rw [hw]
  trivial

/-- With this seed, the zeros behind the header of a new segment read as an empty entry. -/
theorem empty_segment_not_empty :
    withOptions Segment.crc32c (fun id => if id = 1 then 0xf931df69 else 8) smallOptions [] =
        .ok (emptyWal 0xf931df69 8) ∧
      (emptyWal 0xf931df69 8).entry 0 = .ok none ∧
      (withOptions Segment.crc32c (fun _ => 9) smallOptions (emptyWal 0xf931df69 8).files).map
        (fun w => w.entry 0) = .ok (.ok (some [])) := by
  refine ⟨?_, ?_, ?_⟩
  · decide +kernel
  · decide +kernel
  · decide +kernel

end Qdrant.Wal
