-- SUMMARY: The relation between the consensus WAL and the Raft log: what is read from it and what each operation does to it.
import Qdrant.Consensus.RaftLog

/-!
# The consensus WAL and the Raft log

`Represents w log n` says that the WAL `w` holds the entries of `log` without the first `n`,
which compaction has removed. Each operation keeps this relation, also at the points where
a crash can interrupt it, and what is read from the WAL follows from it.
-/

namespace Qdrant.Consensus

open List Crash Wal SegmentList IndexedLog

namespace ConsensusOpWal

/-- The WAL holds the entries of the log without the first `n`. -/
structure Represents (w : ConsensusOpWal) (log : RaftLog) (n : Nat) : Prop where
  wellFormed : log.WellFormed
  contiguous : w.wal.Contiguous
  compacted : w.compactedUntilRaftIndex = log.compacted
  physical : w.wal.log = ⟨n, log.written.entries.drop n⟩
  dropped : n = 0 ∨ n < log.written.entries.length
  retained : log.written.entries ≠ [] →
    log.retained = max log.compacted (log.written.first + n)

theorem represents_create : create.Represents .empty 0 :=
  ⟨.empty, trivial, rfl, rfl, .inl rfl, fun hne => absurd rfl hne⟩

/-- The offset that is computed from the first entry of the WAL. -/
def offsetOf (log : RaftLog) (n : Nat) : Option IndexOffset :=
  if log.written.entries = [] then none
  else some ⟨n, log.written.first + n, log.written.first⟩

variable {w : ConsensusOpWal} {log : RaftLog} {n : Nat}

/-! ## Reading -/

namespace Represents

section

variable (h : w.Represents log n)

include h

theorem firstIndex_eq : w.wal.firstIndex = n := congrArg first h.physical

theorem numEntries_eq : w.wal.numEntries = log.written.entries.length - n := by
  rw [h.contiguous.numEntries_eq, h.physical, length_drop]

theorem length_pos (hne : log.written.entries ≠ []) : n < log.written.entries.length := by
  have hpos := length_pos_iff.mpr hne
  have hdropped := h.dropped
  omega

theorem lastIndex_eq (hne : log.written.entries ≠ []) :
    w.wal.lastIndex = log.written.entries.length - 1 := by
  have hlt := h.length_pos hne
  rw [h.contiguous.lastIndex_eq, h.physical]
  dsimp only
  rw [length_drop]
  omega

/-- WAL index `i` is position `i` among the entries that were written. -/
theorem entryByWalIndexImpl_eq (i : Nat) :
    w.entryByWalIndexImpl i = .ok (if i < n then none else log.written.entries[i]?) := by
  have hget : w.wal.log.get? i = if i < n then none else log.written.entries[i]? := by
    rw [h.physical, get?]
    split
    next => rfl
    next hge => rw [getElem?_drop, Nat.add_sub_cancel' (Nat.le_of_not_lt hge)]
  rw [entryByWalIndexImpl, h.contiguous.entry_eq, hget]
  rcases Nat.lt_or_ge i n with hlt | hge
  · rw [if_pos hlt]
  · rw [if_neg (not_lt.mpr hge)]
    cases he : log.written.entries[i]? with
    | none => rfl
    | some e =>
      have hne : log.written.entries ≠ [] := fun hnil => by simp [hnil] at he
      have hpos := h.wellFormed.one_le hne
      have hindex := h.wellFormed.sequential.index_eq he
      exact if_pos (by omega)

theorem entryByWalIndexImpl_of_le {i : Nat} (hi : n ≤ i) :
    w.entryByWalIndexImpl i = .ok log.written.entries[i]? := by
  rw [h.entryByWalIndexImpl_eq, if_neg (not_lt.mpr hi)]

theorem exists_first (hne : log.written.entries ≠ []) :
    ∃ e, log.written.entries[n]? = some e ∧ e.index = log.written.first + n :=
  have he := getElem?_eq_getElem (h.length_pos hne)
  ⟨_, he, h.wellFormed.sequential.index_eq he⟩

theorem indexOffsetImpl_eq : w.indexOffsetImpl = .ok (offsetOf log n) := by
  rw [indexOffsetImpl, h.firstIndex_eq, h.entryByWalIndexImpl_of_le le_rfl, offsetOf]
  split
  next hnil => simp [hnil, Except.map]
  next hne =>
    obtain ⟨e, he, hindex⟩ := h.exists_first hne
    rw [he]
    simp [Except.map, IndexOffset.new, hindex]

theorem indexOffset_nil (hnil : log.written.entries = []) :
    w.indexOffset = .error .unavailable := by
  rw [indexOffset, h.indexOffsetImpl_eq, offsetOf, if_pos hnil]
  rfl

theorem indexOffset_of_ne (hne : log.written.entries ≠ []) :
    w.indexOffset = .ok ⟨n, log.written.first + n, log.written.first⟩ := by
  rw [indexOffset, h.indexOffsetImpl_eq, offsetOf, if_neg hne]
  rfl

theorem firstEntry_eq : w.firstEntry = .ok log.entries.head? := by
  rw [firstEntry, h.firstIndex_eq, h.entryByWalIndexImpl_of_le le_rfl]
  rcases eq_or_ne log.written.entries [] with hnil | hne
  · simp [hnil, RaftLog.entries]
  · obtain ⟨e, he, hindex⟩ := h.exists_first hne
    have hretained := h.retained hne
    rw [he]
    dsimp only
    rw [h.compacted, RaftLog.entries, head?_drop]
    split
    next hge =>
      have hpos : log.retained - log.written.first = n := by omega
      rw [hpos, he]
    next hlt' =>
      have hoffset : IndexOffset.tryRaftToWal (.new n e) log.compacted =
          some (log.compacted - log.written.first) := by
        have hdiff : e.index - n = log.written.first := by omega
        have hge : ¬ log.compacted < log.written.first := by omega
        rw [IndexOffset.new, hdiff]
        exact if_neg hge
      have hpos : log.retained - log.written.first = log.compacted - log.written.first := by omega
      rw [hoffset, hpos]
      exact h.entryByWalIndexImpl_of_le (by omega)

theorem lastEntry_eq : w.lastEntry = .ok log.entries.getLast? := by
  rw [h.wellFormed.getLast?_entries, lastEntry]
  rcases eq_or_ne log.written.entries [] with hnil | hne
  · have hread := h.entryByWalIndexImpl_eq w.wal.lastIndex
    rw [hread, hnil]
    simp
  · have hlt := h.length_pos hne
    have hle : n ≤ log.written.entries.length - 1 := by omega
    rw [h.lastIndex_eq hne, h.entryByWalIndexImpl_of_le hle, getLast?_eq_getElem?]
    have he : log.written.entries[log.written.entries.length - 1]? =
        some log.written.entries[log.written.entries.length - 1] :=
      getElem?_eq_getElem (by omega)
    have hindex := h.wellFormed.sequential.index_eq he
    have hcompacted := h.wellFormed.compacted_le hne
    have hretained := h.wellFormed.retained_lt hne
    rw [IndexedLog.next] at hretained
    rw [he]
    dsimp only
    rw [if_pos (by rw [h.compacted]; omega)]

/-- Reading one entry succeeds exactly for the retained entries. -/
theorem entry_eq (i : Nat) : (w.entry i).toOption = log.get? i := by
  rw [entry, RaftLog.get?]
  rcases eq_or_ne log.written.entries [] with hnil | hne
  · have hnone : log.written.get? i = none := by simp [get?, hnil]
    rw [h.indexOffset_nil hnil, hnone, ite_self]
    split
    · rfl
    · split
      · rfl
      · rfl
  · have hretained := h.retained hne
    have hpos := h.wellFormed.one_le hne
    rw [h.indexOffset_of_ne hne, h.compacted]
    dsimp only [IndexOffset.tryRaftToWal]
    rcases Nat.lt_or_ge i log.compacted with hlt | hge
    · rw [if_pos (show i < log.retained by omega)]
      split
      · rfl
      · rfl
    · rw [if_neg (not_lt.mpr hge)]
      rcases Nat.lt_or_ge i log.written.first with hbefore | hafter
      · rw [if_pos (show i < log.retained by omega)]
        split
        · rfl
        · rfl
      · rw [if_neg (show ¬ i < 1 by omega), if_neg (not_lt.mpr hafter)]
        dsimp only
        rw [entryByWalIndex, h.entryByWalIndexImpl_eq, get?, if_neg (not_lt.mpr hafter)]
        rcases Nat.lt_or_ge (i - log.written.first) n with hdrop | hkeep
        · rw [if_pos hdrop, if_pos (show i < log.retained by omega)]
          rfl
        · rw [if_neg (not_lt.mpr hkeep), if_neg (show ¬ i < log.retained by omega)]
          cases log.written.entries[i - log.written.first]? with
          | none => rfl
          | some e => rfl

end

end Represents

/-! ### Ranges of entries -/

theorem map_getElem?_range' {α : Type} (es : List α) (a k : Nat) (h : a + k ≤ es.length) :
    (List.range' a k).map (fun i => es[i]?) = ((es.drop a).take k).map some := by
  induction k generalizing a with
  | zero => simp
  | succ k ih =>
    have hlt : a < es.length := by omega
    rw [List.range'_succ, map_cons, ih (a + 1) (by omega), drop_eq_getElem_cons hlt,
      take_succ_cons, map_cons, getElem?_eq_getElem hlt]

section

variable {computeSize : RaftEntry → Nat} {walIndices : List Nat} {es : List RaftEntry}

/-- Without a limit, all entries are read. -/
theorem collectEntries_none (hread : walIndices.map w.entryByWalIndex = es.map .ok) (size : Nat)
    (acc : List RaftEntry) :
    collectEntries computeSize w none walIndices size acc = .ok (acc ++ es) := by
  induction walIndices generalizing es acc with
  | nil =>
    obtain rfl : es = [] := map_eq_nil_iff.mp hread.symm
    rw [append_nil]
    rfl
  | cons i walIndices ih =>
    cases es with
    | nil => cases hread
    | cons e es =>
      obtain ⟨he, hrest⟩ := cons_eq_cons.mp hread
      rw [collectEntries, he]
      dsimp only
      rw [ih hrest, append_assoc, singleton_append]

/-- With a limit, some of the first entries are read, and at least one of them. -/
theorem collectEntries_some (hread : walIndices.map w.entryByWalIndex = es.map .ok) (limit size : Nat)
    (acc : List RaftEntry) :
    ∃ pre, collectEntries computeSize w (some limit) walIndices size acc = .ok (acc ++ pre) ∧
      pre <+: es ∧ (acc = [] → es ≠ [] → pre ≠ []) := by
  induction walIndices generalizing es acc size with
  | nil =>
    obtain rfl : es = [] := map_eq_nil_iff.mp hread.symm
    exact ⟨[], by rw [append_nil]; rfl, prefix_rfl, fun _ hne => hne⟩
  | cons i walIndices ih =>
    cases es with
    | nil => cases hread
    | cons e es =>
      obtain ⟨he, hrest⟩ := cons_eq_cons.mp hread
      rw [collectEntries, he]
      dsimp only
      split
      next hfull => exact ⟨[], by rw [append_nil], nil_prefix, fun h => absurd h hfull.2⟩
      next =>
        obtain ⟨pre, hpre, hpref, _⟩ := ih hrest (saturatingAdd size (computeSize e)) (acc ++ [e])
        refine ⟨e :: pre, ?_, (cons_prefix_cons).mpr ⟨rfl, hpref⟩, ?_⟩
        · rw [hpre, append_assoc, singleton_append]
        · exact fun _ _ => cons_ne_nil _ _

end

namespace Represents

section

variable (h : w.Represents log n)

include h

section

variable (hne : log.written.entries ≠ [])

include hne

/-- The entries in a range of Raft indices, by their WAL indices. -/
theorem slice_eq (lo hi : Nat) : log.slice lo hi =
      (log.written.entries.take (min (hi - log.written.first) log.written.entries.length)).drop
        (max (max lo log.compacted - log.written.first) n) := by
  have hretained := h.retained hne
  have hfirst := h.wellFormed.first_le hne
  have hsequential : SequentialFrom log.retained log.entries := by
    have := h.wellFormed.sequential.drop (log.retained - log.written.first)
    rwa [Nat.add_sub_cancel' hfirst] at this
  have hfrom : max (max lo log.compacted - log.written.first) n =
      log.retained - log.written.first + (lo - log.retained) := by omega
  rw [RaftLog.slice, hsequential.filter_eq, RaftLog.entries, take_drop, drop_drop, hfrom]
  rcases Nat.lt_or_ge hi log.retained with hbelow | habove
  · have hempty (k : Nat) (hk : k ≤ log.retained - log.written.first) :
        (log.written.entries.take k).drop
          (log.retained - log.written.first + (lo - log.retained)) = [] := by
      apply drop_eq_nil_iff.mpr
      rw [length_take]
      omega
    rw [hempty _ (by omega), hempty _ (by omega)]
  · congr 1
    rw [take_eq_take_iff]
    omega

section

variable (computeSize : RaftEntry → Nat)

theorem entries_eq (lo hi : Nat) (limit : Option Nat) :
    ∃ walIndices, walIndices.map w.entryByWalIndex = (log.slice lo hi).map .ok ∧
      w.entries computeSize lo hi limit =
        collectEntries computeSize w (if limit = some u64Max then none else limit) walIndices 0 [] := by
  have hlt := h.length_pos hne
  rw [entries, h.indexOffset_of_ne hne, h.numEntries_eq, h.slice_eq hne]
  refine ⟨_, ?_, rfl⟩
  dsimp only [IndexOffset.raftToWal]
  rw [h.compacted, Nat.add_sub_cancel' hlt.le]
  generalize hfrom : max (max lo log.compacted - log.written.first) n = fromIndex
  generalize huntil : min (hi - log.written.first) log.written.entries.length = untilIndex
  have hread : ∀ i ∈ List.range' fromIndex (untilIndex - fromIndex),
      w.entryByWalIndex i = intoRaftResult (.ok log.written.entries[i]?) := by
    intro i hi
    have hge := (mem_range'_1.mp hi).1
    rw [entryByWalIndex, h.entryByWalIndexImpl_of_le (by omega)]
  rw [map_congr_left hread]
  rcases Nat.lt_or_ge untilIndex fromIndex with hbelow | habove
  · have hempty : (log.written.entries.take untilIndex).drop fromIndex = [] := by
      apply drop_eq_nil_iff.mpr
      rw [length_take]
      omega
    rw [Nat.sub_eq_zero_of_le hbelow.le, hempty]
    rfl
  · have hrange := map_getElem?_range' log.written.entries fromIndex (untilIndex - fromIndex)
      (by omega)
    have hmap := congrArg (List.map fun e => intoRaftResult (.ok e)) hrange
    rw [map_map, map_map, take_drop, Nat.add_sub_cancel' habove] at hmap
    exact hmap

/-- Without a limit, reading a range gives exactly the retained entries in it. -/
theorem entries_unlimited (lo hi : Nat) :
    w.entries computeSize lo hi none = .ok (log.slice lo hi) := by
  obtain ⟨walIndices, hread, heq⟩ := h.entries_eq hne computeSize lo hi none
  rw [heq]
  exact collectEntries_none hread 0 []

/-- With a limit, reading a range gives the first of them, and at least one. -/
theorem entries_limited (lo hi limit : Nat) :
    ∃ es, w.entries computeSize lo hi (some limit) = .ok es ∧ es <+: log.slice lo hi ∧
      (log.slice lo hi ≠ [] → es ≠ []) := by
  obtain ⟨walIndices, hread, heq⟩ := h.entries_eq hne computeSize lo hi (some limit)
  rw [heq]
  split
  next => exact ⟨_, collectEntries_none hread 0 [], prefix_rfl, fun hne => hne⟩
  next =>
    obtain ⟨pre, hpre, hpref, hnonempty⟩ := collectEntries_some hread limit 0 []
    exact ⟨pre, hpre, hpref, hnonempty rfl⟩

end

end

theorem entries_nil (hnil : log.written.entries = [])
    (computeSize : RaftEntry → Nat) (lo hi : Nat) (limit : Option Nat) :
    w.entries computeSize lo hi limit = .error .unavailable := by
  rw [entries, h.indexOffset_nil hnil]

end

end Represents

/-! ## Writing -/

section

variable {C : ConsensusOpWal → Prop} {R : StorageError → ConsensusOpWal → Prop}
  {Q : Unit → ConsensusOpWal → Prop} {wal : SegmentList (List RaftEntry)} {start : Nat}

theorem wp_onSegments {α : Type} {x : Prog (SegmentList (List RaftEntry)) IoError α}
    {Q : α → ConsensusOpWal → Prop} : wp (onSegments x) Q R C w ↔
      wp x (fun a wal => Q a { w with wal }) (fun e wal => R (.ofIoError e) { w with wal })
        (fun wal => C { w with wal }) w.wal := by
  rw [onSegments, wp_zoom, wp_mapError]

theorem wp_walTruncate (hwal : w.wal.truncate start = .ok wal) (hQ : Q () { w with wal })
    (hC : ∀ t, w.wal.Torn start t → C { w with wal := t }) :
    wp (onSegments (truncateFiles start)) Q R C w := by
  apply wp_onSegments.mpr
  apply wp_total (wp_truncateFiles hwal)
  · rintro _ _ rfl
    exact hQ
  · exact hC

theorem wp_clear (h : w.wal.Contiguous) (hQ : Q () { w with wal := ⟨[], []⟩ })
    (hC : ∀ t, w.wal.Torn w.wal.firstIndex t → C { w with wal := t }) : wp clear Q R C w := by
  apply wp_onSegments.mpr
  apply wp_get_bind
  exact wp_onSegments.mp (wp_walTruncate (h.truncate_first le_rfl) hQ hC)

theorem wp_walPrefixTruncate {stop : Nat} (hwal : w.wal.prefixTruncate retainClosed stop = .ok wal)
    (hQ : Q () { w with wal }) (hC : ∀ t, w.wal.DroppingTo wal t → C { w with wal := t }) :
    wp (onSegments (prefixTruncateFiles retainClosed stop)) Q R C w := by
  apply wp_onSegments.mpr
  apply wp_total (wp_prefixTruncateFiles hwal)
  · rintro _ _ rfl
    exact hQ
  · exact hC

theorem wp_walAppend (h : w.wal.Contiguous) {full : Bool} {e : RaftEntry}
    {Q : Nat → ConsensusOpWal → Prop}
    (hQ : Q (w.wal.append full e).2 { w with wal := (w.wal.append full e).1 })
    (hC : ∀ t : SegmentList (List RaftEntry), t.Contiguous → t.log = w.wal.log → C { w with wal := t }) :
    wp (onSegments (appendFiles full e)) Q R C w := by
  apply wp_onSegments.mpr
  apply wp_total (h.wp_appendFiles full e)
  · rintro _ _ ⟨rfl, rfl⟩
    exact hQ
  · exact fun t ht => hC t ht.1 ht.2

end

/-- The call starts with its first entry. -/
theorem wp_appendEntries_cons {full : RaftEntry → Bool} {e : RaftEntry} {rest : List RaftEntry}
    {offset : Option IndexOffset} (hoffset : w.indexOffsetImpl = .ok offset)
    {Q : Unit → ConsensusOpWal → Prop} {R : StorageError → ConsensusOpWal → Prop}
    {C : ConsensusOpWal → Prop}
    (h : wp (appendEntry full offset e)
      (fun offset w' => wp (rest.foldlM (appendEntry full) offset) (fun _ => Q ()) R C w') R C w) :
    wp (appendEntries full (e :: rest)) Q R C w := by
  apply wp_get_bind
  apply wp_bind.mpr
  apply (wp_ofExcept_ok hoffset).mpr
  apply wp_bind.mpr
  apply wp_bind.mpr
  simp only [wp_pure]
  exact h

/-! ### Opening again -/

/-- If the WAL can be opened over these segments, it holds a log of this kind. -/
def Recovers (wal : SegmentList (List RaftEntry)) (P : RaftLog → Prop) : Prop :=
  ∀ w, new wal = .ok w → ∃ log n, w.Represents log n ∧ P log

section

variable {wal : SegmentList (List RaftEntry)} {P P' : RaftLog → Prop}

theorem Recovers.mono (h : Recovers wal P) (hP : ∀ log, P log → P' log) : Recovers wal P' := by
  intro w hw
  obtain ⟨log, n, hrep, hlog⟩ := h w hw
  exact ⟨log, n, hrep, hP log hlog⟩

theorem new_of_contiguous (h : wal.Contiguous) : new wal = .ok ⟨wal, 0⟩ := by
  obtain ⟨stop, hstop⟩ := (contiguous_iff.mpr h).1
  rw [new, hstop]

theorem new_ok (h : new wal = .ok w) :
    w = ⟨wal, 0⟩ ∧ ∃ stop, validateClosed wal.firstIndex wal.closedSegments = .ok stop := by
  unfold new at h
  split at h
  next => cases h
  next stop hstop =>
    cases h
    exact ⟨rfl, stop, hstop⟩

/-- A WAL that is opened over segments none of which is empty has no gap. -/
theorem contiguous_of_new (h : new wal = .ok w) (hne : ∀ s ∈ wal.closedSegments, s.segment ≠ []) :
    wal.Contiguous ∧ w = ⟨wal, 0⟩ := by
  obtain ⟨hw, hvalid⟩ := new_ok h
  exact ⟨contiguous_iff.mp ⟨hvalid, hne⟩, hw⟩

end

namespace Represents

section

variable (h : w.Represents log n)

include h

/-- Opening the WAL again brings back what was compacted but not removed. -/
theorem reopen : ∃ w' log', new w.wal = .ok w' ∧ log.Reopens log' ∧ w'.Represents log' n := by
  rcases eq_or_ne log.written.entries [] with hnil | hne
  · exact ⟨_, _, new_of_contiguous h.contiguous,
      ⟨0, rfl, Nat.zero_le _, fun hne => absurd hnil hne⟩,
      h.wellFormed.reopen (Nat.zero_le _) fun hne => absurd hnil hne, h.contiguous, rfl, h.physical,
      h.dropped, fun hne => absurd hnil hne⟩
  · have hretained := h.retained hne
    have hle : log.written.first + n ≤ log.retained := by omega
    exact ⟨_, _, new_of_contiguous h.contiguous, ⟨_, rfl, hle, fun _ => Nat.le_add_right _ _⟩,
      h.wellFormed.reopen hle fun _ => Nat.le_add_right _ _, h.contiguous, rfl, h.physical,
      h.dropped, fun _ => (Nat.max_eq_right (Nat.zero_le _)).symm⟩

theorem recovers : Recovers w.wal log.Reopens := by
  obtain ⟨w', log', hw', hreopens, hrep⟩ := h.reopen
  intro w'' hw''
  cases hw'.symm.trans hw''
  exact ⟨log', n, hrep, hreopens⟩

/-- Segments with the same entries hold the same log. -/
theorem congr_wal {wal : SegmentList (List RaftEntry)} (hc : wal.Contiguous)
    (hlog : wal.log = w.wal.log) : Represents { w with wal } log n :=
  ⟨h.wellFormed, hc, h.compacted, hlog.trans h.physical, h.dropped, h.retained⟩

/-- What an interrupted truncation leaves, if the WAL can be opened: the log is cut somewhere behind
the index, and if everything is to be removed, more of its first entries can be gone. -/
theorem torn {start : Nat} (hstart : n ≤ start) {t : SegmentList (List RaftEntry)}
    (ht : w.wal.Torn start t) {w' : ConsensusOpWal} (hw' : new t = .ok w') :
    ∃ stop k, start < stop ∧ (k = 0 ∨ start = n) ∧
      w'.Represents ((log.truncate (log.written.first + stop)).reopen (log.written.first + n + k))
        (n + k) := by
  obtain ⟨hc, rfl⟩ := contiguous_of_new hw' (h.contiguous.torn_ne_nil ht)
  obtain ⟨stop, k, hstop, hlog, hk⟩ := h.contiguous.tornLog ht hc
  have hphysical : t.log = ⟨n + k, (log.written.entries.take stop).drop (n + k)⟩ := by
    rw [hlog, h.physical, IndexedLog.truncate, dropFirst, ← drop_take, drop_drop]
  have htake : (log.truncate (log.written.first + stop)).written =
      ⟨log.written.first, log.written.entries.take stop⟩ := by
    rw [RaftLog.truncate, IndexedLog.truncate, Nat.add_sub_cancel_left]
  have hdropped : n + k = 0 ∨ n + k < (log.written.entries.take stop).length := by
    rcases hk with rfl | ⟨-, hne⟩
    · have hdropped := h.dropped
      rw [length_take]
      omega
    · rw [hphysical] at hne
      exact .inr (Nat.lt_of_not_le (mt drop_eq_nil_of_le hne))
  have hwf : ((log.truncate (log.written.first + stop)).reopen
      (log.written.first + n + k)).WellFormed := by
    refine ⟨?_, ?_, fun _ => ?_, fun _ => Nat.zero_le _, fun hne => ?_⟩
    · exact h.wellFormed.sequential.take _
    · exact fun hne => h.wellFormed.one_le (RaftLog.entries_ne_of_truncate hne)
    · exact (Nat.le_add_right _ _).trans (Nat.le_add_right _ _)
    · rw [RaftLog.reopen, htake] at hne ⊢
      have hpos : 0 < (log.written.entries.take stop).length := length_pos_iff.mpr hne
      rw [IndexedLog.next]
      dsimp only
      omega
  refine ⟨stop, k, hstop, ?_, hwf, hc, rfl, ?_, ?_, fun _ => ?_⟩
  · rcases hk with rfl | ⟨hle, -⟩
    · exact .inl rfl
    · rw [h.physical] at hle
      exact .inr (Nat.le_antisymm hle hstart)
  · rw [RaftLog.reopen, htake, hphysical]
  · rw [RaftLog.reopen, htake]
    exact hdropped
  · rw [Nat.add_assoc]
    exact (Nat.max_eq_right (Nat.zero_le _)).symm

end

/-- Truncation on WAL indices is truncation on Raft indices. -/
theorem truncate (h : w.Represents log n) (hne : log.written.entries ≠ []) {i : Nat}
    (happ : log.Appendable i) :
    ∃ wal, w.wal.truncate (i - log.written.first) = .ok wal ∧
      Represents { w with wal } (log.truncate i) n := by
  have hretained := h.retained hne
  have hfirst := h.firstIndex_eq
  rcases happ.above hne with hlt | ⟨hsame, hstart⟩
  · obtain ⟨wal, hwal, hc, hlog⟩ :=
      h.contiguous.truncate_eq (show w.wal.firstIndex < i - log.written.first by omega)
    obtain ⟨hle, hlength⟩ := happ.length_take h.wellFormed hne
    refine ⟨wal, hwal, h.wellFormed.truncate (.inl hlt), hc, h.compacted, ?_, .inr ?_, ?_⟩
    · rw [hlog, h.physical]
      simp only [IndexedLog.truncate, RaftLog.truncate, drop_take]
    · simp only [RaftLog.truncate, IndexedLog.truncate]
      omega
    · exact fun _ => hretained
  · -- Everything is overwritten, so nothing can have been dropped yet.
    have hzero : n = 0 := by omega
    have hempty := log.truncate_first hstart.le
    have hwal := h.contiguous.truncate_first (show i - log.written.first ≤ w.wal.firstIndex by omega)
    refine ⟨⟨[], []⟩, hwal, h.wellFormed.truncate (.inr hstart.le), trivial, h.compacted,
      ?_, .inl hzero, fun hne => absurd hempty hne⟩
    rw [hempty, hzero]
    rfl

variable {es : List RaftEntry}

/-- An entry that is appended to the WAL is the next one of the log. -/
theorem append {log' : RaftLog} {e : RaftEntry}
    (hc : w.wal.Contiguous) (hphysical : w.wal.log = ⟨n, es.drop n⟩) (hn : n ≤ es.length)
    (hwf : log'.WellFormed) (hentries : log'.written.entries = es ++ [e])
    (hcompacted : w.compactedUntilRaftIndex = log'.compacted)
    (hretained : log'.retained = max log'.compacted (log'.written.first + n)) (full : Bool) :
    Represents { w with wal := (w.wal.append full e).1 } log' n ∧
      (w.wal.append full e).2 = es.length := by
  obtain ⟨hc', hlog, hindex⟩ := hc.append full e
  refine ⟨⟨hwf, hc', hcompacted, ?_, .inr ?_, fun _ => hretained⟩, ?_⟩
  · rw [hlog, hphysical, hentries, drop_append_of_le_length hn]
    rfl
  · rw [hentries, length_append]
    exact Nat.lt_succ_of_le hn
  · rw [hindex, hphysical, IndexedLog.next]
    rw [length_drop, Nat.add_sub_cancel' hn]

variable {e : RaftEntry}

/-- What a crash in an append of entries from index `start` on leaves, if the WAL can be opened: a
log to which the append had come, or one that starts behind this index. -/
def Left (w : ConsensusOpWal) (start : Nat) (P : RaftLog → Prop)
    (wal : SegmentList (List RaftEntry)) : Prop :=
  Recovers wal (fun log' => ∃ log, P log ∧ log.Reopens log') ∨
    w.wal.firstIndex < wal.firstIndex ∧
      Recovers wal fun log' => log'.written.entries ≠ [] ∧ start < log'.retained

theorem Left.mono {start : Nat} {P P' : RaftLog → Prop} {wal : SegmentList (List RaftEntry)}
    (h : Left w start P wal) (hP : ∀ log, P log → P' log) : Left w start P' wal :=
  h.imp_left fun hrecovers => hrecovers.mono fun _ ⟨l, hl, hreopens⟩ =>
    ⟨l, hP l hl, hreopens⟩

/-- A truncation for a new entry that is interrupted. -/
theorem torn_append (h : w.Represents log n) (hne : log.written.entries ≠ [])
    (hle : log.written.first + n ≤ e.index) {t : SegmentList (List RaftEntry)}
    (ht : w.wal.Torn (e.index - log.written.first) t) :
    Left w e.index (fun log' => ∃ i, e.index ≤ i ∧ log' = log.truncate i) t := by
  have hretained := h.retained hne
  cases hw' : new t with
  | error err => exact .inl fun w' hopen => nomatch hw'.symm.trans hopen
  | ok w' =>
    have hwal : w'.wal = t := (contiguous_of_new hw' (h.contiguous.torn_ne_nil ht)).2 ▸ rfl
    obtain ⟨stop, k, hstop, hk, hrep⟩ := h.torn (by omega) ht hw'
    rcases Nat.eq_zero_or_pos k with rfl | hpos
    · refine .inl fun w'' hopen => ?_
      cases hw'.symm.trans hopen
      refine ⟨_, _, hrep, _, ⟨log.written.first + stop, by omega, rfl⟩, _, rfl, ?_, ?_⟩
      · change log.written.first + n + 0 ≤ log.retained
        omega
      · exact fun _ => (Nat.le_add_right _ _).trans (Nat.le_add_right _ _)
    · have hfirst := hrep.firstIndex_eq
      rw [hwal] at hfirst
      refine .inr ⟨by rw [hfirst, h.firstIndex_eq]; omega, fun w'' hopen => ?_⟩
      cases hw'.symm.trans hopen
      refine ⟨_, _, hrep, ?_, ?_⟩
      · intro hnil
        have hdropped := hrep.dropped
        rw [hnil, length_nil] at hdropped
        omega
      · simp only [RaftLog.reopen]
        omega

theorem truncateConflicting (h : w.Represents log n) (hne : log.written.entries ≠ [])
    (happ : log.Appendable e.index) :
    wp (truncateConflicting e (offsetOf log n)) (fun _ w' => w'.Represents (log.truncate e.index) n)
      (fun _ _ => False)
      (fun w' => e.index < log.written.next ∧
        Left w e.index (fun log' => ∃ i, e.index ≤ i ∧ log' = log.truncate i) w'.wal) w := by
  obtain ⟨hle, _⟩ := happ.length_take h.wellFormed hne
  have hnext := happ.le_next hne
  have hlast := h.lastIndex_eq hne
  rw [IndexedLog.next] at hnext
  simp only [ConsensusOpWal.truncateConflicting, offsetOf, if_neg hne, wp_bind, wp_get,
    IndexOffset.tryRaftToWal, if_neg (not_lt.mpr hle)]
  rw [if_neg (by omega)]
  split
  next hlt =>
    obtain ⟨wal, hwal, hrep⟩ := h.truncate hne happ
    have hretained := h.retained hne
    have habove := happ.above hne
    apply wp_walTruncate hwal hrep
    refine fun t ht => ⟨?_, h.torn_append hne (by omega) ht⟩
    have hpos := length_pos_iff.mpr hne
    rw [IndexedLog.next]
    omega
  next hge =>
    apply (wp_pure _).mpr
    rw [log.truncate_next (by rw [IndexedLog.next]; omega)]
    exact h

/-- Appending the first entry of a log. -/
theorem append_first (h : w.Represents log 0) (hnil : log.written.entries = [])
    (happ : log.Appendable e.index) (hcompacted : log.compacted ≤ e.index) (full : Bool) :
    Represents { w with wal := (w.wal.append full e).1 } (log.put e) 0 ∧
      (w.wal.append full e).2 = 0 := by
  have hphysical : w.wal.log = ⟨0, [].drop 0⟩ := by rw [h.physical, hnil]
  have hentries : (log.put e).written.entries = [] ++ [e] := by rw [RaftLog.put_nil hnil]; rfl
  have hcompacted' : w.compactedUntilRaftIndex = (log.put e).compacted := by
    rw [log.compacted_put, h.compacted]
  have hretained : (log.put e).retained =
      max (log.put e).compacted ((log.put e).written.first + 0) := by
    rw [RaftLog.put_nil hnil]
    exact (Nat.max_eq_right hcompacted).symm
  exact append h.contiguous hphysical (Nat.zero_le _) (h.wellFormed.put happ hcompacted) hentries
    hcompacted' hretained full

/-- Appending an entry that is not refused writes it to the log. -/
theorem append_put (h : w.Represents (log.truncate e.index) n) (hne : log.written.entries ≠ [])
    (hwf : log.WellFormed) (happ : log.Appendable e.index)
    (hretained : log.retained = max log.compacted (log.written.first + n)) (full : Bool) :
    Represents { w with wal := (w.wal.append full e).1 } (log.put e) n ∧
      (w.wal.append full e).2 = e.index - log.written.first := by
  have habove := happ.above hne
  obtain ⟨hle, hlength⟩ := happ.length_take hwf hne
  have hwf' := hwf.put happ (by omega)
  rw [RaftLog.put_of_ne hne] at hwf' ⊢
  have hn : n ≤ (log.written.entries.take (e.index - log.written.first)).length := by omega
  have happend := append h.contiguous h.physical hn hwf' rfl h.compacted hretained full
  exact ⟨happend.1, happend.2.trans hlength⟩

section

variable (h : w.Represents log n)

include h

/-- Appending one entry writes it to the log, or is refused. -/
theorem appendEntry (happ : log.Appendable e.index) (full : RaftEntry → Bool) :
    wp (appendEntry full (offsetOf log n) e) (fun offset w' =>
        ¬ log.Refuses [e] ∧ w'.Represents (log.put e) n ∧ offset = offsetOf (log.put e) n)
      (fun err w' => w' = w ∧ log.Refuses [e] ∧ err = logicallyCompacted e.index log.compacted)
      (fun w' => Recovers w'.wal log.Reopens ∨
        e.index < log.written.next ∧
          Left w e.index (fun log' => ∃ i, e.index ≤ i ∧ log' = log.truncate i) w'.wal) w := by
  simp only [ConsensusOpWal.appendEntry, wp_bind, wp_get, h.compacted]
  rcases eq_or_ne log.written.entries [] with hnil | hne
  · obtain rfl : n = 0 := by
      have hdropped := h.dropped
      rw [hnil] at hdropped
      simpa using hdropped
    split
    next hlt => exact (wp_throw _).mpr ⟨rfl, ⟨hnil, e, rfl, hlt⟩, rfl⟩
    next hge =>
      obtain ⟨hrep, hindex⟩ := h.append_first hnil happ (Nat.le_of_not_lt hge) (full e)
      have hoffset : offsetOf log 0 = none := if_pos hnil
      simp only [hoffset, ConsensusOpWal.truncateConflicting, wp_bind, wp_pure]
      apply wp_walAppend h.contiguous _ fun t hc hlog => .inl (h.congr_wal hc hlog).recovers
      rw [hindex]
      apply (wp_ofExcept_ok rfl).mpr
      simp only [updateOffset, wp_bind, wp_get]
      apply (wp_ofExcept_ok hrep.indexOffsetImpl_eq).mpr
      refine ⟨?_, hrep, rfl⟩
      rintro ⟨_, _, ⟨⟩, hlt⟩
      exact hge hlt
  · have hcompacted := h.wellFormed.compacted_le hne
    have habove := happ.above hne
    obtain ⟨hle, _⟩ := happ.length_take h.wellFormed hne
    rw [if_neg (by omega)]
    apply wp_bind.mpr
    apply wp_total (h.truncateConflicting hne happ)
    · intro _ w' htrunc
      obtain ⟨hrep, hindex⟩ := htrunc.append_put hne h.wellFormed happ (h.retained hne) (full e)
      have hoffset : offsetOf (log.put e) n = offsetOf log n := by
        rw [offsetOf, if_neg (log.put_entries_ne e), offsetOf, if_neg hne, RaftLog.put_of_ne hne]
        rfl
      have hassert : assertInserted (offsetOf log n) e (e.index - log.written.first) = .ok () := by
        simp only [assertInserted, offsetOf, if_neg hne, IndexOffset.tryRaftToWal,
          if_neg (not_lt.mpr hle), if_true]
      simp only [wp_bind]
      apply wp_walAppend htrunc.contiguous
      · rw [hindex]
        apply (wp_ofExcept_ok hassert).mpr
        rw [hoffset, offsetOf, if_neg hne]
        exact (wp_pure _).mpr ⟨fun hrefuses => hne hrefuses.1, hrep, rfl⟩
      · -- The conflicting entries are removed, and the new one is not written yet.
        intro t hc hlog
        have hrecovers : Recovers t (log.truncate e.index).Reopens := (htrunc.congr_wal hc hlog).recovers
        rcases Nat.lt_or_ge e.index log.written.next with hlt | hge
        · refine .inr ⟨hlt, .inl (hrecovers.mono fun log' hreopens => ?_)⟩
          exact ⟨_, ⟨e.index, le_rfl, rfl⟩, hreopens⟩
        · rw [RaftLog.truncate_next hge] at hrecovers
          exact .inl hrecovers
    · exact fun _ hleft => .inr hleft

/-- Appending entries writes them all to the log, or is refused. -/
theorem appendEntries {start : Nat}
    (hseq : SequentialFrom start es) (happ : es ≠ [] → log.Appendable start)
    (full : RaftEntry → Bool) :
    wp (appendEntries full es) (fun _ w' => ¬ log.Refuses es ∧ w'.Represents (log.append es) n)
      (fun err w' => w' = w ∧ log.Refuses es ∧ err = logicallyCompacted start log.compacted)
      (fun w' => Left w start (log.Interrupted es) w'.wal) w := by
  rcases eq_or_ne es [] with rfl | hne
  · rw [ConsensusOpWal.appendEntries, if_pos rfl, wp_pure]
    refine ⟨?_, h⟩
    rintro ⟨_, _, ⟨⟩, _⟩
  rw [ConsensusOpWal.appendEntries, if_neg hne]
  simp only [wp_bind, wp_get, wp_ofExcept_ok h.indexOffsetImpl_eq, wp_pure]
  -- What is written when some of the entries are left. Only the first one can be refused.
  let I (rest : List RaftEntry) (offset : Option IndexOffset) (w' : ConsensusOpWal) : Prop :=
    ∃ pre, es = pre ++ rest ∧ w'.Represents (log.append pre) n ∧
      offset = offsetOf (log.append pre) n ∧
      (log.append pre).Appendable (start + pre.length) ∧
      (pre = [] ∧ w' = w ∨ pre ≠ [] ∧ ¬ log.Refuses es ∧ start + pre.length = (log.append pre).written.next)
  have hinit : I es (offsetOf log n) w := ⟨[], rfl, h, rfl, happ hne, .inl ⟨rfl, rfl⟩⟩
  apply wp_conseq (wp_foldlM I ?_ es hinit)
  · rintro offset w' ⟨pre, rfl, hrep, _, _, hpre⟩
    rw [append_nil] at hne hpre ⊢
    rcases hpre with ⟨hnil, _⟩ | ⟨_, hok, _⟩
    · exact absurd hnil hne
    · exact ⟨hok, hrep⟩
  · rintro e rest offset w' ⟨pre, rfl, hrep, rfl, happ', hpre⟩
    obtain ⟨hindex, -⟩ := (SequentialFrom.append.mp hseq).2
    rw [← hindex] at happ' hpre
    have hput : (log.append pre).put e = log.append (pre ++ [e]) := by
      rw [RaftLog.append, RaftLog.append, foldl_append]
      rfl
    apply wp_mono (hrep.appendEntry happ' full)
    · rintro offset w'' ⟨hok, hrep', rfl⟩
      have hnext := happ'.next_put hrep.wellFormed
      rw [hput] at hrep' hnext ⊢
      have hstart : start + (pre ++ [e]).length = e.index + 1 := by
        rw [length_append, length_singleton]
        omega
      refine ⟨pre ++ [e], by simp, hrep', rfl, ?_, .inr ⟨by simp, ?_, by rw [hstart, hnext]⟩⟩
      · rw [hstart, ← hput]
        exact happ'.put hrep.wellFormed
      · rcases hpre with ⟨rfl, _⟩ | ⟨_, hok', _⟩
        · exact hok
        · exact hok'
    · rintro err w'' ⟨rfl, hrefuses, rfl⟩
      rcases hpre with ⟨rfl, rfl⟩ | ⟨hpreNe, _, hlast⟩
      · rw [hindex]
        exact ⟨rfl, hrefuses, rfl⟩
      · exact absurd hrefuses.1 (log.append_entries_ne hpreNe)
    · rintro w'' (hrecovers | ⟨hlt, hleft⟩)
      · refine .inl (hrecovers.mono fun log' hreopens => ?_)
        exact ⟨_, .inl ⟨pre, prefix_append _ _, rfl⟩, hreopens⟩
      · rcases hpre with ⟨rfl, rfl⟩ | ⟨_, _, hlast⟩
        · rw [hindex] at hleft
          refine hleft.mono ?_
          rintro log' ⟨i, hi, hlog'⟩
          exact .inr ⟨e, i, rfl, by omega, hlog'⟩
        · exact absurd hlast.symm.le (Nat.not_le.mpr hlt)

/-- Entries that continue the log behind the commit index are not refused. -/
theorem appendContinues {commit start : Nat}
    (hseq : SequentialFrom start es) (hcont : es ≠ [] → log.Continues commit start)
    (full : RaftEntry → Bool) :
    wp (ConsensusOpWal.appendEntries full es) (fun _ w' => w'.Represents (log.append es) n)
      (fun _ _ => False) (fun w' => Left w start (log.Interrupted es) w'.wal) w := by
  apply wp_mono (h.appendEntries hseq (fun hne => (hcont hne).appendable) full)
  · exact fun _ _ hrep => hrep.2
  · rintro _ w' ⟨_, ⟨_, e, he, hlt⟩, _⟩
    cases es with
    | nil => cases he
    | cons e' es =>
      cases he
      have hcont := hcont (cons_ne_nil _ _)
      have hindex := hseq.1
      have hle := hcont.compacted_le
      have hgt := hcont.commit_lt
      omega
  · exact fun _ hC => hC

/-- An entry that replaces the first one of a log of which entries were removed. The WAL indices start
over then, so that the assertion about them fails. -/
theorem appendEntries_first {rest : List RaftEntry} (hne : log.written.entries ≠ []) (hn : 0 < n)
    (hindex : e.index = log.written.first + n) (hcompacted : log.compacted ≤ e.index)
    (full : RaftEntry → Bool) :
    wp (ConsensusOpWal.appendEntries full (e :: rest)) (fun _ _ => False)
      (fun _ w' => w'.Represents (log.clear.put e) 0)
      (fun w' => Left w e.index (fun log' => ∃ i, e.index ≤ i ∧ log' = log.truncate i) w'.wal ∨
        Recovers w'.wal log.clear.Reopens) w := by
  have hlength := h.length_pos hne
  have hlast := h.lastIndex_eq hne
  have hpos := h.wellFormed.one_le hne
  have hwalIndex : e.index - log.written.first = n := by omega
  have hconvert : IndexOffset.tryRaftToWal ⟨n, log.written.first + n, log.written.first⟩ e.index =
      some n := by
    have hge : ¬ e.index < log.written.first := by omega
    simp only [IndexOffset.tryRaftToWal, if_neg hge, hwalIndex]
  have hcleared : Represents { w with wal := ⟨[], []⟩ } log.clear 0 :=
    ⟨.clear log, trivial, h.compacted, rfl, .inl rfl, fun hne => absurd rfl hne⟩
  have happ : log.clear.Appendable e.index :=
    ⟨by omega, fun hne => absurd rfl hne, fun hne => absurd rfl hne⟩
  apply wp_appendEntries_cons h.indexOffsetImpl_eq
  rw [offsetOf, if_neg hne]
  simp only [ConsensusOpWal.appendEntry, ConsensusOpWal.truncateConflicting, wp_bind, wp_get,
    h.compacted, if_neg (Nat.not_lt.mpr hcompacted), hconvert]
  rw [if_neg (by omega), if_pos (by omega)]
  apply wp_walTruncate (h.contiguous.truncate_first h.firstIndex_eq.ge)
  · obtain ⟨hrep, hzero⟩ := hcleared.append_first rfl happ hcompacted (full e)
    apply wp_walAppend hcleared.contiguous
    · have hassert : ∃ err, assertInserted (some ⟨n, log.written.first + n, log.written.first⟩) e 0 =
          .error err := by
        rw [assertInserted, hconvert]
        exact ⟨_, if_neg hn.ne⟩
      obtain ⟨err, herr⟩ := hassert
      rw [hzero, herr]
      exact (wp_of_error rfl).mpr hrep
    · exact fun t hc hlog => .inr (hcleared.congr_wal hc hlog).recovers
  · exact fun t ht => .inl (h.torn_append hne hindex.ge (hwalIndex ▸ ht))

/-- Moving the compaction point in memory. -/
theorem setCompacted (hne : log.written.entries ≠ []) {stop m : Nat}
    (hgt : log.compacted < stop) (hm : m = min stop (log.written.next - 1)) :
    Represents { w with compactedUntilRaftIndex := m } (log.compact stop) n := by
  have hwf := h.wellFormed.compact stop
  have hretained := h.retained hne
  have hlt := h.wellFormed.retained_lt hne
  rw [RaftLog.compact, if_neg hne] at hwf ⊢
  refine ⟨hwf, h.contiguous, ?_, h.physical, h.dropped, fun _ => ?_⟩
  · dsimp only
    omega
  · dsimp only
    omega

/-- What the WAL drops stands below the compaction point. -/
theorem prefixTruncate (hne : log.written.entries ≠ []) {k : Nat}
    (hk : log.written.first + k ≤ log.compacted) :
    ∃ wal, w.wal.prefixTruncate retainClosed k = .ok wal ∧ w.wal.DroppingTo wal wal ∧
      ∀ t, w.wal.DroppingTo wal t → ∃ n', Represents { w with wal := t } log n' := by
  obtain ⟨⟨closed, o⟩, hwal, rfl, hsuffix, hsteps⟩ :=
    h.contiguous.prefixTruncate_steps retainClosed k
  refine ⟨_, hwal, ⟨closed, hsuffix, suffix_rfl, rfl⟩, ?_⟩
  rintro t ⟨rest, hrest, hclosed, rfl⟩
  obtain ⟨hc, count, hdrop, hbelow⟩ := hsteps rest hrest hclosed
  have hretained := h.retained hne
  have hlt := h.wellFormed.retained_lt hne
  have hn : w.wal.log.first = n := h.firstIndex_eq
  rw [IndexedLog.next] at hlt
  refine ⟨n + count, h.wellFormed, hc, h.compacted, ?_, .inr (by omega), fun _ => by omega⟩
  rw [hdrop, h.physical, dropFirst]
  rw [drop_drop]

/-- Compaction keeps the last entry, in the log and in the WAL. -/
theorem compact (stop : Nat) :
    wp (compact stop) (fun _ w' => ∃ n', w'.Represents (log.compact stop) n') (fun _ _ => False)
      (fun w' => ∃ n', w'.Represents (log.compact stop) n') w := by
  simp only [ConsensusOpWal.compact, wp_bind, wp_get, wp_ofExcept_ok h.indexOffsetImpl_eq]
  rcases eq_or_ne log.written.entries [] with hnil | hne
  · rw [offsetOf, if_pos hnil]
    apply (wp_pure _).mpr
    rw [RaftLog.compact, if_pos hnil]
    exact ⟨n, h⟩
  have hfirst := h.wellFormed.first_le hne
  have hlt := h.wellFormed.retained_lt hne
  have hpos := h.length_pos hne
  rw [offsetOf, if_neg hne]
  dsimp only
  rw [h.compacted]
  split
  next hle =>
    apply (wp_pure _).mpr
    rw [RaftLog.compact_of_le hle h.wellFormed]
    exact ⟨n, h⟩
  next hgt =>
    simp only [IndexOffset.tryRaftToWal, h.numEntries_eq]
    rcases Nat.lt_or_ge stop log.written.first with hbefore | hafter
    · rw [if_pos hbefore]
      simp only [wp_modify]
      exact ⟨n, h.setCompacted hne (Nat.lt_of_not_le hgt) (by omega)⟩
    · rw [if_neg (not_lt.mpr hafter)]
      simp only [wp_bind, wp_modify]
      generalize hk : min (stop - log.written.first) (n + (log.written.entries.length - n) - 1) = k
      have hpoint : k + log.written.first = min stop (log.written.next - 1) := by
        rw [IndexedLog.next]
        omega
      have hset := h.setCompacted hne (Nat.lt_of_not_le hgt) hpoint
      have hne' : (log.compact stop).written.entries ≠ [] := by
        rw [RaftLog.compact, if_neg hne]
        exact hne
      have hbound : (log.compact stop).written.first + k ≤ (log.compact stop).compacted := by
        rw [← hset.compacted, Nat.add_comm, RaftLog.compact, if_neg hne]
      obtain ⟨wal, hwal, hlast, hrep⟩ := hset.prefixTruncate hne' hbound
      exact wp_walPrefixTruncate hwal (hrep wal hlast) hrep

/-- An interrupted clear has removed some entries, but not all of them. -/
theorem torn_clear {t : SegmentList (List RaftEntry)} (ht : w.wal.Torn w.wal.firstIndex t) :
    Recovers t log.Clearing := by
  intro w' hw'
  rw [h.firstIndex_eq] at ht
  obtain ⟨stop, k, hstop, -, hrep⟩ := h.torn le_rfl ht hw'
  refine ⟨_, _, hrep, rfl, rfl, fun hnil => ?_, fun hne => ⟨?_, ?_⟩⟩
  · rw [RaftLog.reopen, RaftLog.truncate, IndexedLog.truncate, hnil, take_nil]
  · intro hnil
    rcases take_eq_nil_iff.mp hnil with hzero | hempty
    · omega
    · exact hne hempty
  · simp only [RaftLog.reopen, RaftLog.truncate, IndexedLog.truncate, IndexedLog.next, length_take]
    omega

theorem clear :
    wp clear (fun _ w' => w'.Represents log.clear 0) (fun _ _ => False)
      (fun w' => Recovers w'.wal log.Clearing) w := by
  apply wp_clear h.contiguous
  · exact ⟨.clear log, trivial, h.compacted, rfl, .inl rfl, fun hne => absurd rfl hne⟩
  · exact fun t ht => h.torn_clear ht

end

end Represents

end ConsensusOpWal

end Qdrant.Consensus
