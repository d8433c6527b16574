-- SUMMARY: With one flusher at a time, a Gridstore is a map from offsets to values.
import Qdrant.Gridstore.Session

/-!
# The store as a map

`Faithful` says that the operations of the store are those of the map `contents`, and that
the blocks of everything that is current or recorded on disk are disjoint and in use. It
holds in every session in which at most one flusher is outstanding at a time and in which the
store is opened anew only when everything has been flushed, if the regions of the bitmask are
made of whole words and the values fit.
-/

namespace Qdrant.Gridstore

open Crash Tracker List

variable {V : Type}

/-- The pointer is current or recorded on disk. -/
def Refers (s : Gridstore) (i : Nat) (p : ValuePointer) : Prop :=
  s.tracker.get i = some p ∨ s.tracker.entries.content i = some p

namespace Session

structure Faithful (codec : Codec V) (s : Session V) : Prop where
  get : ∀ i, getValue codec s.store i = .ok (s.contents i)
  put : ∀ i value, s.store.Fits (codec.encode s.store.config value) →
    (putValue codec i value s.store).result = .ok (s.contents i).isSome
  delete : ∀ i, (deleteValue codec i s.store).result = .ok (s.contents i)
  iter : ∃ visited, iter codec s.store = .ok visited ∧ (visited.map Prod.fst).Pairwise (· < ·) ∧
    ∀ i value, (i, value) ∈ visited ↔ s.contents i = some value
  used : ∀ i p, s.store.Refers i p → ∀ block, p.Covers s.store.config block →
    s.store.bitmask.bits.content block = true
  disjoint : ∀ i p j q, s.store.Refers i p → s.store.Refers j q → (i, p) ≠ (j, q) →
    ∀ block, p.Covers s.store.config block → ¬ q.Covers s.store.config block

variable {codec : Codec V} {s s' : Session V}

section

variable (h : s.Inv codec)

include h

theorem Inv.getValue_eq (i : Nat) : getValue codec s.store i = .ok (s.contents i) := by
  have hget := h.get_eq i
  cases hlive : (s.slot i).live with
  | none =>
    rw [getValue, hget.trans hlive, h.contents i, hlive]
    rfl
  | some p =>
    obtain ⟨value, hvalue, hholds⟩ := h.keeps.holds i p (.inr (.inl hlive))
    rw [getValue, hget.trans hlive, h.contents i, hlive, Option.bind_some, hvalue]
    dsimp only
    rw [readFromPages_value h.valid (h.keeps.placed i p (.inr (.inl hlive))) hholds]
    simp only [bind, Except.bind, codec.decode_encode]
    rfl

theorem Inv.isSome_get (i : Nat) : (s.store.tracker.get i).isSome = (s.contents i).isSome := by
  rw [h.get_eq i]
  cases hlive : (s.slot i).live with
  | none => rw [h.contents i, hlive]; rfl
  | some p =>
    obtain ⟨value, hvalue, _⟩ := h.read_live hlive
    rw [hvalue]
    rfl

theorem Inv.offset_lt_of_contents {i : Nat} {value : V}
    (hvalue : s.contents i = some value) : i < s.store.iterEnd := by
  rw [h.contents i] at hvalue
  obtain ⟨p, hlive, _⟩ := Option.bind_eq_some_iff.mp hvalue
  obtain ⟨hlt, hi⟩ := h.offset_lt i p (.inr (.inl hlive))
  exact Nat.lt_min.mpr ⟨hlt, by omega⟩

theorem Inv.owned_of_refers {i : Nat} {p : ValuePointer} (hp : s.store.Refers i p) :
    (s.slot i).Owned p := by
  rcases hp with hget | hraw
  · exact .inr (.inl ((h.get_eq i).symm.trans hget))
  · exact .inl hraw

theorem Inv.faithful : s.Faithful codec where
  get := h.getValue_eq
  put i value hfits := by
    obtain ⟨_, hresult, hexisted, _⟩ := wp_exists_ok
      (wp_putValue (C := fun _ => True) h.valid (i := i) hfits (fun _ _ => trivial) fun _ _ _ => trivial)
    rw [hresult, hexisted, h.isSome_get]
  delete i := by
    obtain ⟨_, hresult, hdeleted, _⟩ := wp_exists_ok (h.wp_deleteValue (i := i) (C := fun _ => True))
    rw [hresult, hdeleted]
  iter := by
    have hle : s.store.iterEnd ≤ s.store.tracker.nextPointerOffset := Nat.min_le_left _ _
    rw [iter, iterBatches_eq h.getValue_eq (by omega), nil_append, Nat.sub_zero, ← range_eq_range']
    refine ⟨_, rfl, pairwise_present pairwise_lt_range, fun i value => ?_⟩
    rw [mem_present, mem_range]
    exact ⟨fun hmem => hmem.2, fun hvalue => ⟨h.offset_lt_of_contents hvalue, hvalue⟩⟩
  used i p hp := h.keeps.used i p (h.owned_of_refers hp)
  disjoint i p j q hp hq := h.keeps.disjoint i p j q (h.owned_of_refers hp) (h.owned_of_refers hq)

end

/-! ## One flusher at a time -/

/-- At most one flusher is outstanding at a time, a flusher that is run exists, and the store is
opened anew when its values are those of the last flush. -/
def OneFlusher (s : Session V) : Event V → Prop
  | .createFlusher => s.outstanding = []
  | .executeFlusher _ => s.outstanding ≠ []
  | .reopen => s.saved = s.contents
  | _ => True

/-- A flusher that is alone: nothing has been freed since it was created, and nothing that it
stores is stored already. -/
structure Single (s : Session V) : Prop where
  length_le : s.outstanding.length ≤ 1
  freed : ∀ o ∈ s.current, ∀ i, o.freed i = []
  raw_ne : ∀ o ∈ s.current, ∀ i u p, o.flusher.pendingUpdates.get? i = some u → u.current = some p →
    (s.slot i).raw ≠ some p

theorem single_of_nil (h : s.outstanding = []) : s.Single := by
  have hcurrent : s.current = [] := by
    rw [current, h]
    rfl
  refine ⟨by rw [h]; exact Nat.zero_le 1, ?_, ?_⟩
  · intro o ho
    rw [hcurrent] at ho
    cases ho
  · intro o ho
    rw [hcurrent] at ho
    cases ho

/-- The flushers are the same or fewer, and the file has not changed. -/
theorem Single.mono (h : s.Single) (hout : s'.outstanding.Sublist s.outstanding)
    (hcurrent : ∀ o ∈ s'.current, o ∈ s.current)
    (hraw : s'.current ≠ [] → ∀ i, (s'.slot i).raw = (s.slot i).raw) : s'.Single where
  length_le := hout.length_le.trans h.length_le
  freed o ho := h.freed o (hcurrent o ho)
  raw_ne o ho i u p hu hp := by
    rw [hraw (ne_nil_of_mem ho)]
    exact h.raw_ne o (hcurrent o ho) i u p hu hp

theorem Single.rest_eq_nil (h : s.Single) {o : Outstanding V} {rest : List (Outstanding V)}
    (hout : s.outstanding = o :: rest) : rest = [] := by
  have := h.length_le
  rw [hout, length_cons] at this
  exact length_eq_zero_iff.mp (by omega)

theorem Single.canFlush (h : s.Single) (event : Event V) : s.CanFlush event := by
  cases event with
  | executeFlusher order =>
    intro o rest hout hgeneration i
    have hmem : o ∈ s.current := by
      rw [current, hout, filter_cons_of_pos (by simpa using hgeneration)]
      exact mem_cons_self
    refine ⟨fun f _ hf => ?_, h.raw_ne o hmem i⟩
    rw [h.freed o hmem i] at hf
    cases hf
  | _ => trivial

variable {event : Event V}

theorem Single.step (h : s.Single) (hinv : s.Inv codec) (hone : s.OneFlusher event)
    (hstep : s.Steps codec event s') : s'.Single := by
  cases hstep with
  | put _ hput =>
    exact h.mono (List.Sublist.refl _) (fun o ho => current_afterPut hput ▸ ho) fun _ _ => rfl
  | delete i =>
    refine h.mono (List.Sublist.refl _) (fun o ho => ho) fun _ j => ?_
    dsimp only [slot, afterDelete]
    rw [Tracker.entries_unset]
  | @clear t _ hgeneration _ _ =>
    have hnil := current_of_new (s := { s with store := t, contents := fun _ => none, saved := fun _ => none })
      fun o ho => by
        rw [hgeneration]
        exact Nat.lt_succ_of_le (hinv.generation_le o ho)
    exact h.mono (List.Sublist.refl _) (fun o ho => by rw [hnil] at ho; cases ho)
      fun hne => absurd hnil hne
  | createFlusher =>
    have hnil : s.outstanding = [] := hone
    have hmem : ∀ o ∈ s.withFlusher.current, o = ⟨s.store.flusher, s.contents, fun _ => []⟩ := by
      intro o ho
      have := (mem_filter.mp ho).1
      rw [withFlusher, hnil, nil_append, mem_singleton] at this
      exact this
    refine ⟨by simp [withFlusher, hnil], fun o ho i => by rw [hmem o ho], fun o ho i u p hu hp => ?_⟩
    rw [hmem o ho] at hu
    exact (hinv.consistent i).raw_ne_current u p hu hp
  | executeFlusher hout =>
    apply single_of_nil
    rw [afterFlusher, h.rest_eq_nil hout]
    rfl
  | cancelled hout => exact single_of_nil (h.rest_eq_nil hout)
  | dropFlusher k =>
    have hsub : (s.outstanding.eraseIdx k).Sublist s.outstanding := eraseIdx_sublist ..
    exact h.mono hsub (fun o ho => (hsub.filter _).subset ho) fun _ _ => rfl
  | reopen =>
    have hnil := current_of_new hinv.reopened_new
    exact h.mono (List.Sublist.refl _) (fun o ho => by rw [hnil] at ho; cases ho)
      fun hne => absurd hnil hne

/-- No event fails, and what holds of a session with one flusher goes on to hold. -/
theorem Single.exists_step (hsingle : s.Single) (hinv : s.Inv codec) (hone : s.OneFlusher event)
    (hadmissible : s.Admissible codec event) :
    ∃ s', s.step codec event = some s' ∧ s.Steps codec event s' ∧ s'.Inv codec ∧ s'.Single := by
  obtain ⟨s', heq, hstep⟩ := hinv.exists_step hadmissible (hsingle.canFlush event)
    (by rintro ⟨order, rfl⟩; exact hone)
  exact ⟨s', heq, hstep, hinv.step hstep, hsingle.step hinv hone hstep⟩

/-- Every event of a session with one flusher at a time succeeds, and the store is a map in
every state that is reached. -/
theorem faithful_of_oneFlusher {options : StorageOptions} {config : StorageConfig} {store : Gridstore}
    (hconfig : StorageConfig.tryFrom options = .ok config) (hwords : config.WholeWords)
    (hnew : new options 0 = .ok store) {events : List (Event V)}
    (hguard : Run.Guarded (Session.step codec) (fun s event => s.OneFlusher event ∧ s.Admissible codec event)
      (ofStore store) events) :
    ∃ s, Run.run (Session.step codec) (ofStore store) events = some s ∧ s.Faithful codec := by
  obtain ⟨store', hnew', hinv⟩ := inv_ofStore codec hconfig hwords
  rw [hnew, Except.ok.injEq] at hnew'
  subst hnew'
  obtain ⟨s, hrun, hs, _⟩ := Run.run_total (P := fun s : Session V => s.Inv codec ∧ s.Single)
    (fun s event ⟨hinv, hsingle⟩ ⟨hone, hadmissible⟩ => by
      obtain ⟨s', hstep, _, hnext⟩ := hsingle.exists_step hinv hone hadmissible
      exact ⟨s', hstep, hnext⟩)
    hguard ⟨hinv, single_of_nil rfl⟩
  exact ⟨s, hrun, hs.faithful⟩

/-- A value is put, flushed and found again when the store is opened anew. -/
theorem faithful_of_put_flush_reopen : ∃ store, new (smallOptions 64) 0 = .ok store ∧
    ∃ s, Run.run (Session.step byteCodec) (ofStore store)
      [.put 0 [7], .createFlusher, .executeFlusher .ascending, .reopen] = some s ∧ s.Faithful byteCodec := by
  refine ⟨_, rfl, faithful_of_oneFlusher (show StorageConfig.tryFrom (smallOptions 64) = _ from rfl) (by decide) rfl ?_⟩
  apply Run.Guarded.cons ⟨trivial, ⟨by decide, by decide, by decide⟩, by decide⟩ rfl
  apply Run.Guarded.cons ⟨rfl, trivial⟩ rfl
  apply Run.Guarded.cons ⟨cons_ne_nil _ _, trivial⟩ rfl
  exact Run.Guarded.cons ⟨rfl, trivial⟩ rfl trivial

/-- Regions of half a word: the first put does not find the free blocks and panics. -/
theorem put_panics_half_word : (new (smallOptions 32) 0).map (fun store =>
    (putValue byteCodec 0 [7] store).result) = .ok (.error .panicked) := by
  rfl

/-! ## Several flushers

Each flusher holds a copy of the updates that were pending at its creation. If every flusher
that is run frees nothing that an earlier one has freed since, and stores no pointer that an
earlier one has stored (`CanFlush`), then the tracker file shows the values at the creation
of the flusher that was run last, and nothing that is current or stored has free blocks.
-/

/-- What flushers in sequence are to achieve. -/
structure Composed (codec : Codec V) (s : Session V) : Prop where
  /-- Opening the files shows the values at the creation of the last flusher. -/
  reopened : ∃ t, s.store.reopen = .ok t ∧ ∀ i, getValue codec t i = .ok (s.saved i)
  used : ∀ i p, s.store.Refers i p → ∀ block, p.Covers s.store.config block →
    s.store.bitmask.bits.content block = true

/-- A flusher that is run exists. -/
def FlusherExists (s : Session V) : Event V → Prop
  | .executeFlusher _ => s.outstanding ≠ []
  | _ => True

theorem Inv.composed (h : s.Inv codec) : s.Composed codec where
  reopened := ⟨_, reopen_eq h.valid, h.reopened.getValue_eq⟩
  used := h.faithful.used

/-- In every session whose flushers can be run, the files show the values of the last flusher,
and what is referred to keeps its blocks. -/
theorem composed_of_canFlush {options : StorageOptions} {config : StorageConfig} {store : Gridstore}
    (hconfig : StorageConfig.tryFrom options = .ok config) (hwords : config.WholeWords)
    (hnew : new options 0 = .ok store) {events : List (Event V)}
    (hguard : Run.Guarded (Session.step codec)
      (fun s event => s.FlusherExists event ∧ s.Admissible codec event ∧ s.CanFlush event)
      (ofStore store) events) :
    ∃ s, Run.run (Session.step codec) (ofStore store) events = some s ∧ s.Composed codec := by
  obtain ⟨store', hnew', hinv⟩ := inv_ofStore codec hconfig hwords
  rw [hnew, Except.ok.injEq] at hnew'
  subst hnew'
  obtain ⟨s, hrun, hs⟩ := Run.run_total (P := fun s : Session V => s.Inv codec)
    (fun s event hinv ⟨hexists, hadmissible, hflush⟩ => by
      obtain ⟨s', heq, hstep⟩ := hinv.exists_step hadmissible hflush
        (by rintro ⟨order, rfl⟩; exact hexists)
      exact ⟨s', heq, hinv.step hstep⟩)
    hguard hinv
  exact ⟨s, hrun, hs.composed⟩

/-- A new store with one page of 64 blocks. -/
def smallStore : Gridstore := (new (smallOptions 64) 0).toOption.get rfl

/-- Two flushers with a put before each of them. The second one frees what the first one stored. -/
theorem composed_of_two_flushers : ∃ s, Run.run (Session.step byteCodec) (ofStore smallStore)
      ([.put 0 [7], .createFlusher, .put 0 [8], .createFlusher, .executeFlusher .ascending] ++
        [.executeFlusher .ascending]) = some s ∧ s.Composed byteCodec := by
  obtain ⟨s, hrun, hout, hraw⟩ : ∃ s ∈ Run.run (Session.step byteCodec) (ofStore smallStore)
      [.put 0 [7], .createFlusher, .put 0 [8], .createFlusher, .executeFlusher .ascending],
      (s.outstanding.map fun o => (o.flusher.pendingUpdates, o.freed 0)) =
        [(HashMap.insert ∅ 0 ⟨some ⟨0, 1, 1⟩, [⟨0, 0, 1⟩]⟩, [])] ∧
      s.store.tracker.entries.content 0 = some ⟨0, 0, 1⟩ := by decide +kernel
  refine composed_of_canFlush (show StorageConfig.tryFrom (smallOptions 64) = _ from rfl) (by decide) rfl
    (.concat ?_ hrun ⟨?_, trivial, ?_⟩)
  · apply Run.Guarded.cons ⟨trivial, ⟨⟨by decide, by decide, by decide⟩, by decide⟩, trivial⟩ rfl
    apply Run.Guarded.cons ⟨trivial, trivial, trivial⟩ rfl
    apply Run.Guarded.cons ⟨trivial, ⟨⟨by decide, by decide, by decide⟩, by decide⟩, trivial⟩ rfl
    apply Run.Guarded.cons ⟨trivial, trivial, trivial⟩ rfl
    refine Run.Guarded.cons ⟨List.cons_ne_nil _ _, trivial, ?_⟩ rfl trivial
    -- Nothing has been freed and nothing has been stored yet.
    intro o rest hout _ i
    have hfirst : o.freed = fun _ => [] := congrArg Outstanding.freed (List.cons.inj hout).1.symm
    refine ⟨fun f _ hf => ?_, fun u p _ _ hraw => ?_⟩
    · rw [hfirst] at hf
      cases hf
    · have hnone : (none : Option ValuePointer) = some p := hraw
      cases hnone
  · intro hnil
    rw [hnil] at hout
    cases hout
  · intro o rest hcons _ i
    rw [hcons, List.map_cons, List.cons.injEq, Prod.mk.injEq] at hout
    obtain ⟨⟨hpending, hfreed⟩, -⟩ := hout
    rw [hpending, HashMap.get?_insert]
    split
    case isTrue hi =>
      subst hi
      rw [hfreed]
      refine ⟨fun _ _ => List.not_mem_nil, ?_⟩
      rintro u p ⟨⟩ ⟨⟩
      exact fun h => absurd (hraw.symm.trans h) (by decide)
    case isFalse =>
      refine ⟨fun f hf => absurd hf List.not_mem_nil, ?_⟩
      rintro u p ⟨⟩

/-- Two flushers without a change between them: the second one frees the block of the pointer
that is stored. -/
theorem block_freed_by_second_flusher : ((new (smallOptions 64) 0).toOption.bind fun store =>
    (Run.run (Session.step byteCodec) (ofStore store)
      [.put 0 [7], .createFlusher, .createFlusher, .executeFlusher .ascending,
        .executeFlusher .ascending]).map fun s =>
      (s.store.tracker.entries.content 0, s.store.bitmask.bits.content 0)) =
    some (some ⟨0, 0, 1⟩, false) := by
  decide +kernel

/-! ## Blocks that get lost

A block that is marked as used is to belong to a pointer that something refers to
(`Tight`). Puts and deletes keep this. A flusher keeps it as long as it frees the pointer in
the tracker file with which a deleted point started (`FreesStored`): `write_pending` frees
the stored pointer of a point only if it stores another one, and a delete puts the stored
pointer to those that are to be freed only if nothing newer is pending.
-/

/-- The flusher that is run frees the stored pointer of every point that it deletes. -/
def FreesStored (s : Session V) : Event V → Prop
  | .executeFlusher _ => ∀ o rest, s.outstanding = o :: rest →
      o.flusher.generation = s.store.generation →
      ∀ i u p, o.flusher.pendingUpdates.get? i = some u → u.current = none →
        s.store.tracker.entries.content i = some p → p ∈ u.toFree
  | _ => True

/-- The store is not opened anew. -/
def StaysOpen : Event V → Prop
  | .reopen => False
  | _ => True

/-- Every block in use belongs to a pointer that is owned. -/
def Tight (s : Session V) : Prop :=
  ∀ block, s.store.bitmask.bits.content block = true →
    ∃ i p, (s.slot i).Owned p ∧ p.Covers s.store.config block

theorem Tight.afterPut (h : s.Tight) (hinv : s.Inv codec) {i : Nat} {p : ValuePointer} {value : V}
    {t : Gridstore} (hput : s.store.Put (codec.encode s.store.config value) p t) :
    (s.afterPut t i p value).Tight := by
  intro block hblock
  have hconfig : (s.afterPut t i p value).store.config = s.store.config := hput.config
  have hbits : t.bitmask.bits.content block = true := hblock
  rw [hput.bits] at hbits
  rw [hconfig]
  split at hbits
  case isTrue hcovers => exact ⟨i, p, (hinv.owned_afterPut hput i p).mpr (.inr ⟨rfl, rfl⟩), hcovers⟩
  case isFalse =>
    obtain ⟨j, q, hq, hcovers⟩ := h block hbits
    exact ⟨j, q, (hinv.owned_afterPut hput j q).mpr (.inl hq), hcovers⟩

/-- A flusher frees everything that it makes the points give up. -/
theorem Tight.afterFlusher (h : s.Tight) (hinv : s.Inv codec) {o : Outstanding V}
    {rest : List (Outstanding V)} {t : Gridstore} (hout : s.outstanding = o :: rest)
    (hgeneration : o.flusher.generation = s.store.generation)
    (ht : s.store.FlushedBy o.flusher.pendingUpdates t)
    (hflush : ∀ i, (s.slot i).Flushable ⟨o.flusher.pendingUpdates.get? i, o.freed i⟩)
    (hstored : ∀ i u p, o.flusher.pendingUpdates.get? i = some u → u.current = none →
      s.store.tracker.entries.content i = some p → p ∈ u.toFree) :
    (s.afterFlusher o rest t).Tight := by
  intro block hblock
  have hconfig : (s.afterFlusher o rest t).store.config = s.store.config := ht.config
  have hbits : t.bitmask.bits.content block = true := hblock
  rw [hconfig]
  have hnot : ¬ s.store.OldBlock o.flusher.pendingUpdates block := by
    intro hold
    rw [ht.bits_freed block hold] at hbits
    cases hbits
  rw [ht.bits block hnot] at hbits
  obtain ⟨i, p, hp, hcovers⟩ := h block hbits
  refine ⟨i, p, ?_, hcovers⟩
  rw [slot_afterFlusher ht]
  cases hu : o.flusher.pendingUpdates.get? i with
  | none =>
    exact hp
  | some u =>
    by_contra hlost
    have hcaptures := captures_eq hout hgeneration i
    have hflushi := hflush i
    rw [hu] at hcaptures hflushi
    have hfrees := (hinv.consistent i).frees hcaptures hflushi
    apply hnot
    refine ⟨p, ⟨i, u, hu, ?_⟩, hcovers⟩
    rcases hfrees.lost p hp hlost with hfreed | ⟨hnone, hraw⟩
    · exact hfreed
    · exact Slot.mem_freed.mpr (.inr (hstored i u p hu hnone hraw))

theorem Tight.step (h : s.Tight) (hinv : s.Inv codec) (hstored : s.FreesStored event)
    (hopen : StaysOpen event) (hstep : s.Steps codec event s') : s'.Tight := by
  cases hstep with
  | put _ hput => exact h.afterPut hinv hput
  | delete i =>
    intro block hblock
    obtain ⟨j, q, hq, hcovers⟩ := h block hblock
    exact ⟨j, q, (hinv.owned_afterDelete i j q).mpr hq, hcovers⟩
  | clear _ _ _ hbits =>
    intro block hblock
    rw [hbits] at hblock
    cases hblock
  | createFlusher =>
    intro block hblock
    obtain ⟨j, q, hq, hcovers⟩ := h block hblock
    exact ⟨j, q, (owned_withFlusher j q).mpr hq, hcovers⟩
  | executeFlusher hout hgeneration ht hflush =>
    exact h.afterFlusher hinv hout hgeneration ht hflush (hstored _ _ hout hgeneration)
  | cancelled _ => exact h
  | dropFlusher k => exact h
  | reopen => exact hopen.elim

/-- The conditions on the events of a session that loses no blocks. -/
def Leakless (codec : Codec V) (s : Session V) (event : Event V) : Prop :=
  s.OneFlusher event ∧ StaysOpen event ∧ s.Admissible codec event ∧ s.FreesStored event

theorem step_leakless (h : s.Inv codec ∧ s.Single ∧ s.Tight) (hevent : s.Leakless codec event) :
    ∃ s', s.step codec event = some s' ∧ s'.Inv codec ∧ s'.Single ∧ s'.Tight := by
  obtain ⟨hinv, hsingle, htight⟩ := h
  obtain ⟨hone, hopen, hadmissible, hstored⟩ := hevent
  obtain ⟨s', heq, hstep, hinv', hsingle'⟩ := hsingle.exists_step hinv hone hadmissible
  exact ⟨s', heq, hinv', hsingle', htight.step hinv hstored hopen hstep⟩

/-- A flusher that is run right after its creation leaves nothing pending. -/
theorem pending_afterFlusher {order : IterOrder Nat} (hinv : s.Inv codec) (hsingle : s.Single)
    (hout : s.outstanding = [])
    (hstep : s.withFlusher.step codec (.executeFlusher order) = some s') (i : Nat) :
    (s'.slot i).pending = none := by
  have hinv' := hinv.withFlusher
  have hsingle' : s.withFlusher.Single := hsingle.step hinv (show s.OneFlusher .createFlusher from hout) .createFlusher
  have hout' : s.withFlusher.outstanding = [⟨s.store.flusher, s.contents, fun _ => []⟩] := by
    rw [withFlusher, hout]
    rfl
  have hspec := hinv'.step_executeFlusher (hsingle'.canFlush (.executeFlusher order)) hout'
  have hgeneration : s.store.flusher.generation = s.withFlusher.store.generation := rfl
  rw [if_pos hgeneration] at hspec
  obtain ⟨t, ht, heq⟩ := hspec
  rw [heq, Option.some.injEq] at hstep
  subst hstep
  rw [slot_afterFlusher ht, slot_withFlusher]
  change afterFlush (s.slot i).pending (s.slot i).pending = none
  cases (s.slot i).pending with
  | none => rfl
  | some u =>
    rw [afterFlush, drained, PointerUpdates.drainPersisted, if_pos rfl]
    rfl

/-- After a flush without later changes, the blocks in use are exactly those of the pointers in
the tracker file. -/
theorem used_iff_stored {options : StorageOptions} {config : StorageConfig} {store : Gridstore}
    (hconfig : StorageConfig.tryFrom options = .ok config) (hwords : config.WholeWords)
    (hnew : new options 0 = .ok store) {events : List (Event V)} {order : IterOrder Nat}
    (hguard : Run.Guarded (Session.step codec) (Leakless codec) (ofStore store)
      (events ++ [.createFlusher, .executeFlusher order])) :
    ∃ s, Run.run (Session.step codec) (ofStore store)
        (events ++ [.createFlusher, .executeFlusher order]) = some s ∧
      ∀ block, s.store.bitmask.bits.content block = true ↔
        ∃ i p, s.store.tracker.entries.content i = some p ∧ p.Covers s.store.config block := by
  obtain ⟨store', hnew', hvalid, _, _, htracker, hbits, _⟩ := new_eq 0 hconfig hwords
  rw [hnew, Except.ok.injEq] at hnew'
  subst hnew'
  have hinit : (ofStore store : Session V).Inv codec ∧ (ofStore store : Session V).Single ∧
      (ofStore store : Session V).Tight := by
    refine ⟨inv_of_new hvalid htracker (fun o ho => absurd ho List.not_mem_nil) rfl rfl,
      single_of_nil rfl, fun block hblock => ?_⟩
    dsimp only [ofStore] at hblock
    rw [hbits] at hblock
    cases hblock
  obtain ⟨s, hrun, hinv, _, htight⟩ := Run.run_total (fun _ _ h => step_leakless h) hguard hinit
  refine ⟨s, hrun, ?_⟩
  -- The run goes through the state before the last flusher was created.
  rw [Run.run_append] at hrun
  obtain ⟨s₁, hrun₁, hlast⟩ := Option.bind_eq_some_iff.mp hrun
  obtain ⟨hguard₁, hguard₂⟩ := (Run.guarded_append hrun₁).mp hguard
  obtain ⟨_, hrun₁', hinv₁, hsingle₁, _⟩ := Run.run_total (fun _ _ h => step_leakless h) hguard₁ hinit
  rw [hrun₁, Option.some.injEq] at hrun₁'
  subst hrun₁'
  obtain ⟨s₂, hcreate, hlast⟩ := Run.run_cons_eq_some.mp hlast
  obtain ⟨s₃, hexecute, hlast⟩ := Run.run_cons_eq_some.mp hlast
  cases hlast
  cases hcreate
  have hpending := pending_afterFlusher hinv₁ hsingle₁ hguard₂.1.1 hexecute
  have howned : ∀ i p, (s.slot i).Owned p ↔ (s.slot i).raw = some p := by
    intro i p
    rw [Slot.Owned, Slot.live, hpending]
    simp [seen, waiting]
  intro block
  constructor
  · intro hblock
    obtain ⟨i, p, hp, hcovers⟩ := htight block hblock
    exact ⟨i, p, (howned i p).mp hp, hcovers⟩
  · rintro ⟨i, p, hp, hcovers⟩
    exact hinv.keeps.used i p (.inl hp) block hcovers

/-- A flushed value is deleted, and the next flush frees its block. -/
theorem used_iff_stored_of_delete : ∃ s, Run.run (Session.step byteCodec) (ofStore smallStore)
        ([.put 0 [7], .createFlusher, .executeFlusher .ascending, .delete 0] ++
          [.createFlusher, .executeFlusher .ascending]) = some s ∧
      ∀ block, s.store.bitmask.bits.content block = true ↔
        ∃ i p, s.store.tracker.entries.content i = some p ∧ p.Covers s.store.config block := by
  obtain ⟨s, hrun, hout, hpending, hraw⟩ : ∃ s ∈ Run.run (Session.step byteCodec) (ofStore smallStore)
      [.put 0 [7], .createFlusher, .executeFlusher .ascending, .delete 0],
      s.outstanding.isEmpty ∧
      s.store.tracker.pendingUpdates = HashMap.insert ∅ 0 ⟨none, [⟨0, 0, 1⟩]⟩ ∧
      s.store.tracker.entries.content 0 = some ⟨0, 0, 1⟩ := by decide +kernel
  rw [List.isEmpty_iff] at hout
  refine used_iff_stored (show StorageConfig.tryFrom (smallOptions 64) = _ from rfl) (by decide) rfl
    ((Run.guarded_append hrun).mpr ⟨?_, ?_⟩)
  · apply Run.Guarded.cons ⟨trivial, trivial, ⟨⟨by decide, by decide, by decide⟩, by decide⟩, trivial⟩ rfl
    apply Run.Guarded.cons ⟨rfl, trivial, trivial, trivial⟩ rfl
    refine .cons_of_forall ⟨List.cons_ne_nil _ _, trivial, trivial, ?_⟩
      fun _ _ => .single ⟨trivial, trivial, trivial, trivial⟩
    -- The tracker file is still empty.
    intro o rest _ _ i u p _ _ hraw
    have hnone : (none : Option ValuePointer) = some p := hraw
    cases hnone
  · refine .cons ⟨hout, trivial, trivial, trivial⟩ rfl (.single
      ⟨List.concat_ne_nil _ _, trivial, trivial, ?_⟩)
    intro o rest hcons _ i u p hu _ hp
    rw [hout] at hcons
    obtain ⟨rfl, -⟩ := List.cons.inj hcons
    have hget : s.store.tracker.pendingUpdates.get? i = some u := hu
    rw [hpending, HashMap.get?_insert] at hget
    split at hget
    case isTrue hi =>
      subst hi
      cases hget
      rw [Option.some.inj (hp.symm.trans hraw)]
      exact List.mem_singleton_self _
    case isFalse => cases hget

/-- A flushed value is overwritten and deleted before the next flush: its block stays in use
with nothing in the tracker. -/
theorem block_lost_after_overwrite_delete : ((new (smallOptions 64) 0).toOption.bind fun store =>
    (Run.run (Session.step byteCodec) (ofStore store)
      [.put 0 [7], .createFlusher, .executeFlusher .ascending, .put 0 [8], .delete 0, .createFlusher,
        .executeFlusher .ascending]).map fun s =>
      (s.store.tracker.entries.content 0, s.store.bitmask.bits.content 0)) = some (none, true) := by
  decide +kernel

end Session

end Qdrant.Gridstore
