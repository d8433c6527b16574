-- SUMMARY: Buffered flags, whose flushers persist the changes that were pending at their creation.
import Mathlib.Data.List.SplitBy
import Mathlib.Order.Lattice.Nat
import Qdrant.Base.HashMap
import Qdrant.Base.Run

/-!
# Buffered flags

Changes of flags are buffered. A flusher holds a copy of the buffer; when it is run, it
persists the copy and removes from the buffer what still has the value that it persisted
(`buffered_dynamic_flags.rs`, and in the same way `mmap_bitslice_buffered_update_wrapper.rs`).
This loses nothing if flushers do not overlap. With two of them, a value that was changed back
is removed by the first one although the second one persists the value in between.

The flags grow and are set bit by bit. The wrapper has a file of fixed size, of which it rewrites
runs of whole words (`stored_bitslice.rs`); this sets the same bits.
-/

namespace Qdrant

structure RoaringFlags where
  storage : List Bool
  buffer : HashMap Nat Bool
  /-- The updates of the flushers that have not been run, in the order of their creation. -/
  flushers : List (HashMap Nat Bool)
  bitmap : Nat → Bool
  len : Nat

namespace RoaringFlags

inductive Event where
  | set (index : Nat) (value : Bool)
  | createFlusher
  | runFlusher

def new (storage : List Bool) : RoaringFlags :=
  ⟨storage, ∅, [], (storage.getD · false), storage.length⟩

/-- `get` of the wrapper, which has no bitmap. -/
def bufferedGet (s : RoaringFlags) (index : Nat) : Bool :=
  (s.buffer.get? index).getD (s.storage.getD index false)

def requiredLen (updates : HashMap Nat Bool) : Nat := updates.keys.sup (· + 1)

/-- The updates in ascending order. The flags take them in the order of the hash map, which makes
no difference: there is one value for each index. -/
def ascendingUpdates (updates : HashMap Nat Bool) : List (Nat × Bool) :=
  (IterOrder.ascending.walk updates.keys).map fun i => (i, (updates.get? i).getD false)

def setBits (bits : List Bool) (updates : List (Nat × Bool)) : List Bool :=
  updates.foldl (fun bits update => bits.set update.1 update.2) bits

def persist (storage : List Bool) (updates : HashMap Nat Bool) : List Bool :=
  setBits (storage ++ .replicate (requiredLen updates - storage.length) false) (ascendingUpdates updates)

def reconcilePersistedBuffer (buffer persisted : HashMap Nat Bool) : HashMap Nat Bool :=
  buffer.retain fun index value => persisted.get? index != some value

def lastValue (index : Nat) (value : Bool) : Event → Bool
  | .set i v => if i = index then v else value
  | _ => value

def highest (len : Nat) : Event → Nat
  | .set i _ => max len (i + 1)
  | _ => len

def step (s : RoaringFlags) (event : Event) : Option RoaringFlags :=
  match event, s.flushers with
  | .set index value, _ => some { s with
      buffer := s.buffer.insert index value
      bitmap := fun i => lastValue i (s.bitmap i) event
      len := highest s.len event }
  | .createFlusher, flushers => some { s with flushers := flushers ++ [s.buffer] }
  | .runFlusher, [] => none
  | .runFlusher, updates :: rest => some { s with
      storage := persist s.storage updates
      buffer := reconcilePersistedBuffer s.buffer updates
      flushers := rest }

/-- No flusher is created before the last one has been run. -/
def Alone (s : RoaringFlags) : Event → Prop
  | .createFlusher => s.flushers = []
  | _ => True

variable {s s' : RoaringFlags} {buffer updates : HashMap Nat Bool}

theorem requiredLen_le {n : Nat} : requiredLen updates ≤ n ↔ ∀ i v, updates.get? i = some v → i < n := by
  simp only [requiredLen, Finset.sup_le_iff, HashMap.mem_keys_iff]
  constructor
  · exact fun h i v hv => h i ⟨v, hv⟩
  · rintro h i ⟨v, hv⟩
    exact h i v hv

@[simp] theorem length_setBits (bits : List Bool) (l : List (Nat × Bool)) :
    (setBits bits l).length = bits.length := by
  induction l generalizing bits with
  | nil => rfl
  | cons update l ih => exact (ih _).trans List.length_set

theorem length_persist (storage : List Bool) :
    (persist storage updates).length = max storage.length (requiredLen updates) := by
  simp only [persist, length_setBits, List.length_append, List.length_replicate]
  omega

theorem getD_setBits_of_notMem {bits : List Bool} {l : List (Nat × Bool)} {i : Nat}
    (hi : i ∉ l.map Prod.fst) : (setBits bits l).getD i false = bits.getD i false := by
  induction l generalizing bits with
  | nil => rfl
  | cons update l ih =>
    rw [List.map_cons, List.mem_cons, not_or] at hi
    refine (ih hi.2).trans ?_
    rw [List.getD_eq_getElem?_getD, List.getElem?_set_ne (Ne.symm hi.1), List.getD_eq_getElem?_getD]

theorem getD_setBits_of_mem {bits : List Bool} {l : List (Nat × Bool)} {i : Nat} {v : Bool}
    (hnodup : (l.map Prod.fst).Nodup) (hmem : (i, v) ∈ l) (hlt : i < bits.length) :
    (setBits bits l).getD i false = v := by
  induction l generalizing bits with
  | nil => cases hmem
  | cons update l ih =>
    rw [List.map_cons, List.nodup_cons] at hnodup
    rcases List.mem_cons.mp hmem with rfl | hmem
    · refine (getD_setBits_of_notMem hnodup.1).trans ?_
      rw [List.getD_eq_getElem?_getD, List.getElem?_set_self hlt]
      rfl
    · exact ih hnodup.2 hmem (by rwa [List.length_set])

theorem map_fst_ascendingUpdates :
    (ascendingUpdates updates).map Prod.fst = IterOrder.ascending.walk updates.keys := by
  rw [ascendingUpdates, List.map_map]
  exact List.map_id _

theorem lt_requiredLen {i : Nat} (hi : i ∈ (ascendingUpdates updates).map Prod.fst) :
    i < requiredLen updates := by
  rw [map_fst_ascendingUpdates, IterOrder.mem_walk, HashMap.mem_keys_iff] at hi
  obtain ⟨v, hv⟩ := hi
  exact requiredLen_le.mp le_rfl i v hv

theorem getD_persist (storage : List Bool) (i : Nat) :
    (persist storage updates).getD i false = (updates.get? i).getD (storage.getD i false) := by
  cases hu : updates.get? i with
  | some v =>
    have hkey := HashMap.mem_keys_iff.mpr ⟨v, hu⟩
    have hlt := requiredLen_le.mp (le_refl (requiredLen updates)) i v hu
    refine getD_setBits_of_mem ?_ (List.mem_map.mpr ⟨i, (IterOrder.mem_walk _ _ _).mpr hkey, ?_⟩) ?_
    · rw [map_fst_ascendingUpdates]
      exact IterOrder.nodup _ _
    · rw [hu]
      rfl
    · rw [List.length_append, List.length_replicate]
      omega
  | none =>
    refine (getD_setBits_of_notMem ?_).trans ?_
    · rwa [map_fst_ascendingUpdates, IterOrder.mem_walk, HashMap.notMem_keys_iff]
    · simp only [List.getD_eq_getElem?_getD]
      grind

/-! ## Runs of words -/

def elementIdx (bitIdx : Nat) : Nat := bitIdx / 64

/-- `UniversalIoError::OutOfBounds` -/
structure OutOfBounds where
  start : Nat
  stop : Nat
  elements : Nat
  deriving DecidableEq

/-- One run of `set_ascending_bits_batch`: its elements are read, changed and written back. -/
def writeRun (bits : List Bool) (run : List (Nat × Bool)) : Except OutOfBounds (List Bool) :=
  let elementStart := elementIdx (run.head?.elim 0 Prod.fst)
  let stop := elementIdx (run.getLast?.elim 0 Prod.fst) + 1
  if elementIdx bits.length < stop then .error ⟨elementStart, stop, elementIdx bits.length⟩ else
    let buf := (bits.drop (64 * elementStart)).take (64 * (stop - elementStart))
    let buf := setBits buf (run.map fun update => (update.1 - 64 * elementStart, update.2))
    .ok (bits.take (64 * elementStart) ++ buf ++ bits.drop (64 * stop))

/-- The bits are those of `u64` elements. A new run starts where the element jumps by more than one. -/
def setAscendingBitsBatch (bits : List Bool) (updates : List (Nat × Bool)) :
    Except OutOfBounds (List Bool) :=
  (updates.splitBy fun a b => elementIdx b.1 ≤ elementIdx a.1 + 1).foldlM writeRun bits

/-- Setting bits of a part of the list, from `start` on. -/
theorem setBits_append (front buf back : List Bool) {l : List (Nat × Bool)}
    (hl : ∀ update ∈ l, front.length ≤ update.1 ∧ update.1 < front.length + buf.length) :
    front ++ setBits buf (l.map fun update => (update.1 - front.length, update.2)) ++ back =
      setBits (front ++ buf ++ back) l := by
  induction l generalizing buf with
  | nil => rfl
  | cons update l ih =>
    obtain ⟨hhead, hrest⟩ := List.forall_mem_cons.mp hl
    have hset : (front ++ buf ++ back).set update.1 update.2 =
        front ++ buf.set (update.1 - front.length) update.2 ++ back := by
      rw [List.set_append_left _ _ (by rw [List.length_append]; exact hhead.2),
        List.set_append_right _ _ hhead.1]
    have hih := ih (buf.set (update.1 - front.length) update.2)
      (fun u hu => by rw [List.length_set]; exact hrest u hu)
    rw [← hset] at hih
    exact hih

theorem writeRun_eq {bits : List Bool} {run : List (Nat × Bool)} (hne : run ≠ [])
    (hsorted : run.Pairwise (·.1 ≤ ·.1)) (hbound : ∀ update ∈ run, update.1 < bits.length)
    (hwords : 64 ∣ bits.length) : writeRun bits run = .ok (setBits bits run) := by
  have : Std.Refl fun a b : Nat × Bool => a.1 ≤ b.1 := ⟨fun _ => le_rfl⟩
  have hfirst : ∀ update ∈ run, (run.head hne).1 ≤ update.1 := fun _ hu => hsorted.rel_head hu
  have hlast : ∀ update ∈ run, update.1 ≤ (run.getLast hne).1 := fun _ hu => hsorted.rel_getLast hu
  have hlt := hbound _ (List.getLast_mem hne)
  have hle := hfirst _ (List.getLast_mem hne)
  simp only [writeRun, List.head?_eq_some_head hne, List.getLast?_eq_some_getLast hne, Option.elim_some,
    elementIdx]
  generalize (run.head hne).1 = first, (run.getLast hne).1 = last at hfirst hlast hlt hle
  have hfront : (bits.take (64 * (first / 64))).length = 64 * (first / 64) := by
    rw [List.length_take]
    omega
  have hbuf : ((bits.drop (64 * (first / 64))).take (64 * (last / 64 + 1 - first / 64))).length =
      64 * (last / 64 + 1 - first / 64) := by
    rw [List.length_take, List.length_drop]
    omega
  have hsplit := setBits_append (bits.take (64 * (first / 64)))
    ((bits.drop (64 * (first / 64))).take (64 * (last / 64 + 1 - first / 64)))
    (bits.drop (64 * (last / 64 + 1))) (l := run) fun update hu => by
      have := hfirst update hu
      have := hlast update hu
      omega
  have hjoin : bits.take (64 * (first / 64)) ++
      (bits.drop (64 * (first / 64))).take (64 * (last / 64 + 1 - first / 64)) ++
      bits.drop (64 * (last / 64 + 1)) = bits := by
    have hdrop : bits.drop (64 * (last / 64 + 1)) =
        (bits.drop (64 * (first / 64))).drop (64 * (last / 64 + 1 - first / 64)) := by
      rw [List.drop_drop]
      congr 1
      omega
    rw [hdrop, List.append_assoc, List.take_append_drop, List.take_append_drop]
  rw [if_neg (by omega)]
  rw [hfront, hjoin] at hsplit
  rw [hsplit]

theorem foldlM_writeRun {bits : List Bool} {runs : List (List (Nat × Bool))} (hne : [] ∉ runs)
    (hsorted : runs.flatten.Pairwise (·.1 ≤ ·.1))
    (hbound : ∀ update ∈ runs.flatten, update.1 < bits.length) (hwords : 64 ∣ bits.length) :
    runs.foldlM writeRun bits = .ok (setBits bits runs.flatten) := by
  induction runs generalizing bits with
  | nil => rfl
  | cons run runs ih =>
    rw [List.mem_cons, not_or] at hne
    rw [List.flatten_cons] at hsorted hbound ⊢
    obtain ⟨hrun, hrest, -⟩ := List.pairwise_append.mp hsorted
    rw [List.forall_mem_append] at hbound
    rw [List.foldlM_cons, writeRun_eq (Ne.symm hne.1) hrun hbound.1 hwords]
    refine (ih hne.2 hrest (by simpa only [length_setBits] using hbound.2) ?_).trans ?_
    · rwa [length_setBits]
    · rw [setBits, setBits, setBits, List.foldl_append]

/-- Rewriting runs of words sets the bits of the updates and no others. -/
theorem setAscendingBitsBatch_eq {bits : List Bool} (hwords : 64 ∣ bits.length)
    (hlen : requiredLen updates ≤ bits.length) :
    setAscendingBitsBatch bits (ascendingUpdates updates) = .ok (persist bits updates) := by
  have hsorted : (ascendingUpdates updates).Pairwise (·.1 ≤ ·.1) := by
    rw [← List.pairwise_map, map_fst_ascendingUpdates]
    exact IterOrder.pairwise_walk_ascending _
  have hpersist : persist bits updates = setBits bits (ascendingUpdates updates) := by
    rw [persist, Nat.sub_eq_zero_of_le hlen, List.replicate_zero, List.append_nil]
  rw [setAscendingBitsBatch, foldlM_writeRun (List.nil_notMem_splitBy _ _) ?_ ?_ hwords, hpersist] <;>
    rw [List.flatten_splitBy]
  · exact hsorted
  · exact fun _ hu => (lt_requiredLen (List.mem_map_of_mem hu)).trans_le hlen

theorem get?_reconcile {i : Nat} {v : Bool} :
    (reconcilePersistedBuffer buffer updates).get? i = some v ↔
      buffer.get? i = some v ∧ updates.get? i ≠ some v := by
  simp [reconcilePersistedBuffer, Option.filter_eq_some_iff]

structure Inv (s : RoaringFlags) : Prop where
  single : s.flushers.length ≤ 1
  buffered : ∀ i v, s.buffer.get? i = some v → v = s.bitmap i ∧ i < s.len
  stored : ∀ i, s.buffer.get? i = none → s.storage.getD i false = s.bitmap i
  flushed : ∀ updates ∈ s.flushers, ∀ i v, updates.get? i = some v →
    i < s.len ∧ (s.buffer.get? i = none → v = s.bitmap i)
  length_le : s.storage.length ≤ s.len
  le_length : ∀ n, s.storage.length ≤ n → (∀ i v, s.buffer.get? i = some v → i < n) → s.len ≤ n

theorem Inv.step {event : Event} (h : s.Inv) (halone : s.Alone event) (hstep : s.step event = some s') :
    s'.Inv := by
  obtain ⟨hsingle, hbuffered, hstored, hflushed, hlength, hle⟩ := h
  unfold RoaringFlags.step at hstep
  split at hstep
  · next _ index value =>
    cases hstep
    have hself : (s.buffer.insert index value).get? index = some value := by simp
    constructor <;> grind [HashMap.get?_insert, lastValue, highest]
  · next hf =>
    cases hstep
    have hempty : s.flushers = [] := halone
    constructor <;> grind
  · cases hstep
  · next updates rest hf =>
    cases hstep
    obtain rfl : rest = [] := by simpa [hf] using hsingle
    have hmem : updates ∈ s.flushers := hf ▸ List.mem_cons_self
    refine ⟨by simp, fun i v hv => hbuffered i v (get?_reconcile.mp hv).1, fun i hi => ?_, by simp, ?_,
      fun n hn hkept => ?_⟩
    · rw [getD_persist]
      cases hb : s.buffer.get? i with
      | none =>
        cases hu : updates.get? i with
        | none => exact hstored i hb
        | some v => exact (hflushed updates hmem i v hu).2 hb
      | some v =>
        have hu : updates.get? i = some v := by simpa [reconcilePersistedBuffer, hb] using hi
        rw [hu]
        exact (hbuffered i v hb).1
    · rw [length_persist]
      exact max_le hlength (requiredLen_le.mpr fun i v hv => (hflushed updates hmem i v hv).1)
    · rw [length_persist, max_le_iff] at hn
      refine hle n hn.1 fun i v hv => ?_
      by_cases hu : updates.get? i = some v
      · exact requiredLen_le.mp hn.2 i v hu
      · exact hkept i v (get?_reconcile.mpr ⟨hv, hu⟩)

theorem visible_of_run {events : List Event} (hrun : Run.run step s events = some s') :
    (∀ i, s'.bitmap i = events.foldl (lastValue i) (s.bitmap i)) ∧
      s'.len = events.foldl highest s.len := by
  induction events generalizing s with
  | nil => cases hrun; exact ⟨fun _ => rfl, rfl⟩
  | cons event events ih =>
    obtain ⟨t, ht, hrest⟩ := Run.run_cons_eq_some.mp hrun
    obtain ⟨hbitmap, hlen⟩ := ih hrest
    have hstep : (∀ i, t.bitmap i = lastValue i (s.bitmap i) event) ∧ t.len = highest s.len event := by
      unfold step at ht
      split at ht <;> cases ht <;> exact ⟨fun _ => rfl, rfl⟩
    exact ⟨fun i => by rw [hbitmap, hstep.1]; rfl, by rw [hlen, hstep.2]; rfl⟩

/-- If flushers do not overlap, the last value that was set is visible, and a flusher that is
created after it persists it. The wrapper's flusher, on a file that has all bits, does the same to it. -/
theorem flags_kept {storage : List Bool} {events : List Event}
    (hguard : Run.Guarded step Alone (new storage) events)
    (hrun : Run.run step (new storage) events = some s) :
    (∀ i, s.bitmap i = events.foldl (lastValue i) (storage.getD i false)) ∧
      s.bufferedGet = s.bitmap ∧ s.len = events.foldl highest storage.length ∧
      (∀ before, events = before ++ [.createFlusher, .runFlusher] →
        s.storage.length = s.len ∧ ∀ i, s.storage.getD i false = s.bitmap i) ∧
      (∀ updates i, updates.get? i = none →
        (persist s.storage updates).getD i false = s.storage.getD i false) ∧
      ∀ updates, 64 ∣ s.storage.length → requiredLen updates ≤ s.storage.length →
        setAscendingBitsBatch s.storage (ascendingUpdates updates) = .ok (persist s.storage updates) := by
  have h : s.Inv := Run.run_invariant (fun _ _ _ h => h.step) hrun hguard
    (by constructor <;> simp [new])
  obtain ⟨hbitmap, hlen⟩ := visible_of_run hrun
  refine ⟨hbitmap, funext fun i => ?_, hlen, ?_, fun updates i hnone => ?_,
    fun _ => setAscendingBitsBatch_eq⟩
  · cases hb : s.buffer.get? i with
    | none => simpa [bufferedGet, hb] using h.stored i hb
    | some v => simpa [bufferedGet, hb] using (h.buffered i v hb).1
  · rintro before rfl
    rw [Run.run_append, Option.bind_eq_some_iff] at hrun
    obtain ⟨t, ht, hrest⟩ := hrun
    have halone : t.flushers = [] := ((Run.guarded_append ht).mp hguard).2.1
    simp only [Run.run, step, halone, List.nil_append, Option.bind_some, Option.some.injEq] at hrest
    have hempty : ∀ i, s.buffer.get? i = none := fun i => by
      subst hrest
      cases hb : t.buffer.get? i <;> simp [reconcilePersistedBuffer, hb]
    exact ⟨h.length_le.antisymm (h.le_length _ le_rfl (by simp [hempty])), fun i => h.stored i (hempty i)⟩
  · rw [getD_persist, hnone]
    rfl

theorem flags_kept_by_one_flusher :
    ∃ s, Run.run step (new []) [.set 1 true, .createFlusher, .runFlusher] = some s ∧
      s.storage.length = s.len := by
  refine ⟨_, rfl, ((flags_kept ?_ rfl).2.2.2.1 [.set 1 true] rfl).1⟩
  exact .cons trivial rfl (.cons rfl rfl (.cons trivial rfl trivial))

/-- The value is changed back while two flushers wait. -/
theorem value_lost_by_two_flushers :
    (Run.run step (new []) [.set 0 true, .createFlusher, .set 0 false, .createFlusher, .set 0 true,
      .runFlusher, .runFlusher, .createFlusher, .runFlusher]).map
      (fun s => (s.bitmap 0, s.bufferedGet 0, s.storage)) = some (true, false, [false]) := by
  decide +kernel

end RoaringFlags

end Qdrant
