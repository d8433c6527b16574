-- SUMMARY: Finite maps without an observable order, standing for the hash maps of the source.
import Mathlib.Data.Finmap
import Mathlib.Data.List.Sort
import Mathlib.Data.Multiset.Filter

/-!
# Hash maps

A hash map is Mathlib's `Finmap`: two maps are equal when they have the same
entries, so no definition can read an iteration order off the map. Code whose
result does depend on the order in which a map is walked takes that order as an
argument. Everything is described by what `get?` returns.
-/

universe u v w

/-- A hash map from `K` to `V`. -/
abbrev HashMap (K : Type u) (V : Type v) := Finmap (fun _ : K => V)

namespace HashMap

variable {K : Type u} {V : Type v} {W : Type w}

/-- Change every value and keep the keys. -/
def mapVal (f : K → V → W) (m : HashMap K V) : HashMap K W where
  entries := m.entries.map fun e => ⟨e.1, f e.1 e.2⟩
  nodupKeys := by
    rw [← Multiset.nodup_keys, Multiset.keys, Multiset.map_map]
    exact Multiset.nodup_keys.mpr m.nodupKeys

/-- Keep the entries that satisfy `p`. -/
def retain (p : K → V → Bool) (m : HashMap K V) : HashMap K V where
  entries := m.entries.filter fun e => p e.1 e.2
  nodupKeys := by
    rw [← Multiset.nodup_keys]
    exact Multiset.nodup_of_le (Multiset.map_le_map (Multiset.filter_le _ _))
      (Multiset.nodup_keys.mpr m.nodupKeys)

theorem keys_filterMap_le (f : K → V → Option W) (entries : Multiset (Sigma fun _ : K => V)) :
    Multiset.keys (entries.filterMap fun e => (f e.1 e.2).map (Sigma.mk (β := fun _ => W) e.1)) ≤
      entries.keys := by
  induction entries using Multiset.induction_on with
  | empty => exact le_refl _
  | cons e entries ih =>
    rw [Multiset.keys_cons]
    cases hf : f e.1 e.2 with
    | none =>
      rw [Multiset.filterMap_cons_none _ _ (by rw [hf]; rfl)]
      exact ih.trans (Multiset.le_cons_self _ _)
    | some w =>
      rw [Multiset.filterMap_cons_some (b := ⟨e.1, w⟩) _ _ _ (by rw [hf]; rfl), Multiset.keys_cons]
      exact Multiset.cons_le_cons _ ih

/-- Change every value, or drop its entry. -/
def filterMap (f : K → V → Option W) (m : HashMap K V) : HashMap K W where
  entries := m.entries.filterMap fun e => (f e.1 e.2).map (Sigma.mk e.1)
  nodupKeys := Multiset.nodup_keys.mp
    (Multiset.nodup_of_le (keys_filterMap_le f m.entries) (Multiset.nodup_keys.mpr m.nodupKeys))

/-- Whether the map has no entry. -/
def isEmpty (m : HashMap K V) : Bool :=
  decide (m.entries.card = 0)

/-- Whether some entry satisfies `p`. -/
def any (p : K → V → Bool) (m : HashMap K V) : Bool :=
  !(m.retain p).isEmpty

variable [DecidableEq K]

/-- The value of a key. -/
def get? (m : HashMap K V) (k : K) : Option V :=
  Finmap.lookup k m

/-- Set the value of a key. -/
def insert (m : HashMap K V) (k : K) (v : V) : HashMap K V :=
  Finmap.insert k v m

/-- Remove a key. -/
def erase (m : HashMap K V) (k : K) : HashMap K V :=
  Finmap.erase k m

/-- All entries of `m`, and those of `m'` for the keys `m` does not have. -/
def union (m m' : HashMap K V) : HashMap K V :=
  m ∪ m'

/-- Apply to the value of every key the change that `changes` has for it. -/
def overlay {C : Type w} (apply : C → Option V → Option V) (m : HashMap K V)
    (changes : HashMap K C) : HashMap K V :=
  (changes.filterMap fun k c => apply c (m.get? k)).union
    (m.retain fun k _ => (changes.get? k).isNone)

variable {m : HashMap K V}

theorem get?_eq_some_iff {k : K} {v : V} : m.get? k = some v ↔ ⟨k, v⟩ ∈ m.entries :=
  Finmap.lookup_eq_some_iff

@[ext] theorem ext {m' : HashMap K V} (h : ∀ k, m.get? k = m'.get? k) : m = m' :=
  Finmap.ext_lookup h

/-! ## What each operation does to `get?` -/

@[simp] theorem get?_empty (k : K) : (∅ : HashMap K V).get? k = none := Finmap.lookup_empty k

@[simp] theorem get?_mapVal (f : K → V → W) (m : HashMap K V) (k : K) :
    (m.mapVal f).get? k = (m.get? k).map (f k) := by
  ext w
  rw [get?_eq_some_iff, Option.map_eq_some_iff]
  simp only [mapVal, Multiset.mem_map, get?_eq_some_iff]
  constructor
  · rintro ⟨⟨k', v⟩, hmem, heq⟩
    cases heq
    exact ⟨v, hmem, rfl⟩
  · rintro ⟨v, hmem, rfl⟩
    exact ⟨⟨k, v⟩, hmem, rfl⟩

@[simp] theorem get?_retain (p : K → V → Bool) (m : HashMap K V) (k : K) :
    (m.retain p).get? k = (m.get? k).filter (p k) := by
  ext v
  rw [get?_eq_some_iff, Option.filter_eq_some_iff, get?_eq_some_iff]
  simp only [retain, Multiset.mem_filter]

@[simp] theorem get?_erase (m : HashMap K V) (k k' : K) :
    (m.erase k').get? k = if k = k' then none else m.get? k := by
  split
  · next h => rw [h]; exact Finmap.lookup_erase _ _
  · next h => exact Finmap.lookup_erase_ne h

@[simp] theorem get?_insert (m : HashMap K V) (k k' : K) (v : V) :
    (m.insert k' v).get? k = if k = k' then some v else m.get? k := by
  split
  · next h => rw [h]; exact Finmap.lookup_insert _
  · next h => exact Finmap.lookup_insert_of_ne _ h

@[simp] theorem get?_union (m m' : HashMap K V) (k : K) :
    (m.union m').get? k = (m.get? k).or (m'.get? k) := by
  by_cases hk : k ∈ m
  · obtain ⟨w, hw⟩ := Finmap.mem_iff.mp hk
    have hleft : (m.union m').get? k = m.get? k := Finmap.lookup_union_left hk
    have hsome : m.get? k = some w := hw
    rw [hleft, hsome, Option.some_or]
  · have hright : (m.union m').get? k = m'.get? k := Finmap.lookup_union_right hk
    have hnone : m.get? k = none := Finmap.lookup_eq_none.mpr hk
    rw [hright, hnone, Option.none_or]

@[simp] theorem get?_filterMap (f : K → V → Option W) (m : HashMap K V) (k : K) :
    (m.filterMap f).get? k = (m.get? k).bind (f k) := by
  ext w
  rw [get?_eq_some_iff, Option.bind_eq_some_iff]
  simp only [filterMap, Multiset.mem_filterMap, get?_eq_some_iff, Option.map_eq_some_iff]
  constructor
  · rintro ⟨⟨k', v⟩, hmem, w', hw, heq⟩
    cases heq
    exact ⟨v, hmem, hw⟩
  · rintro ⟨v, hmem, hw⟩
    exact ⟨⟨k, v⟩, hmem, w, hw, rfl⟩

theorem get?_overlay {C : Type w} (apply : C → Option V → Option V) (m : HashMap K V)
    (changes : HashMap K C) (k : K) :
    (m.overlay apply changes).get? k = match changes.get? k with
      | some c => apply c (m.get? k)
      | none => m.get? k := by
  unfold overlay
  rw [get?_union, get?_filterMap, get?_retain]
  cases changes.get? k with
  | none => cases m.get? k <;> rfl
  | some c => cases m.get? k <;> simp

/-- The last value of a key counts. -/
theorem insert_insert (m : HashMap K V) (k : K) (v w : V) :
    (m.insert k v).insert k w = m.insert k w := by
  ext k'
  rw [get?_insert, get?_insert, get?_insert]
  split <;> rfl

theorem insert_eq_self {k : K} {v : V} (h : m.get? k = some v) : m.insert k v = m := by
  ext k'
  rw [get?_insert]
  split
  · next heq => rw [heq, h]
  · rfl

/-! ## Emptiness and search -/

theorem isEmpty_iff : m.isEmpty = true ↔ ∀ k, m.get? k = none := by
  simp only [isEmpty, decide_eq_true_eq, Multiset.card_eq_zero]
  constructor
  · intro hm k
    cases hk : m.get? k with
    | none => rfl
    | some v =>
      rw [get?_eq_some_iff, hm] at hk
      cases Multiset.notMem_zero _ hk
  · intro hm
    refine Multiset.eq_zero_of_forall_notMem fun ⟨k, v⟩ hmem => ?_
    have hk := hm k
    rw [get?_eq_some_iff.mpr hmem] at hk
    cases hk

theorem isEmpty_eq_false : m.isEmpty = false ↔ ∃ k v, m.get? k = some v := by
  rw [← Bool.not_eq_true, isEmpty_iff]
  push Not
  simp only [Option.ne_none_iff_exists']

theorem any_eq_true {p : K → V → Bool} :
    m.any p = true ↔ ∃ k v, m.get? k = some v ∧ p k v = true := by
  rw [any, Bool.not_eq_true', isEmpty_eq_false]
  simp only [get?_retain, Option.filter_eq_some_iff]

theorem any_eq_false {p : K → V → Bool} :
    m.any p = false ↔ ∀ k v, m.get? k = some v → p k v = false := by
  rw [← Bool.not_eq_true, any_eq_true]
  push Not
  simp only [Bool.not_eq_true]

/-! ## Iteration order -/

/-- The entries are those of the keys that the map lists. -/
theorem mem_keys_iff {k : K} : k ∈ m.keys ↔ ∃ v, m.get? k = some v :=
  Finmap.mem_keys.trans Finmap.mem_iff

theorem notMem_keys_iff {k : K} : k ∉ m.keys ↔ m.get? k = none := by
  rw [mem_keys_iff, ← Option.isSome_iff_exists, Option.not_isSome_iff_eq_none]

theorem keys_insert (m : HashMap K V) (k : K) (v : V) :
    (m.insert k v).keys = Insert.insert k m.keys := by
  ext k'
  rw [mem_keys_iff, Finset.mem_insert, get?_insert, mem_keys_iff]
  by_cases heq : k' = k <;> simp [heq]

end HashMap

/-- An order in which sets of keys are walked: every key of the set exactly once. -/
structure IterOrder (K : Type u) where
  walk : Finset K → List K
  nodup : ∀ s, (walk s).Nodup
  mem_walk : ∀ s k, k ∈ walk s ↔ k ∈ s

/-- Ascending order. -/
def IterOrder.ascending {K : Type u} [LinearOrder K] : IterOrder K where
  walk s := Quot.liftOn s.val (List.insertionSort (· ≤ ·)) fun a b hperm =>
    List.Perm.eq_of_sortedLE List.sortedLE_insertionSort List.sortedLE_insertionSort
      (((List.perm_insertionSort (· ≤ ·) a).trans hperm).trans
        (List.perm_insertionSort (· ≤ ·) b).symm)
  nodup := by
    rintro ⟨⟨keys⟩, hnodup⟩
    exact (List.perm_insertionSort (· ≤ ·) keys).nodup_iff.mpr hnodup
  mem_walk := by
    rintro ⟨⟨keys⟩, hnodup⟩ k
    exact (List.perm_insertionSort (· ≤ ·) keys).mem_iff

namespace IterOrder

variable {K : Type u} [LinearOrder K]

theorem pairwise_walk_ascending (s : Finset K) : (ascending.walk s).Pairwise (· ≤ ·) := by
  obtain ⟨⟨keys⟩, hnodup⟩ := s
  exact List.pairwise_insertionSort (· ≤ ·) keys

end IterOrder
