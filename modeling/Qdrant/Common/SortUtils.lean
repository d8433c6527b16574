-- SUMMARY: In-place permutation of a list of values by the sorted order of their keys.
import Qdrant.Base.HashMap
import Mathlib.Data.List.Nodup
import Mathlib.Data.Finset.Card

/-!
# Sorting values by their keys

`sort_permutation` (`lib/common/common/src/sort_utils.rs`) sorts keys and then
moves the values to the positions of their keys by following the cycles of the
permutation in place.
-/

namespace Qdrant

open Finset

universe u v

/-- Swap two positions of a list. -/
def swap {α : Type u} (l : List α) (i j : Nat) : List α :=
  match l[i]?, l[j]? with
  | some a, some b => (l.set i b).set j a
  | _, _ => l

/-- Swap position `i` with its target until the right value has arrived there. Every
swap settles one position for good, so the number of positions is enough fuel. -/
def settle {V : Type u} (i : Nat) : Nat → List V × List Nat → List V × List Nat
  | 0, s => s
  | fuel + 1, (values, perm) =>
    match perm[i]? with
    | none => (values, perm)
    | some target =>
      if target = i then (values, perm)
      else settle i fuel (swap values i target, swap perm i target)

/-- The position of every key in the sorted order. -/
def keyToTargetIdx {T : Type u} [DecidableEq T] (sortedKeys : List T) : HashMap T Nat :=
  sortedKeys.zipIdx.foldl (fun m e => m.insert e.1 e.2) ∅

/-- Sort `values` in the order into which `sort` brings their keys. -/
def sortPermutation {T : Type u} {V : Type v} [DecidableEq T] (values : List V) (keys : List T)
    (sort : List T → List T) : List V :=
  if values.length ≤ 1 then values
  else
    let targets := keyToTargetIdx (sort keys)
    let perm := keys.map fun k => (targets.get? k).getD 0
    ((List.range perm.length).foldl (fun s i => settle i perm.length s) (values, perm)).1

/-! ## Swapping -/

section

variable {α : Type u} {β : Type v}
variable {l : List α}

theorem swap_of_lt {i j : Nat} (hi : i < l.length) (hj : j < l.length) :
    swap l i j = (l.set i l[j]).set j l[i] := by
  simp [swap, hi, hj]

theorem getElem?_swap {i j : Nat} (hi : i < l.length) (hj : j < l.length) (k : Nat) :
    (swap l i j)[k]? = if k = j then l[i]? else if k = i then l[j]? else l[k]? := by
  rw [swap_of_lt hi hj]
  grind

theorem length_swap {i j : Nat} (hi : i < l.length) (hj : j < l.length) :
    (swap l i j).length = l.length := by
  simp [swap_of_lt hi hj]

theorem swap_perm {i j : Nat} (hi : i < l.length) (hj : j < l.length) : (swap l i j).Perm l := by
  rw [swap_of_lt hi hj]
  exact List.set_set_perm hi hj

theorem zip_swap {l' : List β} (hlen : l.length = l'.length) {i j : Nat}
    (hi : i < l.length) (hj : j < l.length) :
    (swap l i j).zip (swap l' i j) = swap (l.zip l') i j := by
  have hi' : i < (l.zip l').length := by simp [← hlen, hi]
  have hj' : j < (l.zip l').length := by simp [← hlen, hj]
  refine List.ext_getElem? fun k => ?_
  rw [getElem?_swap hi' hj']
  simp only [List.zip_eq_zipWith, List.getElem?_zipWith, getElem?_swap hi hj,
    getElem?_swap (hlen ▸ hi) (hlen ▸ hj)]
  by_cases hkj : k = j
  · simp only [hkj, if_true]
  · by_cases hki : k = i
    · subst hki
      simp only [hkj, if_true, if_false]
    · simp only [hkj, hki, if_false]

end

/-! ## Following the cycles -/

section

variable {V : Type u}

/-- The positions at which the right value has not arrived yet. -/
def unsettled (perm : List Nat) : Finset Nat :=
  (Finset.range perm.length).filter fun k => perm[k]? ≠ some k

/-- The values are those at the start, with their targets, and the targets are distinct
positions. -/
structure Arranged (start : List (V × Nat)) (s : List V × List Nat) : Prop where
  length : s.1.length = s.2.length
  perm : (s.1.zip s.2).Perm start
  nodup : s.2.Nodup
  lt : ∀ target ∈ s.2, target < s.2.length

variable {start : List (V × Nat)}

/-- A swap with the target settles the target and keeps all settled positions. -/
theorem Arranged.swap {values : List V} {perm : List Nat}
    (h : Arranged start (values, perm)) {i target : Nat} (hi : perm[i]? = some target)
    (hne : target ≠ i) :
    Arranged start (Qdrant.swap values i target, Qdrant.swap perm i target) ∧
    unsettled (Qdrant.swap perm i target) ⊆ (unsettled perm).erase target ∧
    target ∈ unsettled perm := by
  obtain ⟨hlt, hget⟩ := List.getElem?_eq_some_iff.mp hi
  have htarget : target < perm.length := h.lt target (hget ▸ List.getElem_mem hlt)
  have hlen : values.length = perm.length := h.length
  refine ⟨⟨?_, ?_, ?_, ?_⟩, ?_, ?_⟩
  · rw [length_swap (hlen ▸ hlt) (hlen ▸ htarget), length_swap hlt htarget, hlen]
  · rw [zip_swap hlen (hlen ▸ hlt) (hlen ▸ htarget)]
    exact (swap_perm (by simp [hlen, hlt]) (by simp [hlen, htarget])).trans h.perm
  · exact (swap_perm hlt htarget).nodup_iff.mpr h.nodup
  · intro k hk
    rw [length_swap hlt htarget]
    exact h.lt k ((swap_perm hlt htarget).mem_iff.mp hk)
  · intro k hk
    rw [unsettled, mem_filter, mem_range, length_swap hlt htarget, getElem?_swap hlt htarget] at hk
    obtain ⟨hklt, hk⟩ := hk
    have hkt : k ≠ target := by
      rintro rfl
      simp [hi] at hk
    refine mem_erase.mpr ⟨hkt, mem_filter.mpr ⟨mem_range.mpr hklt, ?_⟩⟩
    rw [if_neg hkt] at hk
    split at hk
    · next hki =>
      rw [hki, hi]
      simpa using hne
    · exact hk
  · refine mem_filter.mpr ⟨mem_range.mpr htarget, fun hfix => ?_⟩
    -- two positions cannot have the same target
    exact hne (List.getElem?_inj htarget h.nodup |>.mp (hfix.trans hi.symm))

/-- Enough swaps settle position `i` and unsettle none. -/
theorem settle_spec (i fuel : Nat) : ∀ {s : List V × List Nat}, Arranged start s → i < s.2.length →
      (unsettled s.2).card ≤ fuel →
      Arranged start (settle i fuel s) ∧ (settle i fuel s).2.length = s.2.length ∧
      unsettled (settle i fuel s).2 ⊆ (unsettled s.2).erase i := by
  induction fuel with
  | zero =>
    intro s h _ hfuel
    have hempty : unsettled s.2 = ∅ := card_eq_zero.mp (Nat.le_zero.mp hfuel)
    exact ⟨h, rfl, by simp [settle, hempty]⟩
  | succ fuel ih =>
    rintro ⟨values, perm⟩ h hi hfuel
    have hget : perm[i]? = some perm[i] := List.getElem?_eq_getElem hi
    simp only [settle, hget]
    by_cases heq : perm[i] = i
    · rw [if_pos heq]
      refine ⟨h, rfl, fun k hk => mem_erase.mpr ⟨?_, hk⟩⟩
      rintro rfl
      exact (mem_filter.mp hk).2 (by rw [hget, heq])
    · rw [if_neg heq]
      obtain ⟨hswap, hsub, hmem⟩ := h.swap hget heq
      obtain ⟨htarget, _⟩ := mem_filter.mp hmem
      have hlen : (Qdrant.swap perm i perm[i]).length = perm.length :=
        length_swap hi (mem_range.mp htarget)
      have hcard : (unsettled (Qdrant.swap perm i perm[i])).card ≤ fuel := by
        change (unsettled perm).card ≤ fuel + 1 at hfuel
        have hle := card_le_card hsub
        rw [card_erase_of_mem hmem] at hle
        omega
      obtain ⟨harr, hlen', hsub'⟩ := ih hswap (by rw [hlen]; exact hi) hcard
      refine ⟨harr, hlen'.trans hlen, hsub'.trans (erase_subset_erase i ?_)⟩
      exact hsub.trans (erase_subset _ _)

/-- Settling all positions in turn. -/
theorem foldl_settle (n : Nat) (todo : List Nat) :
    ∀ {s : List V × List Nat}, Arranged start s → s.2.length = n → (∀ i ∈ todo, i < n) →
      Arranged start (todo.foldl (fun s i => settle i n s) s) ∧
      (todo.foldl (fun s i => settle i n s) s).2.length = n ∧
      ∀ i ∈ unsettled (todo.foldl (fun s i => settle i n s) s).2, i ∈ unsettled s.2 ∧ i ∉ todo := by
  induction todo with
  | nil =>
    intro s h hlen _
    exact ⟨h, hlen, fun i hi => ⟨hi, by simp⟩⟩
  | cons i todo ih =>
    intro s h hlen hlt
    have hcard : (unsettled s.2).card ≤ n := by
      rw [← hlen, ← card_range s.2.length]
      exact card_le_card (filter_subset _ _)
    obtain ⟨harr, hlen', hsub⟩ := settle_spec i n h
      (by rw [hlen]; exact hlt i List.mem_cons_self) hcard
    obtain ⟨harr', hlen'', hrest⟩ := ih harr (hlen'.trans hlen)
      fun j hj => hlt j (List.mem_cons_of_mem _ hj)
    refine ⟨harr', hlen'', fun j hj => ?_⟩
    obtain ⟨hj, hnot⟩ := hrest j hj
    obtain ⟨hne, hj⟩ := mem_erase.mp (hsub hj)
    exact ⟨hj, by simp [hne, hnot]⟩

end

/-! ## The sorted values -/

section

variable {T : Type u} {V : Type v} [DecidableEq T]

theorem get?_foldl_zipIdx {keys : List T} (hnodup : keys.Nodup) (start : Nat)
    (m : HashMap T Nat) (k : T) :
    ((keys.zipIdx start).foldl (fun m e => m.insert e.1 e.2) m).get? k =
      if k ∈ keys then some (start + keys.idxOf k) else m.get? k := by
  induction keys generalizing start m with
  | nil => simp
  | cons x keys ih =>
    obtain ⟨hx, hnodup⟩ := List.nodup_cons.mp hnodup
    rw [List.zipIdx_cons, List.foldl_cons, ih hnodup]
    by_cases hk : k = x
    · subst hk
      simp [hx]
    · have hne : ¬ x = k := fun heq => hk heq.symm
      by_cases hmem : k ∈ keys
      · simp [hmem, hne]
        omega
      · simp [hk, hmem]

/-- Sorting values by the keys that name them: the values come in the order of the sorted
keys. -/
theorem sortPermutation_map (f : T → V) {keys : List T} (hnodup : keys.Nodup)
    {sort : List T → List T} (hsort : (sort keys).Perm keys) :
    sortPermutation (keys.map f) keys sort = (sort keys).map f := by
  have hsorted : (sort keys).Nodup := hsort.nodup_iff.mpr hnodup
  have htarget : ∀ k ∈ keys, ((keyToTargetIdx (sort keys)).get? k).getD 0 = (sort keys).idxOf k := by
    intro k hk
    rw [keyToTargetIdx, get?_foldl_zipIdx hsorted, if_pos (hsort.mem_iff.mpr hk), Option.getD_some,
      Nat.zero_add]
  unfold sortPermutation
  split
  · next hshort =>
    -- a list of at most one element has one order
    cases keys with
    | nil => rw [hsort.eq_nil]
    | cons k keys =>
      cases keys with
      | nil => rw [List.perm_singleton.mp hsort]
      | cons k' keys => simp at hshort
  · simp only [List.map_congr_left htarget, List.length_map]
    have hstart : Arranged (keys.map fun k => (f k, (sort keys).idxOf k))
        (keys.map f, keys.map fun k => (sort keys).idxOf k) := by
      refine ⟨by simp, ?_, ?_, ?_⟩
      · rw [List.zip_map']
      · refine hnodup.map_on fun k hk k' _ heq => ?_
        exact (List.idxOf_inj (hsort.mem_iff.mpr hk)).mp heq
      · intro target ht
        obtain ⟨k, hk, rfl⟩ := List.mem_map.mp ht
        simp only [List.length_map]
        rw [← hsort.length_eq]
        exact List.idxOf_lt_length_of_mem (hsort.mem_iff.mpr hk)
    obtain ⟨harr, hlen, hunsettled⟩ := foldl_settle keys.length (List.range keys.length) hstart
      (by simp) (by simp)
    generalize (List.range keys.length).foldl (fun s i => settle i keys.length s)
      (keys.map f, keys.map fun k => (sort keys).idxOf k) = final at harr hlen hunsettled ⊢
    refine List.ext_getElem (by simp [harr.length, hlen, hsort.length_eq]) fun i hi hi' => ?_
    -- position `i` is settled, so its value is the one of the `i`-th sorted key
    have hi₂ : i < final.2.length := harr.length ▸ hi
    have hfix : final.2[i]? = some i := by
      by_contra hne
      have hmem := hunsettled i (mem_filter.mpr ⟨mem_range.mpr hi₂, hne⟩)
      exact hmem.2 (List.mem_range.mpr (hlen ▸ hi₂))
    have hpair : (final.1[i], i) ∈ final.1.zip final.2 := by
      refine List.mem_iff_getElem?.mpr ⟨i, ?_⟩
      rw [List.getElem?_zip_eq_some]
      exact ⟨List.getElem?_eq_getElem hi, hfix⟩
    obtain ⟨k, hk, heq⟩ := List.mem_map.mp (harr.perm.mem_iff.mp hpair)
    obtain ⟨hval, hidx⟩ := Prod.mk.inj heq
    have hkey : (sort keys)[i]? = some k := by
      rw [← hidx]
      exact List.getElem?_idxOf (hsort.mem_iff.mpr hk)
    rw [← hval, List.getElem_map]
    congr 1
    exact ((List.getElem?_eq_some_iff.mp hkey).2).symm

end

end Qdrant
