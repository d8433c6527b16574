-- SUMMARY: Merging sorted lists, and the groups of equal keys in a sorted list.
import Mathlib.Data.List.SplitBy
import Mathlib.Data.List.Sort

/-!
# Merging by keys

`KMergeBy` is what a merge of several sorted lists has to give, with the order of equal items left
open. In the result, the groups of neighbours with equal keys hold all items of their key.
-/

namespace List

/-- A merge of several lists: it gives their items, in order if every list is. -/
structure KMergeBy (α : Type) (r : α → α → Prop) where
  merge : List (List α) → List α
  perm : ∀ iters, (merge iters).Perm iters.flatten
  sorted : ∀ iters, (∀ iter ∈ iters, iter.Pairwise r) → (merge iters).Pairwise r

variable {α κ : Type} [LinearOrder κ]

/-- Sorting all items is such a merge. -/
instance (key : α → κ) : Inhabited (KMergeBy α (key · ≤ key ·)) where
  default :=
    { merge := fun iters => iters.flatten.insertionSort (key · ≤ key ·)
      perm := fun iters => perm_insertionSort _ iters.flatten
      sorted := fun iters _ => by
        have htotal : Std.Total fun a b => key a ≤ key b := ⟨fun a b => le_total (key a) (key b)⟩
        have htrans : IsTrans α fun a b => key a ≤ key b := ⟨fun _ _ _ => le_trans⟩
        exact pairwise_insertionSort _ _ }

/-- The groups of neighbours with equal keys. -/
def chunkBy (key : α → κ) (l : List α) : List (List α) := l.splitBy fun a b => key a == key b

variable {key : α → κ} {l group : List α} {x y : α}

theorem key_eq_of_mem_chunkBy (h : group ∈ l.chunkBy key) (hx : x ∈ group) (hy : y ∈ group) :
    key x = key y := by
  have hchain : group.IsChain fun a b => key a = key b :=
    (isChain_of_mem_splitBy h).imp fun a b heq => eq_of_beq heq
  have htrans : IsTrans α fun a b => key a = key b := ⟨fun _ _ _ => Eq.trans⟩
  have hpairwise := isChain_iff_pairwise.mp hchain
  have hsymm : Std.Symm fun a b => key a = key b := ⟨fun _ _ => Eq.symm⟩
  exact Pairwise.forall_of_forall (R := fun a b => key a = key b) (fun _ _ => rfl) hpairwise hx hy

/-- Groups with different keys at their borders, in a sorted list. -/
theorem pairwise_of_isChain {groups : List (List α)} (hsorted : groups.flatten.Pairwise (key · ≤ key ·))
    (hsame : ∀ group ∈ groups, ∀ x ∈ group, ∀ y ∈ group, key x = key y)
    (hborder : groups.IsChain fun a b => ∃ ha hb, (key (a.getLast ha) == key (b.head hb)) = false) :
    groups.Pairwise fun a b => ∀ x ∈ a, ∀ y ∈ b, key x < key y := by
  induction groups with
  | nil => exact .nil
  | cons group groups ih =>
    rw [flatten_cons, pairwise_append] at hsorted
    obtain ⟨-, hrest, hcross⟩ := hsorted
    refine pairwise_cons.mpr ⟨fun later hlater x hx y hy => ?_,
      ih hrest (fun g hg => hsame g (mem_cons_of_mem _ hg)) hborder.tail⟩
    cases groups with
    | nil => cases hlater
    | cons next groups =>
      -- The first item of the next group has another key, which is not above that of any later item.
      obtain ⟨hne, hnext, hdiff⟩ := (isChain_cons_cons.mp hborder).1
      obtain ⟨first, tail, rfl⟩ := exists_cons_of_ne_nil hnext
      have hx' := hsame group mem_cons_self x hx _ (getLast_mem hne)
      have hle := hcross x hx first (mem_flatten_of_mem mem_cons_self mem_cons_self)
      have hlt : key x < key first := lt_of_le_of_ne hle fun heq => by simp [← hx', heq] at hdiff
      have hy' := mem_flatten_of_mem hlater hy
      rw [flatten_cons, cons_append] at hy' hrest
      rcases mem_cons.mp hy' with rfl | hy'
      · exact hlt
      · exact hlt.trans_le ((pairwise_cons.mp hrest).1 y hy')

/-- A group of a sorted list holds all items of its key. -/
theorem mem_of_mem_chunkBy (hsorted : l.Pairwise (key · ≤ key ·)) (hgroup : group ∈ l.chunkBy key)
    (hx : x ∈ group) : y ∈ group ↔ y ∈ l ∧ key y = key x := by
  have hflatten : (l.chunkBy key).flatten = l := flatten_splitBy _ l
  constructor
  · intro hy
    exact ⟨hflatten ▸ mem_flatten_of_mem hgroup hy, key_eq_of_mem_chunkBy hgroup hy hx⟩
  · rintro ⟨hy, hkey⟩
    rw [← hflatten] at hy hsorted
    obtain ⟨other, hother, hy⟩ := mem_flatten.mp hy
    have hborder := isChain_getLast_head_splitBy (fun a b => key a == key b) l
    have hpairwise := pairwise_of_isChain hsorted
      (fun g hg a ha b hb => key_eq_of_mem_chunkBy hg ha hb) hborder
    have hdiff : (l.chunkBy key).Pairwise fun a b => ∀ x ∈ a, ∀ y ∈ b, key x ≠ key y :=
      hpairwise.imp fun hlt x hx y hy => (hlt x hx y hy).ne
    have hsymm : Std.Symm fun a b : List α => ∀ x ∈ a, ∀ y ∈ b, key x ≠ key y :=
      ⟨fun a b h y hy x hx => (h x hx y hy).symm⟩
    by_contra hnot
    have hne : group ≠ other := fun heq => hnot (heq ▸ hy)
    exact hdiff.forall hgroup hother hne x hx y hy hkey.symm

end List
