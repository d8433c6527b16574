-- SUMMARY: Splitting a list into chunks of a given size.
import Mathlib.Data.List.Basic

/-!
# Chunks

Cutting a list into pieces of one size, and lists of pieces that all have one size.
-/

universe u

variable {α : Type u}

/-- The list in pieces of this size; the last piece may be shorter. -/
def List.chunks (size : Nat) (l : List α) : List (List α) :=
  (toChunksAux (size - 1) l 0).2

theorem List.toChunksAux_flatten (n : Nat) (l : List α) (i : Nat) :
    (toChunksAux n l i).1 ++ (toChunksAux n l i).2.flatten = l := by
  fun_induction toChunksAux n l i with
  | case1 => rfl
  | case2 x xs head rest heq ih | case3 x xs i head rest heq ih =>
    rw [heq] at ih
    exact congrArg (cons x) ih

variable {l : List α}

theorem List.toChunksAux_zero (n : Nat) (l : List α) : (toChunksAux n l 0).1 = [] := by
  cases l <;> rfl

theorem List.chunks_flatten (size : Nat) (l : List α) : (l.chunks size).flatten = l := by
  have h := toChunksAux_flatten (size - 1) l 0
  rwa [toChunksAux_zero, nil_append] at h

variable {size : Nat}

theorem List.toChunksAux_eq (n : Nat) (l : List α) (i : Nat) :
    toChunksAux n l i = (l.take i, (toChunksAux n (l.drop i) 0).2) := by
  induction l generalizing i with
  | nil => cases i <;> rfl
  | cons x xs ih =>
    cases i with
    | zero => exact Prod.ext (toChunksAux_zero n (x :: xs)) rfl
    | succ i => rw [toChunksAux, ih]; rfl

section

variable (hsize : 0 < size)

include hsize

theorem List.chunks_cons (x : α) (xs : List α) :
    (x :: xs).chunks size = (x :: xs).take size :: ((x :: xs).drop size).chunks size := by
  obtain ⟨n, rfl⟩ := Nat.exists_eq_succ_of_ne_zero (Nat.pos_iff_ne_zero.mp hsize)
  simp only [chunks, toChunksAux, toChunksAux_eq n xs n, Nat.succ_sub_one,
    take_succ_cons, drop_succ_cons]

/-- A piece of a list is what stands at its place. -/
theorem List.getElem?_chunks (l : List α) (i : Nat) : (l.chunks size)[i]? =
      if i * size < l.length then some ((l.drop (i * size)).take size) else none := by
  induction i generalizing l with
  | zero =>
    cases l with
    | nil => rfl
    | cons x xs => simp [chunks_cons hsize]
  | succ i ih =>
    cases l with
    | nil => rfl
    | cons x xs =>
      rw [chunks_cons hsize, getElem?_cons_succ, ih, length_drop, drop_drop,
        Nat.succ_mul, Nat.add_comm size]
      split
      next h => rw [if_pos (by omega)]
      next h => rw [if_neg (by omega)]

theorem List.length_chunks (l : List α) :
    (l.chunks size).length = (l.length + size - 1) / size := by
  have hcount : ∀ i, i < (l.chunks size).length ↔ i * size < l.length := fun i => by
    rw [← Nat.not_le, ← getElem?_eq_none_iff, getElem?_chunks hsize]
    split <;> simp [*]
  apply Nat.le_antisymm
  · apply Nat.le_of_not_lt
    intro hlt
    have hmul := (hcount _).mp hlt
    have hdiv := Nat.lt_mul_div_succ (l.length + size - 1) hsize
    rw [Nat.mul_add, Nat.mul_comm size] at hdiv
    omega
  · apply Nat.le_of_not_lt
    intro hlt
    have hmul := mt (hcount _).mpr (Nat.lt_irrefl _)
    have hle := (Nat.le_div_iff_mul_le hsize).mp hlt
    rw [Nat.succ_mul] at hle
    omega

theorem List.exists_of_mem_chunks {chunk : List α} (h : chunk ∈ l.chunks size) :
    ∃ i, i * size < l.length ∧ (l.drop (i * size)).take size = chunk := by
  obtain ⟨i, hi⟩ := getElem?_of_mem h
  rw [getElem?_chunks hsize] at hi
  split at hi
  next hlt => exact ⟨i, hlt, Option.some.inj hi⟩
  next => cases hi

theorem List.mem_chunks_ne_nil {chunk : List α} (h : chunk ∈ l.chunks size) : chunk ≠ [] := by
  obtain ⟨i, hlt, rfl⟩ := exists_of_mem_chunks hsize h
  intro hnil
  have hlength := congrArg length hnil
  rw [length_take, length_drop, length_nil] at hlength
  omega

end

/-! ## Pieces of one size -/

theorem List.length_flatten_of_length {pieces : List (List α)}
    (h : ∀ piece ∈ pieces, piece.length = size) : pieces.flatten.length = pieces.length * size := by
  rw [length_flatten, map_congr_left h, map_const', sum_replicate_nat]

theorem List.drop_flatten_of_length {pieces : List (List α)}
    (h : ∀ piece ∈ pieces, piece.length = size) (i : Nat) :
    pieces.flatten.drop (i * size) = (pieces.drop i).flatten := by
  induction i generalizing pieces with
  | zero => rw [Nat.zero_mul, drop_zero, drop_zero]
  | succ i ih =>
    cases pieces with
    | nil => simp
    | cons piece pieces =>
      have hpiece := h piece mem_cons_self
      rw [flatten_cons, drop_succ_cons, Nat.succ_mul, Nat.add_comm, ← drop_drop,
        drop_left' hpiece, ih fun q hq => h q (mem_cons_of_mem _ hq)]

/-- A bound cuts an ascending list where its elements stop to satisfy it. -/
theorem List.takeWhile_eq_filter {p : α → Bool}
    (h : l.Pairwise fun a b => p b = true → p a = true) : l.takeWhile p = l.filter p := by
  induction h with
  | nil => rfl
  | @cons a l hmono _ ih =>
    by_cases ha : p a = true
    · rw [takeWhile_cons_of_pos ha, filter_cons_of_pos ha, ih]
    · rw [takeWhile_cons_of_neg ha, filter_cons_of_neg ha,
        filter_eq_nil_iff.mpr fun b hmem hb => ha (hmono b hmem hb)]
