-- SUMMARY: Runs of free bits in a bit list: the first run that is long enough, and the longest one.
import Mathlib.Data.List.Basic

/-!
# Runs of free bits

A bit list marks used places with `true` and free ones with `false`. `scan` is the search
for a free run bit by bit: it carries the length and the start of the run that ends at the
current place, and reports the run as soon as a used place ends it and it is long enough.
`scanLongest` carries the longest run so far instead.

Programs read several bits at a time. The lemmas about `replicate` and about a part whose
runs are too short to matter say what such a step may skip.
-/

namespace FreeRuns

open List

section

variable (bits : List Bool)

/-- The `len` places from `start` on are in the list and free. -/
def Free (start len : Nat) : Prop :=
  ∀ i, start ≤ i → i < start + len → bits[i]? = some false

/-- The number of free places before the first used one. -/
def leading : Nat := (bits.takeWhile (!·)).length

/-- The number of free places after the last used one. -/
def trailing : Nat := leading bits.reverse

/-- The number of used places before the first free one. -/
def leadingUsed : Nat := (bits.takeWhile id).length

/-- There is a free run of this length and no longer one. -/
def IsLongest (len : Nat) : Prop :=
  (∃ start, Free bits start len) ∧ ∀ start m, Free bits start m → m ≤ len

end

/-! ## Free runs -/

variable {bits : List Bool} {len : Nat} {start : Nat}

theorem Free.mono {start' len' : Nat} (h : Free bits start len)
    (hs : start ≤ start') (hl : start' + len' ≤ start + len) : Free bits start' len' :=
  fun i hi hi' => h i (Nat.le_trans hs hi) (by omega)

theorem Free.end_le (h : Free bits start len) (hlen : 0 < len) : start + len ≤ bits.length := by
  have hlast := h (start + len - 1) (by omega) (by omega)
  obtain ⟨hlt, _⟩ := List.getElem?_eq_some_iff.mp hlast
  omega

theorem free_replicate (n : Nat) (rest : List Bool) : Free (List.replicate n false ++ rest) 0 n := by
  intro i _ hi
  rw [Nat.zero_add] at hi
  rw [getElem?_append_left (by simpa using hi), getElem?_replicate_of_lt hi]

variable {pre : List Bool}

theorem free_append_left : Free (pre ++ bits) (pre.length + start) len ↔ Free bits start len := by
  constructor
  · intro h i hi hi'
    have := h (pre.length + i) (by omega) (by omega)
    rwa [getElem?_append_right (by omega), Nat.add_sub_cancel_left] at this
  · intro h i hi hi'
    rw [getElem?_append_right (by omega)]
    exact h (i - pre.length) (by omega) (by omega)

/-- The runs behind the used place that ends a free one. -/
theorem free_behind {size : Nat} :
    Free (List.replicate size false ++ true :: bits) (size + 1 + start) len ↔ Free bits start len := by
  have hpre : (List.replicate size false ++ [true]).length = size + 1 := by simp
  rw [append_cons, ← hpre]
  exact free_append_left

/-- A free run does not pass a used place. -/
theorem Free.used_not_inside (h : Free (pre ++ true :: bits) start len) :
    start + len ≤ pre.length ∨ pre.length < start ∨ len = 0 := by
  by_contra hcon
  have := h pre.length (by omega) (by omega)
  rw [getElem?_append_right (Nat.le_refl _), Nat.sub_self] at this
  cases this

theorem free_reverse (h : Free bits start len)
    (hle : start + len ≤ bits.length) : Free bits.reverse (bits.length - start - len) len := by
  intro i hi hi'
  rw [getElem?_reverse (by omega)]
  exact h _ (by omega) (by omega)

/-- The longest run is found from either end. -/
theorem IsLongest.reverse (h : IsLongest bits len) : IsLongest bits.reverse len := by
  obtain ⟨⟨start, hfree⟩, hmax⟩ := h
  constructor
  · cases len with
    | zero => exact ⟨0, fun i _ hi => absurd hi (by omega)⟩
    | succ len => exact ⟨_, free_reverse hfree (hfree.end_le (Nat.succ_pos len))⟩
  · intro start m hm
    cases m with
    | zero => exact Nat.zero_le len
    | succ m =>
      have hrev := free_reverse hm (hm.end_le (Nat.succ_pos m))
      rw [reverse_reverse] at hrev
      exact hmax _ _ hrev

theorem IsLongest.unique {m n : Nat} (hm : IsLongest bits m) (hn : IsLongest bits n) : m = n := by
  obtain ⟨⟨s, hs⟩, hmaxm⟩ := hm
  obtain ⟨⟨t, ht⟩, hmaxn⟩ := hn
  exact Nat.le_antisymm (hmaxn s m hs) (hmaxm t n ht)

/-! ## The free ends of a list -/

@[simp] theorem leading_false (bits : List Bool) : leading (false :: bits) = leading bits + 1 := rfl

theorem leading_replicate_append (n : Nat) (bits : List Bool) :
    leading (List.replicate n false ++ bits) = n + leading bits := by
  induction n with
  | zero => simp
  | succ n ih =>
    rw [replicate_succ, cons_append, leading_false]
    omega

theorem leading_append_of_mem (h : true ∈ bits) (rest : List Bool) :
    leading (bits ++ rest) = leading bits := by
  induction bits with
  | nil => cases h
  | cons b bits ih =>
    cases b with
    | true => rfl
    | false =>
      have hmem : true ∈ bits := by simpa using h
      rw [cons_append, leading_false, leading_false, ih hmem]

theorem eq_replicate_of_not_mem (h : true ∉ bits) : bits = List.replicate bits.length false :=
  eq_replicate_of_mem fun _ hb => Bool.of_not_eq_true fun htrue => h (htrue ▸ hb)

theorem eq_replicate_of_used (h : false ∉ bits) : bits = List.replicate bits.length true :=
  eq_replicate_of_mem fun _ hb => Bool.of_not_eq_false fun hfalse => h (hfalse ▸ hb)

theorem leading_of_not_mem (h : true ∉ bits) : leading bits = bits.length := by
  have := leading_replicate_append bits.length []
  rwa [append_nil, ← eq_replicate_of_not_mem h] at this

theorem exists_used (h : true ∈ bits) :
    ∃ rest, bits = List.replicate (leading bits) false ++ true :: rest := by
  induction bits with
  | nil => cases h
  | cons b bits ih =>
    cases b with
    | true => exact ⟨bits, rfl⟩
    | false =>
      obtain ⟨rest, hrest⟩ := ih (by simpa using h)
      exact ⟨rest, congrArg (false :: ·) hrest⟩

theorem le_leading_iff : len ≤ leading bits ↔ len ≤ bits.length ∧ Free bits 0 len := by
  induction bits generalizing len with
  | nil => exact ⟨fun h => ⟨h, fun i _ hi => absurd hi (by rw [Nat.le_zero.mp h]; omega)⟩, And.left⟩
  | cons b bits ih =>
    cases len with
    | zero => simp [Free]
    | succ len =>
      cases b with
      | true =>
        refine iff_of_false (Nat.not_succ_le_zero len) fun h => ?_
        cases h.2 0 (Nat.le_refl 0) (by omega)
      | false =>
        rw [leading_false, Nat.succ_le_succ_iff, ih, length_cons, Nat.succ_le_succ_iff]
        refine and_congr_right fun _ => ⟨fun h i hi hi' => ?_, fun h i hi hi' => ?_⟩
        · cases i with
          | zero => rfl
          | succ i => exact h i (Nat.zero_le i) (by omega)
        · exact h (i + 1) (by omega) (by omega)

theorem le_trailing_iff :
    len ≤ trailing bits ↔ len ≤ bits.length ∧ Free bits (bits.length - len) len := by
  rw [trailing, le_leading_iff, length_reverse]
  refine and_congr_right fun hle => ⟨fun h => ?_, fun h => ?_⟩
  · have hfree := free_reverse h (by rwa [Nat.zero_add, length_reverse])
    rwa [reverse_reverse, length_reverse] at hfree
  · have hfree := free_reverse h (by omega)
    rwa [Nat.sub_sub_self hle, Nat.sub_self] at hfree

/-- A list with a used place is its free ends around a part that begins and ends used. -/
theorem exists_core (h : true ∈ bits) : ∃ core,
    bits = List.replicate (leading bits) false ++ core ++ List.replicate (trailing bits) false ∧
      (∃ rest, core = true :: rest) ∧ ∃ init, core = init ++ [true] := by
  obtain ⟨rest, hrest⟩ := exists_used h
  have hmem : true ∈ (true :: rest).reverse := by simp
  obtain ⟨init, hinit⟩ := exists_used hmem
  have htrailing : trailing bits = leading (true :: rest).reverse := by
    rw [trailing]
    nth_rewrite 1 [hrest]
    rw [reverse_append, leading_append_of_mem hmem]
  have hcore : true :: rest = init.reverse ++ [true] ++ List.replicate (trailing bits) false := by
    have := congrArg List.reverse hinit
    rw [reverse_reverse, reverse_append, reverse_cons, reverse_replicate, ← htrailing] at this
    exact this
  refine ⟨init.reverse ++ [true], ?_, ?_, _, rfl⟩
  · rw [append_assoc, ← hcore]
    exact hrest
  · cases hrev : init.reverse with
    | nil => exact ⟨[], rfl⟩
    | cons b bs =>
      rw [hrev, cons_append, cons_append, List.cons.injEq] at hcore
      rw [← hcore.1]
      exact ⟨bs ++ [true], rfl⟩

theorem exists_leadingUsed (bits : List Bool) :
    ∃ rest, bits = List.replicate (leadingUsed bits) true ++ rest := by
  induction bits with
  | nil => exact ⟨[], rfl⟩
  | cons b bits ih =>
    cases b with
    | false => exact ⟨false :: bits, rfl⟩
    | true =>
      obtain ⟨rest, hrest⟩ := ih
      exact ⟨rest, congrArg (true :: ·) hrest⟩

/-! ## Search -/

/-- Look for `n` free places. `size` places before the list are free, from `start` on. The
result is the start of a run that a used place has ended, or the run that is open at the
end of the list. -/
def scan (n : Nat) : List Bool → Nat → Nat → Except Nat (Nat × Nat)
  | [], size, start => .ok (size, start)
  | false :: bits, size, start => scan n bits (size + 1) start
  | true :: bits, size, start => if n ≤ size then .error start else scan n bits 0 (start + size + 1)

/-- The start of a run of `n` free places. -/
def search (n : Nat) (bits : List Bool) : Option Nat :=
  match scan n bits 0 0 with
  | .error start => some start
  | .ok (size, start) => if n ≤ size then some start else none

theorem scan_append (n : Nat) (xs ys : List Bool) (size start : Nat) :
    scan n (xs ++ ys) size start = (scan n xs size start).bind fun r => scan n ys r.1 r.2 := by
  induction xs generalizing size start with
  | nil => rfl
  | cons x xs ih =>
    cases x with
    | false => exact ih (size + 1) start
    | true =>
      rw [cons_append, scan, scan]
      split
      · rfl
      · exact ih 0 (start + size + 1)

theorem scan_free (n k size start : Nat) :
    scan n (List.replicate k false) size start = .ok (size + k, start) := by
  induction k generalizing size with
  | zero => rfl
  | succ k ih =>
    rw [replicate_succ, scan, ih]
    congr 2
    omega

variable {n : Nat} {start : Nat} {size : Nat}

/-- A part that ends used and has no room for a run of `n` is passed. -/
theorem scan_short (bits : List Bool) (hshort : size + bits.length < n) :
    scan n (bits ++ [true]) size start = .ok (0, start + size + bits.length + 1) := by
  induction bits generalizing size start with
  | nil =>
    rw [nil_append, scan, if_neg (by simpa using hshort)]
    rfl
  | cons b bits ih =>
    rw [length_cons] at hshort
    cases b with
    | false =>
      rw [cons_append, scan, ih (by omega), length_cons]
      congr 2
      omega
    | true =>
      rw [cons_append, scan, if_neg (by omega), ih (by omega), length_cons]
      congr 2
      omega

theorem scan_used {k : Nat} (hn : 0 < n) :
    scan n (List.replicate k true) 0 start = .ok (0, start + k) := by
  induction k generalizing start with
  | zero => rfl
  | succ k ih =>
    rw [replicate_succ, scan, if_neg (by omega), ih]
    congr 2
    omega

theorem replicate_succ_append (size : Nat) (bits : List Bool) :
    List.replicate (size + 1) false ++ bits = List.replicate size false ++ false :: bits := by
  rw [replicate_succ', append_assoc, singleton_append]

variable {bits : List Bool}

/-- What the scan reports is free. -/
theorem scan_error {found : Nat} (h : scan n bits size start = .error found) :
    start ≤ found ∧ Free (List.replicate size false ++ bits) (found - start) n := by
  induction bits generalizing size start with
  | nil => cases h
  | cons b bits ih =>
    cases b with
    | false =>
      have := ih h
      rwa [replicate_succ_append] at this
    | true =>
      rw [scan] at h
      split at h
      case isTrue hsize =>
        cases h
        refine ⟨Nat.le_refl _, ?_⟩
        rw [Nat.sub_self]
        exact (free_replicate size (true :: bits)).mono (Nat.le_refl 0) (by omega)
      case isFalse =>
        obtain ⟨hle, hfree⟩ := ih h
        refine ⟨by omega, ?_⟩
        rw [show found - start = size + 1 + (found - (start + size + 1)) by omega]
        exact free_behind.mpr hfree

/-- Every long enough run that the scan passes is part of the run that is still open. -/
theorem scan_ok {size' start' : Nat}
    (hn : 0 < n) (h : scan n bits size start = .ok (size', start')) : ∃ pre,
    List.replicate size false ++ bits = pre ++ List.replicate size' false ∧
      start' = start + pre.length ∧
      ∀ place, Free (List.replicate size false ++ bits) place n → pre.length ≤ place := by
  induction bits generalizing size start with
  | nil =>
    cases h
    exact ⟨[], by simp, rfl, fun _ _ => Nat.zero_le _⟩
  | cons b bits ih =>
    cases b with
    | false =>
      have := ih h
      rwa [replicate_succ_append] at this
    | true =>
      rw [scan] at h
      split at h
      case isTrue => cases h
      case isFalse hsize =>
        obtain ⟨pre, hpre, hstart, hmin⟩ := ih h
        rw [replicate_zero, nil_append] at hpre hmin
        have hlength : (List.replicate size false ++ true :: pre).length =
            size + 1 + pre.length := by
          rw [length_append, length_replicate, length_cons]
          omega
        refine ⟨List.replicate size false ++ true :: pre, by simp [hpre], ?_, ?_⟩
        · omega
        · intro place hfree
          -- The run cannot contain the used place, and before it there is no room.
          have hside := hfree.used_not_inside
          rw [length_replicate] at hside
          have hrest : Free bits (place - (size + 1)) n := by
            rw [show place = size + 1 + (place - (size + 1)) by omega] at hfree
            exact free_behind.mp hfree
          have := hmin _ hrest
          omega

theorem exists_search {place : Nat} (hn : 0 < n) (h : Free bits place n) :
    ∃ start, search n bits = some start ∧ Free bits start n := by
  rw [search]
  cases hscan : scan n bits 0 0 with
  | error found => exact ⟨found, rfl, (scan_error hscan).2⟩
  | ok r =>
    obtain ⟨size, found⟩ := r
    obtain ⟨pre, hpre, hfound, hmin⟩ := scan_ok hn hscan
    rw [replicate_zero, nil_append] at hpre hmin
    have hplace := hmin place h
    have hend := h.end_le hn
    rw [hpre, length_append, length_replicate] at hend
    refine ⟨found, if_pos (by omega), ?_⟩
    rw [hfound, hpre, Nat.zero_add, ← Nat.add_zero pre.length]
    apply free_append_left.mpr
    have hopen := free_replicate size []
    rw [append_nil] at hopen
    exact hopen.mono (Nat.le_refl 0) (by omega)

/-! ## The longest run -/

/-- The longest run that a used place has ended, and the length of the run that is open. -/
def scanLongest : List Bool → Nat → Nat → Nat × Nat
  | [], max, current => (max, current)
  | false :: bits, max, current => scanLongest bits max (current + 1)
  | true :: bits, max, current => scanLongest bits (Nat.max max current) 0

/-- The length of the longest free run. -/
def longest (bits : List Bool) : Nat :=
  Nat.max (scanLongest bits 0 0).1 (scanLongest bits 0 0).2

theorem scanLongest_append (xs ys : List Bool) (max current : Nat) :
    scanLongest (xs ++ ys) max current =
      scanLongest ys (scanLongest xs max current).1 (scanLongest xs max current).2 := by
  induction xs generalizing max current with
  | nil => rfl
  | cons x xs ih => cases x <;> exact ih _ _

theorem scanLongest_free (k max current : Nat) :
    scanLongest (List.replicate k false) max current = (max, current + k) := by
  induction k generalizing current with
  | zero => rfl
  | succ k ih =>
    rw [replicate_succ, scanLongest, ih]
    congr 1
    omega

theorem scanLongest_used {k : Nat} (hk : 0 < k) (max current : Nat) :
    scanLongest (List.replicate k true) max current = (Nat.max max current, 0) := by
  cases k with
  | zero => cases hk
  | succ k =>
    rw [replicate_succ, scanLongest]
    generalize Nat.max max current = m
    induction k with
    | zero => rfl
    | succ k ih =>
      rw [replicate_succ, scanLongest, show Nat.max m 0 = m from Nat.max_eq_left (Nat.zero_le m)]
      exact ih (Nat.succ_pos k)

section

variable (bits : List Bool)

/-- A part that ends used and is shorter than the longest run so far does not change it. -/
theorem scanLongest_short {max current : Nat}
    (hshort : current + bits.length ≤ max) : scanLongest (bits ++ [true]) max current = (max, 0) := by
  induction bits generalizing current with
  | nil =>
    rw [nil_append, scanLongest, scanLongest]
    congr 1
    exact Nat.max_eq_left (by simpa using hshort)
  | cons b bits ih =>
    rw [length_cons] at hshort
    cases b with
    | false => exact ih (by omega)
    | true =>
      rw [cons_append, scanLongest, show Nat.max max current = max from
        Nat.max_eq_left (by omega)]
      exact ih (by omega)

/-- The two results of the scan cover every run, and each of them is a run or the start
value. -/
theorem scanLongest_spec (max current : Nat) :
    (∀ place m, Free (List.replicate current false ++ bits) place m → m ≤
      Nat.max (scanLongest bits max current).1 (scanLongest bits max current).2) ∧
    max ≤ (scanLongest bits max current).1 ∧
    ((scanLongest bits max current).1 = max ∨
      ∃ place, Free (List.replicate current false ++ bits) place (scanLongest bits max current).1) ∧
    ∃ place, Free (List.replicate current false ++ bits) place (scanLongest bits max current).2 := by
  induction bits generalizing max current with
  | nil =>
    refine ⟨?_, Nat.le_refl _, .inl rfl, 0, free_replicate current []⟩
    intro place m hm
    cases m with
    | zero => exact Nat.zero_le _
    | succ m =>
      have hend := hm.end_le (Nat.succ_pos m)
      rw [append_nil, length_replicate] at hend
      exact Nat.le_trans (by omega) (Nat.le_max_right max current)
  | cons b bits ih =>
    cases b with
    | false =>
      have := ih max (current + 1)
      rwa [replicate_succ_append] at this
    | true =>
      obtain ⟨hall, hmax, hrun, place, hplace⟩ := ih (Nat.max max current) 0
      have hcurrent := free_replicate current (true :: bits)
      rw [scanLongest]
      refine ⟨?_, Nat.le_trans (Nat.le_max_left max current) hmax, ?_, _, free_behind.mpr hplace⟩
      · intro place m hm
        rcases hm.used_not_inside with hbefore | hafter | hzero
        · rw [length_replicate] at hbefore
          calc m ≤ current := by omega
            _ ≤ Nat.max max current := Nat.le_max_right _ _
            _ ≤ _ := hmax
            _ ≤ _ := Nat.le_max_left _ _
        · rw [length_replicate] at hafter
          apply hall (place - (current + 1))
          rw [show place = current + 1 + (place - (current + 1)) by omega] at hm
          exact free_behind.mp hm
        · omega
      · rcases hrun with heq | ⟨place, hplace⟩
        · rcases Nat.le_total current max with hle | hle
          · exact .inl (heq.trans (Nat.max_eq_left hle))
          · refine .inr ⟨0, ?_⟩
            rw [heq, show Nat.max max current = current from Nat.max_eq_right hle]
            exact hcurrent
        · exact .inr ⟨_, free_behind.mpr hplace⟩

theorem isLongest_longest : IsLongest bits (longest bits) := by
  obtain ⟨hall, _, hrun, place, hplace⟩ := scanLongest_spec bits 0 0
  refine ⟨?_, hall⟩
  rw [longest]
  rcases Nat.le_total (scanLongest bits 0 0).1 (scanLongest bits 0 0).2 with hle | hle
  · rw [show Nat.max _ _ = _ from Nat.max_eq_right hle]
    exact ⟨place, hplace⟩
  · rw [show Nat.max _ _ = _ from Nat.max_eq_left hle]
    rcases hrun with hzero | hplace
    · exact ⟨0, fun i _ hi => absurd hi (by omega)⟩
    · exact hplace

theorem longest_reverse : longest bits.reverse = longest bits :=
  (isLongest_longest bits.reverse).unique (isLongest_longest bits).reverse

theorem longest_le_length : longest bits ≤ bits.length := by
  obtain ⟨⟨start, hfree⟩, _⟩ := isLongest_longest bits
  rcases Nat.eq_zero_or_pos (longest bits) with hzero | hpos
  · omega
  · have := hfree.end_le hpos
    omega

end

end FreeRuns
