-- SUMMARY: The parser of JSON paths, which reads the printed text of every path back.
import Mathlib.Algebra.Group.Nat.Defs
import Mathlib.Data.List.TakeDrop
import Mathlib.Data.List.TakeWhile
import Qdrant.Segment.Json

/-!
# The text of a JSON path

The parser of `json_path/parse.rs`. A parser returns what it has read and the input behind it;
`<|>` is `alt`, which tries the next parser where one fails.

A key is printed without quotes exactly if the parser of raw keys takes all of it. What follows a
key starts with a dot or a bracket, where that parser stops, so every text is read in one way.
-/

namespace Qdrant

open List

namespace JsonPath

def char (c : Char) : List Char → Option (List Char)
  | [] => none
  | d :: input => if d = c then some input else none

def quotedStr (input : List Char) : Option (List Char × List Char) := do
  let (rest, input) := (← char '"' input).span fun c => c != '\\' && c != '"'
  some (rest, ← char '"' input)

/-- Decimal digits, whose value has to fit a `usize`. -/
def number (input : List Char) : Option (Nat × List Char) :=
  match input.span Char.isDigit with
  | ([], _) => none
  | (digits, input) =>
    let n := Nat.ofDigitChars 10 digits 0
    if n < 2 ^ 64 then some (n, input) else none

/-- Parse until the parser fails. That it takes nothing is an error. -/
def many0 {α : Type} (parser : List Char → Option (α × List Char)) (input : List Char) :
    Option (List α × List Char) :=
  match parser input with
  | none => some ([], input)
  | some (a, rest) =>
    if rest.length < input.length then
      (many0 parser rest).map fun (as, rest) => (a :: as, rest)
    else none
termination_by input.length

/-! ## Runs of characters -/

section

variable {p : Char → Bool} {input run rest : List Char}

theorem span_append (h : ∀ c ∈ run, p c) (hrest : ∀ c ∈ rest.head?, p c = false) :
    (run ++ rest).span p = (run, rest) := by
  rw [span_eq_takeWhile_dropWhile, takeWhile_append_of_pos h, dropWhile_append_of_pos h]
  cases rest with
  | nil => simp
  | cons c rest => simp [hrest c rfl]

theorem of_span_eq (h : input.span p = (run, rest)) : input = run ++ rest ∧ ∀ c ∈ run, p c := by
  rw [span_eq_takeWhile_dropWhile, Prod.mk.injEq] at h
  obtain ⟨rfl, rfl⟩ := h
  exact ⟨takeWhile_append_dropWhile.symm, fun c hc => mem_takeWhile_imp hc⟩

end

theorem number_toDigits {i : Nat} (h : i < 2 ^ 64) (rest : List Char) :
    number (Nat.toDigits 10 i ++ ']' :: rest) = some (i, ']' :: rest) := by
  have hspan : (Nat.toDigits 10 i ++ ']' :: rest).span Char.isDigit =
      (Nat.toDigits 10 i, ']' :: rest) :=
    span_append (fun c => Nat.isDigit_of_mem_toDigits (by decide) (by decide)) (by simp)
  have hne : Nat.toDigits 10 i ≠ [] := Nat.toDigits_ne_nil
  have hvalue : Nat.ofDigitChars 10 (Nat.toDigits 10 i) 0 = i := Nat.ofDigitChars_ten_toDigits
  rw [number, hspan]
  split
  next heq => exact absurd (Prod.mk.inj heq).1 hne
  next heq =>
    cases heq
    rw [hvalue, if_pos h]

variable [CharTable]

def pathItem (input : List Char) : Option (JsonPathItem × List Char) :=
  (do
    let (key, input) ← rawStr (← char '.' input)
    some (.key (.ofList key), input)) <|>
  (do
    let (key, input) ← quotedStr (← char '.' input)
    some (.key (.ofList key), input)) <|>
  (do
    let (i, input) ← number (← char '[' input)
    some (.index i, ← char ']' input)) <|>
  do some (.wildcardIndex, ← char ']' (← char '[' input))

def jsonPath (input : List Char) : Option (JsonPath × List Char) := do
  let (firstKey, input) ← rawStr input <|> quotedStr input
  let (rest, input) ← many0 pathItem input
  some (⟨.ofList firstKey, rest⟩, input)

/-- All of the text has to be a path. -/
def fromStr (s : String) : Option JsonPath :=
  match jsonPath s.toList with
  | some (path, []) => some path
  | _ => none

end JsonPath

/-! ## Plain paths -/

def PlainKey (key : List Char) : Prop :=
  ∀ c ∈ key, c ≠ '\\' ∧ c ≠ '"'

/-- A key has no quote and no backslash, and an index is a `usize`. -/
def JsonPathItem.Plain : JsonPathItem → Prop
  | .key k => PlainKey k.toList
  | .index i => i < 2 ^ 64
  | .wildcardIndex => True

namespace JsonPath

def Plain (path : JsonPath) : Prop :=
  PlainKey path.firstKey.toList ∧ ∀ item ∈ path.rest, item.Plain

variable [CharTable]

/-! ## Reading the printed text -/

theorem rawStr_eq_some_iff {input run rest : List Char} :
    rawStr input = some (run, rest) ↔ run ≠ [] ∧ input.span rawChar = (run, rest) := by
  unfold rawStr
  split
  next heq =>
    rw [heq, Prod.mk.injEq]
    exact iff_of_false nofun fun h => h.1 h.2.1.symm
  next hne =>
    rw [Option.some.injEq]
    refine ⟨fun heq => ⟨?_, heq⟩, And.right⟩
    rintro rfl
    exact hne rest heq

theorem rawChar_delim {c : Char} (hc : c ∈ ['"', '\\', '.', '[']) : rawChar c = false := by
  have hother : ∀ c ∈ ['"', '\\', '.', '['], c ≠ '_' ∧ c ≠ '-' := by simp
  simp [rawChar, CharTable.delim c hc, hother c hc]

/-- What is printed behind the first key. -/
def itemsText (items : List JsonPathItem) : List Char :=
  items.flatMap fun item => (writeItem "" item).toList

theorem foldl_writeItem (items : List JsonPathItem) (text : String) :
    (items.foldl writeItem text).toList = text.toList ++ itemsText items := by
  unfold itemsText
  induction items generalizing text with
  | nil => simp
  | cons item items ih =>
    rw [foldl_cons, ih, flatMap_cons, ← append_assoc]
    cases item <;> simp [writeItem]

/-- It starts where a raw key ends. -/
theorem head?_itemsText (items : List JsonPathItem) :
    ∀ c ∈ (itemsText items).head?, rawChar c = false := by
  rcases items with _ | ⟨_ | _ | _, items⟩ <;> simp [itemsText, writeItem, rawChar_delim]

/-- A key is read back, printed with quotes or without. -/
theorem key_writeKey {key : String} {items : List JsonPathItem} (hkey : PlainKey key.toList)
    {input : List Char} (hinput : input = (writeKey key).toList ++ itemsText items) :
    (rawStr input).or (quotedStr input) = some (key.toList, itemsText items) := by
  rw [writeKey] at hinput
  split at hinput
  next =>
    have hinput : input = '"' :: (key.toList ++ '"' :: itemsText items) := by simpa using hinput
    have hraw : ([] ++ input).span rawChar = ([], input) :=
      span_append (by simp) (by simp [hinput, rawChar_delim])
    rw [nil_append] at hraw
    have hspan : (key.toList ++ '"' :: itemsText items).span (fun c => c != '\\' && c != '"') =
        (key.toList, '"' :: itemsText items) :=
      span_append (by simpa [PlainKey] using hkey) (by simp)
    rw [rawStr, hraw, hinput]
    simp only [quotedStr, char, if_pos, Option.bind_eq_bind, Option.bind_some, hspan]
    rfl
  next hplain =>
    unfold keyNeedsQuoting at hplain
    split at hplain
    next heq =>
      obtain ⟨hne, hspan⟩ := rawStr_eq_some_iff.mp heq
      obtain ⟨hall, hraw⟩ := of_span_eq hspan
      have hend := span_append hraw (head?_itemsText items)
      rw [hinput, hall, append_nil, rawStr_eq_some_iff.mpr ⟨hne, hend⟩]
      rfl
    next => exact absurd rfl hplain

theorem pathItem_writeItem {item : JsonPathItem} (items : List JsonPathItem) (h : item.Plain) :
    pathItem ((writeItem "" item).toList ++ itemsText items) = some (item, itemsText items) := by
  cases item with
  | key key =>
    have hkey : _ = some (key.toList, itemsText items) := key_writeKey h rfl
    rw [Option.or_eq_some_iff] at hkey
    rcases hkey with hraw | ⟨hraw, hquoted⟩
    · simp [writeItem, pathItem, char, hraw]
    · simp [writeItem, pathItem, char, hraw, hquoted]
  | index i =>
    have hi : i < 2 ^ 64 := h
    simp [writeItem, pathItem, char, number_toDigits hi]
  | wildcardIndex => simp [writeItem, pathItem, char, number]

theorem many0_pathItem {items : List JsonPathItem} (h : ∀ item ∈ items, item.Plain) :
    many0 pathItem (itemsText items) = some (items, []) := by
  induction items with
  | nil =>
    rw [many0]
    rfl
  | cons item items ih =>
    rw [forall_mem_cons] at h
    have hpos : 0 < (writeItem "" item).toList.length := by cases item <;> simp [writeItem]
    rw [itemsText, flatMap_cons, ← itemsText, many0, pathItem_writeItem items h.1]
    simp [hpos, ih h.2]

/-! ## What is read -/

theorem key_plain {input key rest : List Char}
    (h : rawStr input = some (key, rest) ∨ quotedStr input = some (key, rest)) :
    PlainKey (String.ofList key).toList := by
  rw [String.toList_ofList]
  intro c hc
  rcases h with h | h
  · have hraw := (of_span_eq (rawStr_eq_some_iff.mp h).2).2 c hc
    constructor <;> rintro rfl <;> simp [rawChar_delim] at hraw
  · simp only [quotedStr, Option.bind_eq_bind, Option.bind_eq_some_iff] at h
    obtain ⟨input, -, rest', -, heq⟩ := h
    cases heq
    simpa using (of_span_eq rfl).2 c hc

theorem pathItem_plain {input rest : List Char} {item : JsonPathItem}
    (h : pathItem input = some (item, rest)) : item.Plain := by
  simp only [pathItem, Option.orElse_eq_orElse, Option.orElse_eq_or, Option.or_eq_some_iff,
    Option.bind_eq_bind, Option.bind_eq_some_iff, Option.some.injEq, Prod.mk.injEq] at h
  obtain ⟨_, -, _, hkey, rfl, -⟩ | ⟨-, ⟨_, -, _, hkey, rfl, -⟩ |
    ⟨-, ⟨_, -, ⟨i, _⟩, hi, _, -, rfl, -⟩ | ⟨-, _, -, _, -, rfl, -⟩⟩⟩ := h
  · exact key_plain (.inl hkey)
  · exact key_plain (.inr hkey)
  · change i < 2 ^ 64
    grind [number]
  · trivial

theorem many0_plain {input rest : List Char} {items : List JsonPathItem}
    (h : many0 pathItem input = some (items, rest)) : ∀ item ∈ items, item.Plain := by
  fun_induction many0 generalizing items rest with
  | case1 =>
    cases h
    exact forall_mem_nil _
  | case2 input item rest' heq hlt ih =>
    obtain ⟨⟨items, _⟩, hrest, heq'⟩ := Option.map_eq_some_iff.mp h
    cases heq'
    exact forall_mem_cons.mpr ⟨pathItem_plain heq, ih hrest⟩
  | case3 => cases h

end JsonPath

end Qdrant
