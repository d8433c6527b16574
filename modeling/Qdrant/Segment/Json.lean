-- SUMMARY: JSON documents, JSON paths and the payload updates that are built from them.
import Mathlib.Data.List.Basic
import Mathlib.Data.List.Nodup

/-!
# Payloads

A payload is a JSON object. Updates address values in it with a `JsonPath`: a first
key, and then keys, indices and wildcards (`lib/segment/src/json_path/mod.rs`,
`merge_map` in `common/utils.rs` and `Payload` in `types.rs`).

An object is the list of its fields. Numbers are kept as their text.
-/

namespace Qdrant

open List

inductive Value where
  | null
  | bool (b : Bool)
  | number (text : String)
  | string (s : String)
  | array (items : List Value)
  | object (fields : List (String × Value))

/-- The fields of a JSON object. -/
abbrev JsonMap := List (String × Value)

mutual

/-- Equality of documents, with the order of the fields. -/
def Value.decEq : (a b : Value) → Decidable (a = b)
  | .null, .null => .isTrue rfl
  | .bool a, .bool b => decidable_of_iff (a = b) (by simp)
  | .number a, .number b => decidable_of_iff (a = b) (by simp)
  | .string a, .string b => decidable_of_iff (a = b) (by simp)
  | .array a, .array b =>
    have := Value.decEqItems a b
    decidable_of_iff (a = b) (by simp)
  | .object a, .object b =>
    have := Value.decEqFields a b
    decidable_of_iff (a = b) (by simp)
  | .null, .bool _ | .null, .number _ | .null, .string _ | .null, .array _ | .null, .object _
  | .bool _, .null | .bool _, .number _ | .bool _, .string _ | .bool _, .array _
  | .bool _, .object _ | .number _, .null | .number _, .bool _ | .number _, .string _
  | .number _, .array _ | .number _, .object _ | .string _, .null | .string _, .bool _
  | .string _, .number _ | .string _, .array _ | .string _, .object _ | .array _, .null
  | .array _, .bool _ | .array _, .number _ | .array _, .string _ | .array _, .object _
  | .object _, .null | .object _, .bool _ | .object _, .number _ | .object _, .string _
  | .object _, .array _ => .isFalse (by simp)

def Value.decEqItems : (a b : List Value) → Decidable (a = b)
  | [], [] => .isTrue rfl
  | x :: a, y :: b =>
    have := Value.decEq x y
    have := Value.decEqItems a b
    decidable_of_iff (x = y ∧ a = b) (by simp)
  | [], _ :: _ | _ :: _, [] => .isFalse (by simp)

def Value.decEqFields : (a b : List (String × Value)) → Decidable (a = b)
  | [], [] => .isTrue rfl
  | (k, x) :: a, (l, y) :: b =>
    have := Value.decEq x y
    have := Value.decEqFields a b
    decidable_of_iff ((k = l ∧ x = y) ∧ a = b) (by simp)
  | [], _ :: _ | _ :: _, [] => .isFalse (by simp)

end

instance : DecidableEq Value := Value.decEq

inductive JsonPathItem where
  | key (key : String)
  | index (i : Nat)
  | wildcardIndex
deriving DecidableEq

structure JsonPath where
  firstKey : String
  rest : List JsonPathItem
deriving DecidableEq

/-- The letters and digits (`char::is_alphanumeric`), a table of the standard library. It has none
of the characters that end a key. -/
class CharTable where
  isAlphanumeric : Char → Bool
  delim : ∀ c ∈ ['"', '\\', '.', '['], isAlphanumeric c = false

/-- The texts of errors are printed with the ASCII letters. -/
instance : CharTable := ⟨Char.isAlphanum, by simp⟩

section

variable [CharTable]

def rawChar (c : Char) : Bool :=
  CharTable.isAlphanumeric c || c == '_' || c == '-'

def rawStr (input : List Char) : Option (List Char × List Char) :=
  match input.span rawChar with
  | ([], _) => none
  | parsed => some parsed

/-- The parser of keys does not take all of it. -/
def keyNeedsQuoting (key : String) : Bool :=
  match rawStr key.toList with
  | some (_, []) => false
  | _ => true

def writeKey (key : String) : String :=
  if keyNeedsQuoting key then "\"" ++ key ++ "\"" else key

def writeItem (text : String) : JsonPathItem → String
  | .key key => text ++ "." ++ writeKey key
  | .index i => text ++ "[" ++ toString i ++ "]"
  | .wildcardIndex => text ++ "[]"

/-- The text of a path. -/
def JsonPath.text (path : JsonPath) : String :=
  path.rest.foldl writeItem (writeKey path.firstKey)

end

/-! ## Fields of an object -/

namespace JsonMap

section

variable (map : JsonMap) (key : String)

def get? : Option Value :=
  map.lookup key

/-- Set a field: in its place if the object has it, else as the last one. -/
def insert (value : Value) : JsonMap :=
  if key ∈ map.map Prod.fst then
    map.map fun field => (field.1, if field.1 = key then value else field.2)
  else map ++ [(key, value)]

def remove : JsonMap :=
  map.filter fun field => field.1 ≠ key

end

/-- Merge one field into an object: a null removes the field. -/
def mergeField (dest : JsonMap) (field : String × Value) : JsonMap :=
  match field.2 with
  | .null => dest.remove field.1
  | value => dest.insert field.1 value

/-- Merge a source object into a destination. -/
def merge (dest source : JsonMap) : JsonMap :=
  source.foldl mergeField dest

/-- Change the value of a field, which starts as null if the object does not have it. -/
def modify (map : JsonMap) (key : String) (f : Value → Value) : JsonMap :=
  match map.get? key with
  | some value => map.insert key (f value)
  | none => map.insert key (f .null)

/-- The keys are distinct, as in every JSON object. -/
def NodupKeys (map : JsonMap) : Prop :=
  (map.map Prod.fst).Nodup

variable {map : JsonMap}

theorem NodupKeys.insert (h : map.NodupKeys) (key : String) (value : Value) :
    (map.insert key value).NodupKeys := by
  unfold JsonMap.insert NodupKeys
  split
  · rw [map_map]
    exact h
  · next hnew =>
    rw [map_append, map_singleton, nodup_append]
    refine ⟨h, nodup_singleton _, fun a ha b hb heq => hnew ?_⟩
    rw [heq, mem_singleton.mp hb] at ha
    exact ha

theorem NodupKeys.remove (h : map.NodupKeys) (key : String) : (map.remove key).NodupKeys :=
  h.sublist (filter_sublist.map _)

theorem NodupKeys.mergeField (h : map.NodupKeys) (field : String × Value) :
    (map.mergeField field).NodupKeys := by
  unfold JsonMap.mergeField
  split
  · exact h.remove _
  · exact h.insert _ _

theorem NodupKeys.merge {dest : JsonMap} (h : dest.NodupKeys) (source : JsonMap) :
    (dest.merge source).NodupKeys := by
  induction source generalizing dest with
  | nil => exact h
  | cons field source ih => exact ih (h.mergeField field)

theorem NodupKeys.modify (h : map.NodupKeys) (key : String) (f : Value → Value) :
    (map.modify key f).NodupKeys := by
  unfold JsonMap.modify
  split <;> exact h.insert _ _

/-- Merging never stores a null. -/
theorem ne_null_of_mem_merge {dest source : JsonMap} (hdest : ∀ field ∈ dest, field.2 ≠ .null) :
    ∀ field ∈ dest.merge source, field.2 ≠ .null := by
  induction source generalizing dest with
  | nil => exact hdest
  | cons field source ih =>
    refine ih fun field' hmem => ?_
    unfold mergeField at hmem
    split at hmem
    · exact hdest field' (mem_of_mem_filter hmem)
    · next hnull =>
      unfold JsonMap.insert at hmem
      split at hmem
      · obtain ⟨old, hold, rfl⟩ := mem_map.mp hmem
        split
        · exact hnull
        · exact hdest old hold
      · rcases mem_append.mp hmem with hmem | hmem
        · exact hdest field' hmem
        · rw [mem_singleton.mp hmem]
          exact hnull

/-- Merging new fields without nulls appends them. -/
theorem merge_eq_append {dest source : JsonMap} (hkeys : NodupKeys (dest ++ source))
    (hnull : ∀ field ∈ source, field.2 ≠ .null) : dest.merge source = dest ++ source := by
  unfold JsonMap.merge
  induction source generalizing dest with
  | nil => exact (append_nil dest).symm
  | cons field source ih =>
    obtain ⟨key, value⟩ := field
    have hvalue : value ≠ .null := hnull _ mem_cons_self
    have hnew : key ∉ dest.map Prod.fst := by
      unfold NodupKeys at hkeys
      rw [map_append, map_cons, nodup_append] at hkeys
      exact fun hmem => hkeys.2.2 key hmem key mem_cons_self rfl
    have hstep : dest.mergeField (key, value) = dest ++ [(key, value)] := by
      cases value with
      | null => exact absurd rfl hvalue
      | _ => exact if_neg hnew
    rw [foldl_cons, hstep, ih, append_assoc, singleton_append]
    · rw [append_assoc, singleton_append]
      exact hkeys
    · exact fun field hmem => hnull field (mem_cons_of_mem _ hmem)

end JsonMap

/-! ## Paths -/

namespace Value

/-- The fields of an object, none of anything else. -/
def fieldsOrEmpty : Value → JsonMap
  | .object fields => fields
  | _ => []

/-- Merge fields into the object at the end of a path. What does not have the shape that the
path asks for is replaced on the way. -/
def set : List JsonPathItem → Value → JsonMap → Value
  | [], dest, source => .object (dest.fieldsOrEmpty.merge source)
  | .key key :: rest, dest, source =>
    .object (dest.fieldsOrEmpty.modify key fun value => set rest value source)
  | .index i :: rest, .array items, source =>
    .array (items.modify i fun value => set rest value source)
  | .index _ :: _, _, _ => .array []
  | .wildcardIndex :: rest, .array items, source =>
    .array (items.map fun value => set rest value source)
  | .wildcardIndex :: _, _, _ => .array []

/-- Remove the value at the end of a path. Elements of an array are not removed one by one. -/
def remove : JsonPathItem → List JsonPathItem → Value → Value
  | .key key, [], .object fields => .object (JsonMap.remove fields key)
  | .wildcardIndex, [], .array _ => .array []
  | .key key, next :: rest, .object fields =>
    match JsonMap.get? fields key with
    | some value => .object (JsonMap.insert fields key (remove next rest value))
    | none => .object fields
  | .index i, next :: rest, .array items => .array (items.modify i (remove next rest))
  | .wildcardIndex, next :: rest, .array items => .array (items.map (remove next rest))
  | _, _, value => value

end Value

/-! ## Payloads -/

/-- A payload: a JSON object. -/
structure Payload where
  fields : JsonMap
  nodup : fields.NodupKeys
deriving DecidableEq

namespace Payload

@[ext] theorem ext {p q : Payload} (h : p.fields = q.fields) : p = q := by
  cases p; cases q; cases h; rfl

/-- The payload without fields. -/
def empty : Payload := ⟨[], List.nodup_nil⟩

/-- Merge the fields of another payload. -/
def merge (p value : Payload) : Payload :=
  ⟨p.fields.merge value.fields, p.nodup.merge _⟩

/-- Merge the fields of another payload into the object at a path. -/
def mergeByKey (p value : Payload) (key : JsonPath) : Payload :=
  ⟨p.fields.modify key.firstKey fun v => Value.set key.rest v value.fields, p.nodup.modify _ _⟩

/-- Remove the value at a path. -/
def remove (p : Payload) (path : JsonPath) : Payload :=
  match path.rest with
  | [] => ⟨p.fields.remove path.firstKey, p.nodup.remove _⟩
  | next :: rest =>
    match p.fields.get? path.firstKey with
    | some value => ⟨p.fields.insert path.firstKey (value.remove next rest), p.nodup.insert _ _⟩
    | none => p

/-- There is nothing to remove from an empty payload. -/
theorem remove_empty (path : JsonPath) : empty.remove path = empty := by
  unfold remove
  split
  · rfl
  · rfl

/-- A payload without nulls is what is left of it when it is merged into nothing. -/
theorem merge_empty_iff (p : Payload) :
    empty.merge p = p ↔ ∀ field ∈ p.fields, field.2 ≠ .null := by
  constructor
  · intro h
    rw [← h]
    exact JsonMap.ne_null_of_mem_merge (by simp [empty])
  · intro h
    exact Payload.ext (JsonMap.merge_eq_append (by exact p.nodup) h)

end Payload

end Qdrant
