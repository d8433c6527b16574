-- SUMMARY: The values at a JSON path, and which updates of a document leave them alone.
import Qdrant.Segment.Json

/-!
# Values at a path

`value_get` collects the values at a path. When a payload is merged into a document,
`is_affected_by_value_set` decides from the paths alone whether the values at another
path can change (`lib/segment/src/json_path/mod.rs`). If it says no, they do not:
`JsonPath.getValue_set`.
-/

namespace Qdrant

open Value JsonMap List

/-! ## Fields of an object -/

namespace JsonMap

variable {map : JsonMap} {key k : String} {value : Value}

theorem get?_eq_none (h : key ∉ map.map Prod.fst) : map.get? key = none := by
  refine lookup_eq_none_iff.mpr fun field hfield => bne_iff_ne.mpr fun heq => h ?_
  rw [heq]
  exact mem_map_of_mem hfield

theorem get?_insert :
    (map.insert key value).get? k = if k = key then some value else map.get? k := by
  unfold insert get?
  split
  next hmem =>
    induction map with
    | nil => cases hmem
    | cons field map ih =>
      obtain ⟨name, old⟩ := field
      simp only [map_cons, lookup_cons]
      by_cases hname : k = name
      · subst hname
        by_cases hk : k = key <;> simp [hk]
      · have hne : (k == name) = false := beq_false_of_ne hname
        simp only [hne]
        by_cases hrest : key ∈ map.map Prod.fst
        · exact ih hrest
        · have hkey : key = name := (mem_cons.mp hmem).resolve_right hrest
          have hother : ∀ field ∈ map, ¬ field.1 = key := fun field hfield heq =>
            hrest (heq ▸ mem_map_of_mem hfield)
          rw [map_congr_left fun field hfield => by rw [if_neg (hother field hfield)],
            map_id', if_neg (hkey ▸ hname)]
  next hnew =>
    rw [lookup_append]
    by_cases hk : k = key
    · subst hk
      have hnone : map.lookup k = none := get?_eq_none hnew
      simp [hnone]
    · have hne : (k == key) = false := beq_false_of_ne hk
      simp [lookup_cons, hne, hk]

theorem get?_remove : (map.remove key).get? k = if k = key then none else map.get? k := by
  unfold remove get?
  induction map with
  | nil => simp
  | cons field map ih =>
    obtain ⟨name, old⟩ := field
    by_cases hname : name = key
    · subst hname
      rw [filter_cons_of_neg (by simp), ih, lookup_cons]
      by_cases hk : k = name
      · simp [hk]
      · simp [beq_false_of_ne hk]
    · rw [filter_cons_of_pos (by simpa using hname), lookup_cons, lookup_cons, ih]
      by_cases hk : k = name
      · simp [hk, hname]
      · simp [beq_false_of_ne hk]

theorem modify_eq (f : Value → Value) :
    map.modify key f = map.insert key (f ((map.get? key).getD .null)) := by
  unfold modify
  cases map.get? key <;> rfl

theorem get?_modify (f : Value → Value) :
    (map.modify key f).get? k = if k = key then some (f ((map.get? key).getD .null)) else map.get? k := by
  rw [modify_eq]
  exact get?_insert

/-- Merging leaves the fields alone that the source does not have. -/
theorem get?_merge_of_notMem {source : JsonMap} (h : k ∉ source.map Prod.fst) :
    (map.merge source).get? k = map.get? k := by
  unfold merge
  induction source generalizing map with
  | nil => rfl
  | cons field source ih =>
    rw [map_cons, mem_cons, not_or] at h
    rw [foldl_cons, ih h.2, mergeField]
    split
    · rw [get?_remove, if_neg h.1]
    · rw [get?_insert, if_neg h.1]

/-! ### Merging twice -/

variable {field : String × Value}

theorem mem_insert : field ∈ map.insert key value ↔ field = (key, value) ∨ field ∈ map ∧ field.1 ≠ key := by
  unfold insert
  split
  next hmem =>
    rw [mem_map]
    constructor
    · rintro ⟨old, hold, rfl⟩
      by_cases heq : old.1 = key
      · exact .inl (by rw [if_pos heq, heq])
      · exact .inr ⟨by rwa [if_neg heq], heq⟩
    · rintro (rfl | ⟨hfield, hne⟩)
      · obtain ⟨old, hold, rfl⟩ := mem_map.mp hmem
        exact ⟨old, hold, by rw [if_pos rfl]⟩
      · exact ⟨field, hfield, by rw [if_neg hne]⟩
  next hnew =>
    rw [mem_append, mem_singleton, or_comm]
    refine or_congr_right (and_iff_left_of_imp fun hfield heq => hnew ?_).symm
    exact heq ▸ mem_map_of_mem hfield

/-- The field has this value, or it is missing if the value is null. -/
def Merged (map : JsonMap) (field : String × Value) : Prop :=
  ∀ v, (field.1, v) ∈ map ↔ v = field.2 ∧ v ≠ .null

theorem insert_self (h : ∀ v, (key, v) ∈ map ↔ v = value) : map.insert key value = map := by
  have hmem := mem_map_of_mem (f := Prod.fst) ((h value).mpr rfl)
  rw [insert, if_pos hmem]
  refine (map_congr_left fun field hfield => ?_).trans (map_id _)
  split
  next heq => rw [← (h field.2).mp (heq ▸ hfield)]; rfl
  next => rfl

theorem insert_insert : (map.insert key value).insert key value = map.insert key value :=
  insert_self fun v => by simp [mem_insert]

theorem merged_mergeField : (map.mergeField field).Merged field := by
  intro v
  obtain ⟨name, value⟩ := field
  unfold mergeField
  split
  next hnull => simp_all [remove]
  next hvalue =>
    rw [mem_insert]
    simp
    exact fun h => h ▸ hvalue

theorem Merged.mergeField {other : String × Value} (h : map.Merged field)
    (hne : field.1 ≠ other.1) : (map.mergeField other).Merged field := by
  intro v
  rw [← h v]
  obtain ⟨name, value⟩ := other
  unfold JsonMap.mergeField
  split
  · simp [JsonMap.remove, hne]
  · simp [mem_insert, hne]

theorem Merged.eq (h : map.Merged field) : map.mergeField field = map := by
  unfold JsonMap.mergeField
  split
  next hnull =>
    refine filter_eq_self.mpr fun other hother => decide_eq_true fun heq => ?_
    obtain ⟨hvalue, hne⟩ := (h other.2).mp (heq ▸ hother)
    exact hne (hvalue.trans hnull)
  next hvalue => exact insert_self fun v => (h v).trans (and_iff_left_of_imp fun heq => heq ▸ hvalue)

variable {dest source : JsonMap}

theorem Merged.merge (h : map.Merged field) (hnew : field.1 ∉ source.map Prod.fst) :
    (map.merge source).Merged field := by
  induction source generalizing map with
  | nil => exact h
  | cons other source ih =>
    rw [map_cons, mem_cons, not_or] at hnew
    exact ih (h.mergeField hnew.1) hnew.2

theorem merged_merge (hsource : source.NodupKeys) : ∀ field ∈ source, (dest.merge source).Merged field := by
  induction source generalizing dest with
  | nil => simp
  | cons other source ih =>
    obtain ⟨hnew, hnodup⟩ := nodup_cons.mp hsource
    exact forall_mem_cons.mpr ⟨merged_mergeField.merge hnew, ih hnodup⟩

theorem merge_self (h : ∀ field ∈ source, dest.Merged field) : dest.merge source = dest := by
  unfold merge
  induction source with
  | nil => rfl
  | cons other source ih =>
    obtain ⟨hother, hsource⟩ := forall_mem_cons.mp h
    rw [foldl_cons, hother.eq, ih hsource]

theorem modify_modify {f : Value → Value} (hf : ∀ value, f (f value) = f value) :
    (map.modify key f).modify key f = map.modify key f := by
  rw [modify_eq, get?_modify, if_pos rfl, Option.getD_some, hf, modify_eq, insert_insert]

end JsonMap

/-! ## Getting values -/

/-- `value_get`: the values at the end of a path. -/
def Value.get : List JsonPathItem → Value → List Value
  | [], value => [value]
  | .key key :: rest, .object fields =>
    match JsonMap.get? fields key with
    | some value => Value.get rest value
    | none => []
  | .index i :: rest, .array items =>
    match items[i]? with
    | some value => Value.get rest value
    | none => []
  | .wildcardIndex :: rest, .array items => items.flatMap (Value.get rest)
  | _ :: _, _ => []

/-- The values at the end of a path, of a field that may be missing. -/
def Value.getField (rest : List JsonPathItem) (field : Option Value) : List Value :=
  match field with
  | some value => value.get rest
  | none => []

def Payload.getValue (payload : Payload) (path : JsonPath) : List Value :=
  Value.getField path.rest (payload.fields.get? path.firstKey)

theorem Value.get_key {key : String} {rest : List JsonPathItem} {value : Value} :
    value.get (.key key :: rest) = getField rest (JsonMap.get? value.fieldsOrEmpty key) := by
  cases value <;> rfl

/-! ## Paths that an update affects -/

def JsonMap.containsKey (map : JsonMap) (key : String) : Bool :=
  decide (key ∈ map.map Prod.fst)

/-- The loop of `is_affected_by_value_set` over an indexed path and the path to set. -/
def affectedItems (payload : JsonMap) : List JsonPathItem → List JsonPathItem → Bool
  | [], _ => true
  | .key a :: _, [] => payload.containsKey a
  | .index _ :: _, [] => true
  | .wildcardIndex :: _, [] => true
  | .key a :: as, .key b :: bs => if a = b then affectedItems payload as bs else false
  | .index a :: as, .index b :: bs => if a = b then affectedItems payload as bs else false
  | .wildcardIndex :: as, .wildcardIndex :: bs => affectedItems payload as bs
  | .index _ :: as, .wildcardIndex :: bs => affectedItems payload as bs
  | .wildcardIndex :: as, .index _ :: bs => affectedItems payload as bs
  -- paths with incompatible types
  | .key _ :: _, .index _ :: _ => true
  | .key _ :: _, .wildcardIndex :: _ => true
  | .index _ :: _, .key _ :: _ => true
  | .wildcardIndex :: _, .key _ :: _ => true

def JsonPath.isAffectedByValueSet (path : JsonPath) (payload : Payload)
    (pathToSet : Option JsonPath) : Bool :=
  match pathToSet with
  | none => payload.fields.containsKey path.firstKey
  | some pathToSet =>
    if path.firstKey ≠ pathToSet.firstKey then false
    else affectedItems payload.fields path.rest pathToSet.rest

def JsonPathItem.compatible : JsonPathItem → JsonPathItem → Bool
  | .key a, .key b => a = b
  | .index a, .index b => a = b
  | .wildcardIndex, .wildcardIndex => true
  | .index _, .wildcardIndex => true
  | .wildcardIndex, .index _ => true
  | _, _ => false

/-- One of the paths is a prefix of the other. -/
def JsonPath.compatible (path other : JsonPath) : Bool :=
  if path.firstKey ≠ other.firstKey then false
  else (path.rest.zip other.rest).all fun (a, b) => a.compatible b

def JsonPath.isAffectedByValueRemove (path pathToRemove : JsonPath) : Bool :=
  pathToRemove.compatible path

/-- `value_set` on a payload. -/
def Payload.valueSet (dest source : Payload) (path : Option JsonPath) : Payload :=
  match path with
  | none => dest.merge source
  | some path => dest.mergeByKey source path

variable {payload : JsonMap}

/-- A field that is missing and one that is null have the same values. -/
theorem getField_getD {as bs : List JsonPathItem}
    (h : affectedItems payload as bs = false) (field : Option Value) :
    (field.getD .null).get as = Value.getField as field := by
  cases field with
  | none =>
    cases as with
    | nil => simp [affectedItems] at h
    | cons item as => cases item <;> rfl
  | some value => rfl

/-- A change of one element that is not seen in what is collected. -/
theorem flatMap_modify {f : Value → Value} {g : Value → List Value} (h : ∀ value, g (f value) = g value)
    (items : List Value) (i : Nat) : (items.modify i f).flatMap g = items.flatMap g := by
  induction items generalizing i with
  | nil => rw [modify_nil]
  | cons item items ih =>
    cases i with
    | zero => simp [h]
    | succ i => simp [ih]

section

variable {f : Value → Value} {item a : JsonPathItem} {as bs : List JsonPathItem}

theorem Value.get_modify {i : Nat}
    (h : (JsonPathItem.index i).compatible a = true → ∀ value, (f value).get as = value.get as)
    (items : List Value) : (Value.array (items.modify i f)).get (a :: as) = (Value.array items).get (a :: as) := by
  cases a with
  | key k => rfl
  | wildcardIndex => exact flatMap_modify (h rfl) items i
  | index j =>
    simp only [get, getElem?_modify]
    cases items[j]? with
    | none => rfl
    | some value =>
      by_cases heq : i = j
      · simpa [heq] using h (decide_eq_true heq) value
      · simp [heq]

theorem Value.get_map
    (h : JsonPathItem.wildcardIndex.compatible a = true → ∀ value, (f value).get as = value.get as)
    (items : List Value) : (Value.array (items.map f)).get (a :: as) = (Value.array items).get (a :: as) := by
  cases a with
  | key k => rfl
  | wildcardIndex =>
    simp only [get, flatMap_map]
    exact congrArg items.flatMap (funext (h rfl))
  | index j =>
    simp only [get, getElem?_map]
    cases items[j]? with
    | none => rfl
    | some value => exact h rfl value

theorem affectedItems_tail (h : affectedItems payload (a :: as) (item :: bs) = false)
    (hitem : item.compatible a = true) : affectedItems payload as bs = false := by
  cases item <;> cases a <;> simp_all [affectedItems, JsonPathItem.compatible]

/-- The values at an indexed path are the same after a payload is set at a path that does not
affect it. -/
theorem Value.get_set (h : affectedItems payload as bs = false) (dest : Value) :
    (Value.set bs dest payload).get as = dest.get as := by
  induction bs generalizing as dest with
  | nil =>
    cases as with
    | nil => simp [affectedItems] at h
    | cons a as =>
      cases a with
      | index i | wildcardIndex => simp [affectedItems] at h
      | key k =>
        rw [affectedItems, containsKey, decide_eq_false_iff_not] at h
        rw [get_key, get_key]
        exact congrArg _ (get?_merge_of_notMem h)
  | cons item bs ih =>
    cases as with
    | nil => simp [affectedItems] at h
    | cons a as =>
      cases item with
      | key key =>
        cases a with
        | index i | wildcardIndex => simp [affectedItems] at h
        | key k =>
          rw [get_key, get_key]
          change getField as (get? (modify _ key _) k) = _
          rw [get?_modify]
          split
          next heq =>
            subst heq
            have hrest := affectedItems_tail h (decide_eq_true rfl)
            exact (ih hrest _).trans (getField_getD hrest _)
          next => rfl
      | index i =>
        cases dest with
        | array items => exact get_modify (fun hitem => ih (affectedItems_tail h hitem)) items
        | _ =>
          cases a with
          | key k => simp [affectedItems] at h
          | _ => rfl
      | wildcardIndex =>
        cases dest with
        | array items => exact get_map (fun hitem => ih (affectedItems_tail h hitem)) items
        | _ =>
          cases a with
          | key k => simp [affectedItems] at h
          | _ => rfl

/-- The values at an indexed path are the same after a value is removed at a path that is not
compatible. -/
theorem Value.get_remove {rest : List JsonPathItem}
    (h : (((item :: rest).zip (a :: as)).all fun (a, b) => a.compatible b) = false) (value : Value) :
    (value.remove item rest).get (a :: as) = value.get (a :: as) := by
  induction rest generalizing item a as value with
  | nil =>
    have hitem : item.compatible a = false := by simpa using h
    cases item with
    | key key =>
      cases value with
      | object fields =>
        cases a with
        | key k =>
          rw [get_key]
          refine congrArg _ (get?_remove.trans (if_neg ?_))
          exact fun heq => of_decide_eq_false hitem heq.symm
        | _ => rfl
      | _ => rfl
    | index i => cases value <;> rfl
    | wildcardIndex =>
      cases a with
      | key k => cases value <;> rfl
      | _ => cases hitem
  | cons next rest ih =>
    have hrest (hitem : item.compatible a = true) (value : Value) :
        (value.remove next rest).get as = value.get as := by
      cases as with
      | nil => simp [hitem] at h
      | cons b as => exact ih (by simpa [hitem] using h) value
    cases item with
    | key key =>
      cases value with
      | object fields =>
        rw [remove]
        cases hfield : get? fields key with
        | none => rfl
        | some old =>
          cases a with
          | key k =>
            refine congrArg (getField as) get?_insert |>.trans ?_
            split
            next heq =>
              subst heq
              exact (hrest (decide_eq_true rfl) old).trans (congrArg (getField as) hfield.symm)
            next => rfl
          | _ => rfl
      | _ => rfl
    | index i =>
      cases value with
      | array items => exact get_modify hrest items
      | _ => rfl
    | wildcardIndex =>
      cases value with
      | array items => exact get_map hrest items
      | _ => rfl

end

theorem JsonPath.getValue_set {path : JsonPath} {source : Payload} {pathToSet : Option JsonPath}
    (h : path.isAffectedByValueSet source pathToSet = false) (dest : Payload) :
    (dest.valueSet source pathToSet).getValue path = dest.getValue path := by
  cases pathToSet with
  | none =>
    rw [isAffectedByValueSet, containsKey, decide_eq_false_iff_not] at h
    exact congrArg _ (get?_merge_of_notMem h)
  | some pathToSet =>
    simp only [Payload.getValue, Payload.valueSet, Payload.mergeByKey, get?_modify]
    rw [isAffectedByValueSet] at h
    split
    next heq =>
      rw [if_neg (not_not.mpr heq)] at h
      rw [heq]
      exact (get_set h _).trans (getField_getD h _)
    next => rfl

theorem JsonPath.getValue_remove {path pathToRemove : JsonPath}
    (h : path.isAffectedByValueRemove pathToRemove = false) (dest : Payload) :
    (dest.remove pathToRemove).getValue path = dest.getValue path := by
  obtain ⟨key, rest⟩ := pathToRemove
  obtain ⟨firstKey, as⟩ := path
  unfold isAffectedByValueRemove JsonPath.compatible at h
  unfold Payload.getValue Payload.remove
  cases rest with
  | nil =>
    have hne : firstKey ≠ key := by simpa [eq_comm] using h
    exact congrArg _ (get?_remove.trans (if_neg hne))
  | cons next rest =>
    cases hfield : dest.fields.get? key with
    | none => rfl
    | some value =>
      refine (congrArg _ get?_insert).trans ?_
      split
      next heq =>
        subst heq
        rw [hfield]
        cases as with
        | nil => simp at h
        | cons a as => exact get_remove (by simpa using h) value
      next => rfl

/-- An update that does not affect an indexed path leaves its values alone. -/
theorem JsonPath.getValue_of_not_affected (path : JsonPath) (dest source : Payload)
    (pathToSet : Option JsonPath) (pathToRemove : JsonPath) :
    (path.isAffectedByValueSet source pathToSet = false →
      (dest.valueSet source pathToSet).getValue path = dest.getValue path) ∧
    (path.isAffectedByValueRemove pathToRemove = false →
      (dest.remove pathToRemove).getValue path = dest.getValue path) :=
  ⟨fun h => getValue_set h dest, fun h => getValue_remove h dest⟩

/-- Setting a payload again at the same path changes nothing. -/
theorem Value.set_set {source : JsonMap} (hsource : source.NodupKeys) (path : List JsonPathItem)
    (dest : Value) : Value.set path (Value.set path dest source) source = Value.set path dest source := by
  induction path generalizing dest with
  | nil => exact congrArg object (merge_self (merged_merge hsource))
  | cons item rest ih =>
    cases item with
    | key key => exact congrArg object (modify_modify ih)
    | index i => cases dest <;> simp [set, modify_modify_eq, Function.comp_def, ih]
    | wildcardIndex => cases dest <;> simp [set, ih]

theorem JsonMap.remove_remove {map : JsonMap} {key : String} : (map.remove key).remove key = map.remove key := by
  simp [remove]

theorem Value.remove_remove (item : JsonPathItem) (rest : List JsonPathItem) (value : Value) :
    (value.remove item rest).remove item rest = value.remove item rest := by
  induction rest generalizing item value with
  | nil =>
    cases item with
    | key key =>
      cases value with
      | object fields => exact congrArg object JsonMap.remove_remove
      | _ => rfl
    | index i => cases value <;> rfl
    | wildcardIndex => cases value <;> rfl
  | cons next rest ih =>
    cases item with
    | key key =>
      cases value with
      | object fields =>
        cases hfield : JsonMap.get? fields key with
        | none => simp [remove, hfield]
        | some old => simp [remove, hfield, JsonMap.get?_insert, ih, JsonMap.insert_insert]
      | _ => rfl
    | index i => cases value <;> simp [remove, modify_modify_eq, Function.comp_def, ih]
    | wildcardIndex => cases value <;> simp [remove, ih]

/-- Replaying an update of a payload changes nothing. -/
theorem Payload.update_again (dest source : Payload) (path : Option JsonPath) (pathToRemove : JsonPath) :
    (dest.valueSet source path).valueSet source path = dest.valueSet source path ∧
      (dest.remove pathToRemove).remove pathToRemove = dest.remove pathToRemove := by
  constructor
  · cases path with
    | none => exact Payload.ext (merge_self (merged_merge source.nodup))
    | some path => exact Payload.ext (modify_modify (Value.set_set source.nodup path.rest))
  · obtain ⟨key, rest⟩ := pathToRemove
    cases rest with
    | nil => exact Payload.ext remove_remove
    | cons next rest =>
      cases hfield : dest.fields.get? key with
      | none => simp [Payload.remove, hfield]
      | some value =>
        simp [Payload.remove, hfield, get?_insert, Value.remove_remove, insert_insert]

end Qdrant
