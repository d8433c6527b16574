-- SUMMARY: Which values at a JSON path change when another path is removed from a document.
import Qdrant.Segment.JsonPath

/-!
# Removed values

Removing a path (`value_remove`) takes values away at every place the path leads to. The
values at another path change if and only if both paths meet at a value of the document,
and elements of an array are never removed one by one: `Payload.getValue_remove_iff`.
-/

namespace Qdrant

open Value JsonMap List

/-! ## Documents with distinct keys -/

/-- Objects have distinct keys at every depth. -/
inductive Value.WellFormed : Value → Prop
  | null : WellFormed .null
  | bool (b : Bool) : WellFormed (.bool b)
  | number (text : String) : WellFormed (.number text)
  | string (s : String) : WellFormed (.string s)
  | array {items : List Value} (values : ∀ item ∈ items, WellFormed item) : WellFormed (.array items)
  | object {fields : JsonMap} (keys : fields.NodupKeys)
    (values : ∀ field ∈ fields, WellFormed field.2) : WellFormed (.object fields)

theorem forall_mem_modify {α : Type} {P : α → Prop} {l : List α} {f : α → α} {i : Nat} (h : ∀ x ∈ l, P x)
    (hf : ∀ x ∈ l, P (f x)) : ∀ x ∈ l.modify i f, P x := by
  intro x hx
  obtain ⟨j, hj⟩ := mem_iff_getElem?.mp hx
  rw [getElem?_modify] at hj
  obtain ⟨old, hold, rfl⟩ := Option.map_eq_some_iff.mp hj
  have hmem := mem_of_getElem? hold
  split
  · exact hf old hmem
  · exact h old hmem

namespace Value.WellFormed

variable {map : JsonMap} {key : String} {value : Value}

theorem insert (h : WellFormed (.object map)) (hvalue : value.WellFormed) :
    WellFormed (.object (map.insert key value)) := by
  cases h with
  | object keys values =>
    refine .object (keys.insert key value) fun field hfield => ?_
    rcases mem_insert.mp hfield with rfl | ⟨hmem, -⟩
    · exact hvalue
    · exact values field hmem

theorem removeKey (h : WellFormed (.object map)) : WellFormed (.object (JsonMap.remove map key)) := by
  cases h with
  | object keys values =>
    exact .object (keys.remove key) fun field hfield => values field (mem_of_mem_filter hfield)

theorem get? (h : WellFormed (.object map)) (hget : map.get? key = some value) : value.WellFormed := by
  cases h with
  | object keys values =>
    obtain ⟨front, back, rfl, -⟩ := lookup_eq_some_iff.mp hget
    exact values (key, value) (by simp)

theorem insert_get? (h : WellFormed (.object map)) (hget : map.get? key = some value) :
    map.insert key value = map := by
  cases h with
  | object keys values =>
    obtain ⟨front, back, rfl, -⟩ := lookup_eq_some_iff.mp hget
    refine insert_self fun v => ⟨fun hmem => ?_, fun heq => by simp [heq]⟩
    exact congrArg Prod.snd (inj_on_of_nodup_map keys hmem (by simp : (key, value) ∈ _) rfl)

theorem merge {source : JsonMap} (h : WellFormed (.object map))
    (hsource : ∀ field ∈ source, WellFormed field.2) : WellFormed (.object (map.merge source)) := by
  induction source generalizing map with
  | nil => exact h
  | cons field source ih =>
    refine ih ?_ fun field hfield => hsource field (mem_cons_of_mem _ hfield)
    unfold mergeField
    split
    · exact h.removeKey
    · exact h.insert (hsource field mem_cons_self)

theorem modify {f : Value → Value} (h : WellFormed (.object map))
    (hf : ∀ value, WellFormed value → WellFormed (f value)) : WellFormed (.object (map.modify key f)) := by
  unfold JsonMap.modify
  split
  next hget => exact h.insert (hf _ (h.get? hget))
  next => exact h.insert (hf _ .null)

theorem fieldsOrEmpty (h : WellFormed value) : WellFormed (.object value.fieldsOrEmpty) := by
  cases h with
  | object keys values => exact .object keys values
  | _ => exact .object nodup_nil (by simp [Value.fieldsOrEmpty])

theorem items {items : List Value} (h : WellFormed (.array items)) : ∀ item ∈ items, WellFormed item := by
  cases h with
  | array values => exact values

theorem values (h : WellFormed (.object map)) : ∀ field ∈ map, WellFormed field.2 := by
  cases h with
  | object keys values => exact values

theorem set {source : JsonMap} (hsource : ∀ field ∈ source, WellFormed field.2) (path : List JsonPathItem)
    (h : WellFormed value) : WellFormed (value.set path source) := by
  induction path generalizing value with
  | nil => exact h.fieldsOrEmpty.merge hsource
  | cons item rest ih =>
    cases item with
    | key key => exact h.fieldsOrEmpty.modify fun _ => ih
    | index i =>
      cases h with
      | array values =>
        exact .array (forall_mem_modify values fun item hitem => ih (values item hitem))
      | _ => exact .array (by simp)
    | wildcardIndex =>
      cases h with
      | array values => exact .array (forall_mem_map.mpr fun item hitem => ih (values item hitem))
      | _ => exact .array (by simp)

end Value.WellFormed

/-! ## Where two paths meet -/

/-- One of the paths is a prefix of the other, up to wildcards. -/
def compatibleItems (as bs : List JsonPathItem) : Bool :=
  (as.zip bs).all fun (a, b) => a.compatible b

@[simp] theorem compatibleItems_nil {as : List JsonPathItem} : compatibleItems as [] = true := by
  simp [compatibleItems]

@[simp] theorem compatibleItems_cons {a b : JsonPathItem} {as bs : List JsonPathItem} :
    compatibleItems (a :: as) (b :: bs) = true ↔ a.compatible b = true ∧ compatibleItems as bs = true := by
  simp [compatibleItems]

/-- The more special one of two compatible items. -/
def JsonPathItem.meet : JsonPathItem → JsonPathItem → JsonPathItem
  | .wildcardIndex, b => b
  | a, _ => a

def meetItems : List JsonPathItem → List JsonPathItem → List JsonPathItem
  | [], bs => bs
  | as, [] => as
  | a :: as, b :: bs => a.meet b :: meetItems as bs

/-- The longer one of two compatible paths, with the indices of both. -/
def JsonPath.meet (path other : JsonPath) : JsonPath :=
  ⟨path.firstKey, meetItems path.rest other.rest⟩

def endsInIndex (items : List JsonPathItem) : Bool :=
  match items.getLast? with
  | some (.index _) => true
  | _ => false

theorem length_flatMap_le {α β : Type} {f g : α → List β} {l : List α}
    (h : ∀ x ∈ l, (f x).length ≤ (g x).length) : (l.flatMap f).length ≤ (l.flatMap g).length := by
  induction l with
  | nil => simp
  | cons x l ih =>
    have := h x mem_cons_self
    have := ih fun y hy => h y (mem_cons_of_mem x hy)
    simp only [flatMap_cons, length_append]
    omega

/-- Lists that only get shorter are joined to the same list only if none of them changes. -/
theorem flatMap_eq_iff {α β : Type} {f g : α → List β} {l : List α}
    (h : ∀ x ∈ l, (f x).length ≤ (g x).length) : l.flatMap f = l.flatMap g ↔ ∀ x ∈ l, f x = g x := by
  induction l with
  | nil => simp
  | cons x l ih =>
    have hx := h x mem_cons_self
    have hl := fun y hy => h y (mem_cons_of_mem x hy)
    simp only [flatMap_cons, forall_mem_cons]
    refine ⟨fun heq => ?_, fun ⟨hfx, hfl⟩ => by rw [hfx, (ih hl).mpr hfl]⟩
    have hlength := congrArg length heq
    have := length_flatMap_le hl
    rw [length_append, length_append] at hlength
    obtain ⟨hfx, hfl⟩ := append_inj heq (by omega)
    exact ⟨hfx, (ih hl).mp hfl⟩

theorem length_flatMap_modify_le {α β : Type} {f : α → α} {g : α → List β} {l : List α} {i : Nat}
    (h : ∀ x ∈ l, (g (f x)).length ≤ (g x).length) :
    ((l.modify i f).flatMap g).length ≤ (l.flatMap g).length := by
  induction l generalizing i with
  | nil => simp
  | cons x l ih =>
    obtain ⟨hx, hl⟩ := forall_mem_cons.mp h
    cases i with
    | zero => simpa using hx
    | succ i => simpa using ih hl

theorem flatMap_modify_eq_iff {α β : Type} {f : α → α} {g : α → List β} {l : List α} {i : Nat} :
    (l.modify i f).flatMap g = l.flatMap g ↔ ∀ x, l[i]? = some x → g (f x) = g x := by
  induction l generalizing i with
  | nil => simp
  | cons x l ih =>
    cases i with
    | zero => simp
    | succ i => simp [ih]

theorem modify_eq_self_iff {α : Type} {f : α → α} {l : List α} {i : Nat} :
    l.modify i f = l ↔ ∀ x, l[i]? = some x → f x = x := by
  simpa using flatMap_modify_eq_iff (g := fun x => [x])

theorem map_eq_self_iff {α : Type} {f : α → α} {l : List α} : l.map f = l ↔ ∀ x ∈ l, f x = x := by
  simpa using map_inj_left (f := f) (g := id)

section

variable {item : JsonPathItem} {rest as : List JsonPathItem} {value : Value}

/-- What a removal does, at one item of its path after the other. -/
@[elab_as_elim]
theorem Value.remove_rec {motive : JsonPathItem → List JsonPathItem → Value → Prop}
    (nothing : ∀ item rest value, value.remove item rest = value →
      (endsInIndex (item :: rest) = false → ∀ as, compatibleItems (item :: rest) as = true →
        value.get (meetItems (item :: rest) as) = []) → motive item rest value)
    (key : ∀ key fields, motive (.key key) [] (.object fields))
    (wildcard : ∀ items, motive .wildcardIndex [] (.array items))
    (keyNext : ∀ key next rest fields value, JsonMap.get? fields key = some value →
      motive next rest value → motive (.key key) (next :: rest) (.object fields))
    (indexNext : ∀ i next rest items, (∀ value ∈ items, motive next rest value) →
      motive (.index i) (next :: rest) (.array items))
    (wildcardNext : ∀ next rest items, (∀ value ∈ items, motive next rest value) →
      motive .wildcardIndex (next :: rest) (.array items))
    (item : JsonPathItem) (rest : List JsonPathItem) (value : Value) : motive item rest value := by
  induction rest generalizing item value with
  | nil =>
    cases item with
    | key name =>
      cases value with
      | object fields => exact key name fields
      | _ => exact nothing _ _ _ rfl fun _ as _ => by cases as <;> rfl
    | index i => exact nothing _ _ _ (by cases value <;> rfl) fun h => absurd h (by simp [endsInIndex])
    | wildcardIndex =>
      cases value with
      | array items => exact wildcard items
      | _ =>
        refine nothing _ _ _ rfl fun _ as has => ?_
        rcases as with _ | ⟨_ | _ | _, _⟩ <;> first | rfl | simp [JsonPathItem.compatible] at has
  | cons next rest ih =>
    cases item with
    | key name =>
      cases value with
      | object fields =>
        cases hget : JsonMap.get? fields name with
        | some value => exact keyNext name next rest fields value hget (ih next value)
        | none =>
          refine nothing _ _ _ (by simp [Value.remove, hget]) fun _ as _ => ?_
          cases as <;> simp [meetItems, JsonPathItem.meet, Value.get, hget]
      | _ => exact nothing _ _ _ rfl fun _ as _ => by cases as <;> rfl
    | index i =>
      cases value with
      | array items => exact indexNext i next rest items fun value _ => ih next value
      | _ => exact nothing _ _ _ rfl fun _ as _ => by cases as <;> rfl
    | wildcardIndex =>
      cases value with
      | array items => exact wildcardNext next rest items fun value _ => ih next value
      | _ =>
        refine nothing _ _ _ rfl fun _ as has => ?_
        rcases as with _ | ⟨_ | _ | _, _⟩ <;> first | rfl | simp [JsonPathItem.compatible] at has

theorem Value.WellFormed.remove (h : value.WellFormed) : (value.remove item rest).WellFormed := by
  induction item, rest, value using Value.remove_rec with
  | nothing item rest value heq _ => rwa [heq]
  | key key fields => exact h.removeKey
  | wildcard items => exact .array (by simp)
  | keyNext key next rest fields value hget ih =>
    simp only [Value.remove, hget]
    exact h.insert (ih (h.get? hget))
  | indexNext i next rest items ih =>
    exact .array (forall_mem_modify h.items fun value hvalue => ih value hvalue (h.items value hvalue))
  | wildcardNext next rest items ih =>
    exact .array (forall_mem_map.mpr fun value hvalue => ih value hvalue (h.items value hvalue))

/-- Removing adds no values. -/
theorem Value.length_get_remove : ((value.remove item rest).get as).length ≤ (value.get as).length := by
  induction item, rest, value using Value.remove_rec generalizing as with
  | nothing item rest value heq _ => exact heq.symm ▸ Nat.le_refl _
  | key key fields =>
    rcases as with _ | ⟨_ | _ | _, as⟩ <;> try exact Nat.le_refl _
    simp only [get_key, Value.remove, Value.fieldsOrEmpty, get?_remove]
    split
    · exact Nat.zero_le _
    · exact Nat.le_refl _
  | wildcard items =>
    rcases as with _ | ⟨_ | _ | _, as⟩ <;> first | exact Nat.le_refl _ | exact Nat.zero_le _
  | keyNext key next rest fields value hget ih =>
    rcases as with _ | ⟨_ | _ | _, as⟩ <;> simp only [Value.remove, hget] <;> try exact Nat.le_refl _
    simp only [get_key, Value.fieldsOrEmpty, get?_insert]
    split
    next heq =>
      rw [heq, hget]
      exact ih
    · exact Nat.le_refl _
  | indexNext i next rest items ih =>
    rcases as with _ | ⟨_ | j | _, as⟩
    · exact Nat.le_refl _
    · exact Nat.le_refl _
    · simp only [Value.remove, Value.get, getElem?_modify]
      cases hj : items[j]? with
      | none => exact Nat.le_refl _
      | some value =>
        by_cases hij : i = j <;> simp [hij, ih value (mem_of_getElem? hj)]
    · exact length_flatMap_modify_le fun value hvalue => ih value hvalue
  | wildcardNext next rest items ih =>
    rcases as with _ | ⟨_ | j | _, as⟩
    · exact Nat.le_refl _
    · exact Nat.le_refl _
    · simp only [Value.remove, Value.get, getElem?_map]
      cases hj : items[j]? with
      | none => exact Nat.le_refl _
      | some value => exact ih value (mem_of_getElem? hj)
    · simp only [Value.remove, Value.get, flatMap_map]
      exact length_flatMap_le fun value hvalue => ih value hvalue

@[simp] theorem endsInIndex_cons_cons {next : JsonPathItem} :
    endsInIndex (item :: next :: rest) = endsInIndex (next :: rest) := by
  simp [endsInIndex]

@[simp] theorem endsInIndex_key (key : String) (rest : List JsonPathItem) :
    endsInIndex (.key key :: rest) = endsInIndex rest := by
  cases rest <;> simp [endsInIndex]

theorem Value.get_remove_iff (hvalue : value.WellFormed)
    (h : compatibleItems (item :: rest) as = true) : (value.remove item rest).get as = value.get as ↔
      endsInIndex (item :: rest) = true ∨ value.get (meetItems (item :: rest) as) = [] := by
  induction item, rest, value using Value.remove_rec generalizing as with
  | nothing item rest value heq hnone =>
    rw [heq]
    simp only [true_iff]
    cases hend : endsInIndex (item :: rest) with
    | true => exact .inl rfl
    | false => exact .inr (hnone hend as h)
  | key key fields =>
    rcases as with _ | ⟨name | _ | _, as⟩
    · have hget : JsonMap.remove fields key = fields ↔ JsonMap.get? fields key = none := by
        simp only [JsonMap.remove, JsonMap.get?, lookup_eq_none_iff, filter_eq_self,
          decide_eq_true_eq, bne_iff_ne, ne_comm]
      cases hkey : JsonMap.get? fields key <;>
        simp [Value.remove, Value.get, meetItems, endsInIndex, hget, hkey]
    · obtain ⟨hname, -⟩ := compatibleItems_cons.mp h
      obtain rfl : key = name := by simpa [JsonPathItem.compatible] using hname
      simp [get_key, Value.remove, Value.fieldsOrEmpty, get?_remove, getField, meetItems,
        JsonPathItem.meet, endsInIndex]
    · cases h
    · cases h
  | wildcard items =>
    rcases as with _ | ⟨_ | _ | _, as⟩
    · simp [Value.remove, Value.get, meetItems, endsInIndex, eq_comm]
    · cases h
    · simp [Value.remove, Value.get, meetItems, JsonPathItem.meet, endsInIndex]
    · simp [Value.remove, Value.get, meetItems, JsonPathItem.meet, endsInIndex]
  | keyNext key next rest fields value hget ih =>
    have hvalue' := hvalue.get? hget
    rcases as with _ | ⟨name | _ | _, as⟩
    · have hremove := @ih [] hvalue' (by simp)
      simp only [Value.get, Value.remove, hget, meetItems, endsInIndex_cons_cons, singleton_inj,
        object.injEq] at hremove ⊢
      rw [← hremove]
      refine ⟨fun heq => ?_, fun heq => heq.symm ▸ hvalue.insert_get? hget⟩
      have hinsert := congrArg (JsonMap.get? · key) heq
      simpa [get?_insert, hget] using hinsert
    · obtain ⟨hname, hrest⟩ := compatibleItems_cons.mp h
      obtain rfl : key = name := by simpa [JsonPathItem.compatible] using hname
      simpa [get_key, Value.remove, hget, Value.fieldsOrEmpty, get?_insert, getField, meetItems,
        JsonPathItem.meet] using ih hvalue' hrest
    · cases h
    · cases h
  | indexNext i next rest items ih =>
    have ih {value : Value} {as} (hitem : value ∈ items) := @ih value hitem as (hvalue.items value hitem)
    rcases as with _ | ⟨_ | j | _, as⟩
    · simp only [Value.get, Value.remove, meetItems, endsInIndex_cons_cons, singleton_inj, array.injEq]
      rw [modify_eq_self_iff]
      cases hi : items[i]? with
      | none => simp
      | some value =>
        have := @ih value [] (mem_of_getElem? hi) (by simp)
        simpa [Value.get, meetItems] using this
    · cases h
    · obtain ⟨hindex, hrest⟩ := compatibleItems_cons.mp h
      obtain rfl : i = j := by simpa [JsonPathItem.compatible] using hindex
      cases hi : items[i]? with
      | none => simp [Value.remove, Value.get, meetItems, JsonPathItem.meet, hi]
      | some value =>
        have := ih (mem_of_getElem? hi) hrest
        simpa [Value.remove, Value.get, meetItems, JsonPathItem.meet, hi] using this
    · obtain ⟨-, hrest⟩ := compatibleItems_cons.mp h
      simp only [Value.remove, Value.get, flatMap_modify_eq_iff]
      cases hi : items[i]? with
      | none => simp [Value.get, meetItems, JsonPathItem.meet, hi]
      | some value =>
        have := ih (mem_of_getElem? hi) hrest
        simpa [Value.get, meetItems, JsonPathItem.meet, hi] using this
  | wildcardNext next rest items ih =>
    have ih {value : Value} {as} (hitem : value ∈ items) := @ih value hitem as (hvalue.items value hitem)
    rcases as with _ | ⟨_ | j | _, as⟩
    · simp only [Value.get, Value.remove, meetItems, endsInIndex_cons_cons, singleton_inj,
        array.injEq, flatMap_eq_nil_iff]
      rw [map_eq_self_iff]
      simp only [← forall_or_left]
      refine forall₂_congr fun value hitem => ?_
      have := @ih value [] hitem (by simp)
      simpa [Value.get, meetItems] using this
    · cases h
    · obtain ⟨-, hrest⟩ := compatibleItems_cons.mp h
      cases hi : items[j]? with
      | none => simp [Value.remove, Value.get, meetItems, JsonPathItem.meet, hi]
      | some value =>
        have := ih (mem_of_getElem? hi) hrest
        simpa [Value.remove, Value.get, meetItems, JsonPathItem.meet, hi] using this
    · obtain ⟨-, hrest⟩ := compatibleItems_cons.mp h
      simp only [Value.remove, Value.get, flatMap_map, meetItems, JsonPathItem.meet, flatMap_eq_nil_iff]
      rw [flatMap_eq_iff fun value _ => length_get_remove, endsInIndex_cons_cons]
      simp only [← forall_or_left]
      exact forall₂_congr fun value hitem => ih hitem hrest

/-- Nothing is left at a path that is removed, unless it ends in an index. -/
theorem Value.get_remove_self (h : endsInIndex (item :: rest) = false) :
    (value.remove item rest).get (item :: rest) = [] := by
  induction item, rest, value using Value.remove_rec with
  | nothing item rest value heq hnone => exact heq.symm ▸ hnone h [] (by simp)
  | key key fields => simp [get_key, Value.remove, Value.fieldsOrEmpty, get?_remove, getField]
  | wildcard items => rfl
  | keyNext key next rest fields value hget ih =>
    have hrest := ih (by simpa using h)
    simpa [get_key, Value.remove, hget, Value.fieldsOrEmpty, get?_insert, getField] using hrest
  | indexNext i next rest items ih =>
    simp only [Value.remove, Value.get, getElem?_modify]
    cases hi : items[i]? with
    | none => rfl
    | some value => simpa using ih value (mem_of_getElem? hi) (by simpa using h)
  | wildcardNext next rest items ih =>
    simp only [Value.remove, Value.get, flatMap_map, flatMap_eq_nil_iff]
    exact fun value hvalue => ih value hvalue (by simpa using h)

end

namespace Payload

variable {payload : Payload} {path pathToRemove : JsonPath}

/-- Its objects have distinct keys. -/
def WellFormed (payload : Payload) : Prop :=
  Value.WellFormed (.object payload.fields)

theorem object_remove : Value.object (payload.remove path).fields =
    (Value.object payload.fields).remove (.key path.firstKey) path.rest := by
  obtain ⟨key, rest⟩ := path
  cases rest with
  | nil => rfl
  | cons next rest =>
    simp only [Payload.remove, Value.remove]
    cases payload.fields.get? key <;> rfl

theorem getValue_eq : payload.getValue path =
    (Value.object payload.fields).get (.key path.firstKey :: path.rest) := rfl

/-- The values at a path change if and only if it meets the path that is removed at some value. -/
theorem getValue_remove_iff (hpayload : payload.WellFormed) :
    (payload.remove pathToRemove).getValue path = payload.getValue path ↔
      path.isAffectedByValueRemove pathToRemove = false ∨ endsInIndex pathToRemove.rest = true ∨
        payload.getValue (pathToRemove.meet path) = [] := by
  cases haffected : path.isAffectedByValueRemove pathToRemove with
  | false => simp [JsonPath.getValue_remove haffected]
  | true =>
    obtain ⟨hkey, hrest⟩ : pathToRemove.firstKey = path.firstKey ∧
        compatibleItems pathToRemove.rest path.rest = true := by
      unfold JsonPath.isAffectedByValueRemove JsonPath.compatible at haffected
      simpa [compatibleItems] using haffected
    have hiff := @Value.get_remove_iff (.key pathToRemove.firstKey) pathToRemove.rest
      (.key path.firstKey :: path.rest) _ hpayload
      (by simpa [JsonPathItem.compatible, hkey] using hrest)
    simpa [getValue_eq, object_remove, JsonPath.meet, meetItems, JsonPathItem.meet] using hiff

theorem getValue_remove_self_iff (hpayload : payload.WellFormed) :
    (payload.remove path).getValue path = [] ↔
      endsInIndex path.rest = false ∨ payload.getValue path = [] := by
  cases hend : endsInIndex path.rest with
  | false =>
    rw [getValue_eq, object_remove]
    simpa using Value.get_remove_self ((endsInIndex_key ..).trans hend)
  | true => simp [(getValue_remove_iff hpayload).mpr (.inr (.inl hend))]

theorem WellFormed.merge {source : Payload} (h : payload.WellFormed) (hsource : source.WellFormed) :
    (payload.merge source).WellFormed :=
  Value.WellFormed.merge h hsource.values

theorem WellFormed.mergeByKey {source : Payload} (h : payload.WellFormed) (hsource : source.WellFormed) :
    (payload.mergeByKey source path).WellFormed :=
  Value.WellFormed.modify h fun _ => .set hsource.values path.rest

theorem WellFormed.remove (h : payload.WellFormed) : (payload.remove path).WellFormed := by
  unfold Payload.WellFormed
  rw [object_remove]
  exact Value.WellFormed.remove h

end Payload

end Qdrant
