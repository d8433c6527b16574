-- SUMMARY: A text condition checked on the tokens of a point, compared with a check of its payload value.
import Qdrant.Base.HashMap
import Qdrant.Segment.Json

/-!
# Full-text index

The index keeps the tokens of every point and, for phrases, the documents in order
(`full_text_index/inverted_index`). A text condition is checked on what is kept, or on the
payload value directly (`check_payload_match`). The first way joins the strings of a value,
the second one takes each of them alone.
-/

namespace Qdrant

abbrev TokenId := Nat

/-- Tokens in ascending order, without repetition. -/
abbrev TokenSet := List TokenId

namespace TokenSet

def fromIter (tokens : List TokenId) : TokenSet :=
  (tokens.insertionSort (· ≤ ·)).dedup

def hasSubset (set subset : TokenSet) : Bool :=
  !subset.isEmpty && subset.all set.contains

def hasAny (set subset : TokenSet) : Bool :=
  !subset.isEmpty && subset.any set.contains

end TokenSet

abbrev Document := List TokenId

def Document.hasPhrase (doc phrase : Document) : Bool :=
  !doc.isEmpty && !phrase.isEmpty && doc.tails.any phrase.isPrefixOf

inductive ParsedQuery where
  | allTokens (tokens : TokenSet)
  | anyTokens (tokens : TokenSet)
  | phrase (document : Document)

/-- The ids of tokens, which count the tokens. There are fewer than `2 ^ 32` of them. -/
structure Vocab where
  ids : HashMap String TokenId
  lt_card : ∀ token id, ids.get? token = some id → id < ids.keys.card
  injective : ∀ token other id, ids.get? token = some id → ids.get? other = some id → token = other

/-- The postings of the tokens are left out. -/
structure MutableInvertedIndex where
  vocab : Vocab
  pointToTokens : HashMap Nat TokenSet
  /-- Kept if phrases are to be matched. -/
  pointToDoc : Option (HashMap Nat Document)
  isSome_tokens : ∀ id, (pointToDoc.bind (·.get? id)).isSome → (pointToTokens.get? id).isSome

def MutableInvertedIndex.new (withPositions : Bool) : MutableInvertedIndex where
  vocab := ⟨∅, by simp, by simp⟩
  pointToTokens := ∅
  pointToDoc := if withPositions then some ∅ else none
  isSome_tokens _ := by cases withPositions <;> simp

structure Tokenizer where
  tokenizeDoc : String → List String
  tokenizeQuery : String → List String

namespace FullTextIndex

def getValue : Value → Option String
  | .string s => some s
  | _ => none

def getValues : Value → List String
  | .array items => items.filterMap getValue
  | value => (getValue value).toList

def registerToken (vocab : Vocab) (token : String) : TokenId × Vocab :=
  match hnew : vocab.ids.get? token with
  | some id => (id, vocab)
  | none =>
    let nextTokenId := vocab.ids.keys.card
    (nextTokenId, {
      ids := vocab.ids.insert token nextTokenId
      lt_card := by
        have := vocab.lt_card
        have hcard := Finset.card_insert_of_notMem (HashMap.notMem_keys_iff.mpr hnew)
        grind [HashMap.get?_insert, HashMap.keys_insert]
      injective := by
        have := vocab.lt_card
        have := vocab.injective
        grind [HashMap.get?_insert] })

def registerTokens (vocab : Vocab) : List String → List TokenId × Vocab
  | [] => ([], vocab)
  | token :: tokens =>
    let (id, vocab) := registerToken vocab token
    let (ids, vocab) := registerTokens vocab tokens
    (id :: ids, vocab)

variable (tokenizer : Tokenizer) (index : MutableInvertedIndex)

def removePoint (id : Nat) : MutableInvertedIndex :=
  match index.pointToTokens.get? id with
  | none => index
  | some _ => { index with
      pointToTokens := index.pointToTokens.erase id
      pointToDoc := index.pointToDoc.map (·.erase id)
      isSome_tokens := by
        have := index.isSome_tokens
        cases hdoc : index.pointToDoc <;> grind [HashMap.get?_erase] }

def addMany (id : Nat) (values : List String) : MutableInvertedIndex :=
  if values.isEmpty then index
  else
    let (tokens, vocab) := registerTokens index.vocab (values.flatMap tokenizer.tokenizeDoc)
    { vocab
      pointToDoc := index.pointToDoc.map (·.insert id tokens)
      pointToTokens := index.pointToTokens.insert id (.fromIter tokens)
      isSome_tokens := by
        have := index.isSome_tokens
        cases hdoc : index.pointToDoc <;> grind [HashMap.get?_insert] }

def addPoint (id : Nat) (value : Value) : MutableInvertedIndex :=
  addMany tokenizer (removePoint index id) id (getValues value)

/-- The ids of tokens, if all of them are known. -/
def getTokens (vocab : Vocab) (tokens : List String) : Option (List TokenId) :=
  if tokens.all (vocab.ids.get? · |>.isSome) then some (tokens.filterMap vocab.ids.get?) else none

def parseTokenset (text : String) : TokenSet :=
  .fromIter ((tokenizer.tokenizeDoc text).filterMap index.vocab.ids.get?)

def parseDocument (text : String) : Option Document :=
  getTokens index.vocab (tokenizer.tokenizeDoc text)

def parseQuery (isPhrase : Bool) (text : String) : Option ParsedQuery :=
  if isPhrase then (parseDocument tokenizer index text).map .phrase
  else (getTokens index.vocab (tokenizer.tokenizeQuery text)).map fun tokens => .allTokens (.fromIter tokens)

def checkMatch (id : Nat) : ParsedQuery → Bool
  | .allTokens query => (index.pointToTokens.get? id).any (TokenSet.hasSubset · query)
  | .anyTokens query => (index.pointToTokens.get? id).any (TokenSet.hasAny · query)
  | .phrase query => (index.pointToDoc.bind (·.get? id)).any (Document.hasPhrase · query)

/-- One string of a payload value. -/
def checkValue (value : String) : ParsedQuery → Bool
  | .allTokens query => (parseTokenset tokenizer index value).hasSubset query
  | .phrase query => (parseDocument tokenizer index value).any (Document.hasPhrase · query)
  | .anyTokens query => (parseTokenset tokenizer index value).hasAny query

def checkPayloadMatch (isPhrase : Bool) (payloadValue : Value) (text : String) : Bool :=
  (parseQuery tokenizer index isPhrase text).any fun query =>
    (getValues payloadValue).any (checkValue tokenizer index · query)

/-! ## Both ways compared -/

/-- A text of these tokens matches the document: it has tokens, and all of them occur in the document,
next to each other if they are a phrase. -/
def Occurs (isPhrase : Bool) (query document : List String) : Prop :=
  query ≠ [] ∧ if isPhrase then query <:+: document else query ⊆ document

section Vocab

variable {vocab : Vocab}

theorem registerToken_spec (vocab : Vocab) (token : String) :
    (registerToken vocab token).2.ids.get? token = some (registerToken vocab token).1 ∧
      ∀ t id, vocab.ids.get? t = some id → (registerToken vocab token).2.ids.get? t = some id := by
  unfold registerToken
  split <;> grind [HashMap.get?_insert]

/-- All tokens that are registered are found, with the same ids. -/
theorem registerTokens_spec (vocab : Vocab) (tokens : List String) :
    getTokens (registerTokens vocab tokens).2 tokens = some (registerTokens vocab tokens).1 ∧
      ∀ t id, vocab.ids.get? t = some id → (registerTokens vocab tokens).2.ids.get? t = some id := by
  induction tokens generalizing vocab with
  | nil => exact ⟨rfl, fun _ _ h => h⟩
  | cons token tokens ih =>
    obtain ⟨htokens, hkept⟩ := ih (registerToken vocab token).2
    obtain ⟨hnew, hbefore⟩ := registerToken_spec vocab token
    refine ⟨?_, fun t id ht => hkept t id (hbefore t id ht)⟩
    have htoken := hkept _ _ hnew
    simp only [registerTokens]
    simp_all [getTokens]

theorem getTokens_eq_some_iff {tokens : List String} {ids : List TokenId} :
    getTokens vocab tokens = some ids ↔ tokens.map vocab.ids.get? = ids.map some := by
  induction tokens generalizing ids with
  | nil => cases ids <;> simp [getTokens]
  | cons token tokens ih =>
    cases hid : vocab.ids.get? token <;> cases ids <;> simp_all [getTokens, ← ih]
    grind

theorem map_infix_map_iff {α β : Type} {f : α → β} {a b : List α}
    (h : ∀ x ∈ a, ∀ y ∈ b, f x = f y → x = y) : a.map f <:+: b.map f ↔ a <:+: b := by
  refine ⟨?_, fun hinfix => hinfix.map f⟩
  rintro ⟨front, back, heq⟩
  obtain ⟨rest, last, rfl, hrest, -⟩ := List.map_eq_append_iff.mp heq.symm
  obtain ⟨first, middle, rfl, -, hmiddle⟩ := List.map_eq_append_iff.mp hrest
  obtain rfl : a = middle := by
    refine List.ext_getElem (by simpa using congrArg List.length hmiddle.symm) fun i hi hi' => ?_
    refine h _ (List.getElem_mem hi) _ (by simp) ?_
    have hget : (middle.map f)[i]? = (a.map f)[i]? := by rw [hmiddle]
    simpa [hi, hi', eq_comm] using hget
  exact ⟨first, last, rfl⟩

/-- Tokens with ids can be compared by them. -/
theorem occurs_iff {query document : List String} {queryIds documentIds : List TokenId}
    (hquery : getTokens vocab query = some queryIds) (hdocument : getTokens vocab document = some documentIds) :
    (queryIds ⊆ documentIds ↔ query ⊆ document) ∧ (queryIds <:+: documentIds ↔ query <:+: document) := by
  rw [getTokens_eq_some_iff] at hquery hdocument
  have hinj : ∀ token ∈ query, ∀ other ∈ document,
      vocab.ids.get? token = vocab.ids.get? other → token = other := by
    intro token htoken other _ heq
    have hmem := List.mem_map_of_mem (f := vocab.ids.get?) htoken
    rw [hquery] at hmem
    obtain ⟨id, -, hid⟩ := List.mem_map.mp hmem
    exact vocab.injective token other id hid.symm (heq.symm.trans hid.symm)
  constructor
  · rw [← List.map_subset_iff some (Option.some_injective _), ← hquery, ← hdocument]
    refine ⟨fun h token htoken => ?_, fun h => List.map_subset _ h⟩
    obtain ⟨other, hother, heq⟩ := List.mem_map.mp (h (List.mem_map_of_mem htoken))
    exact hinj token htoken other hother heq.symm ▸ hother
  · rw [← map_infix_map_iff (f := some) (by simp), ← hquery, ← hdocument, map_infix_map_iff hinj]

theorem hasSubset_fromIter {query document : List TokenId} :
    TokenSet.hasSubset (.fromIter document) (.fromIter query) = true ↔ query ≠ [] ∧ query ⊆ document := by
  have hmem : ∀ {ids : List TokenId} {id}, id ∈ TokenSet.fromIter ids ↔ id ∈ ids := by
    simp [TokenSet.fromIter]
  have hempty : TokenSet.fromIter query = [] ↔ query = [] := by
    simp only [List.eq_nil_iff_forall_not_mem, hmem]
  simp [TokenSet.hasSubset, hempty, hmem, List.subset_def]

theorem hasPhrase_iff {query document : Document} :
    document.hasPhrase query = true ↔ query ≠ [] ∧ query <:+: document := by
  have hinfix : document.tails.any query.isPrefixOf = true ↔ query <:+: document := by
    simp [List.infix_iff_prefix_suffix, and_comm]
  simp only [Document.hasPhrase, Bool.and_eq_true, hinfix]
  constructor
  · simp_all
  · rintro ⟨hne, hin⟩
    have : document ≠ [] := fun h => hne (List.infix_nil.mp (h ▸ hin))
    simp_all

/-- A query matches a document in which all tokens are known. -/
theorem match_iff {document : List String} {ids : List TokenId} (hdocument : getTokens vocab document = some ids)
    (isPhrase : Bool) (query : List String) :
    (getTokens vocab query).any (fun queryIds => if isPhrase then Document.hasPhrase ids queryIds
      else TokenSet.hasSubset (.fromIter ids) (.fromIter queryIds)) = true ↔ Occurs isPhrase query document := by
  cases hquery : getTokens vocab query with
  | some queryIds =>
    obtain ⟨hsubset, hinfix⟩ := occurs_iff hquery hdocument
    have hempty : queryIds = [] ↔ query = [] := by
      have := congrArg List.length (getTokens_eq_some_iff.mp hquery)
      simp only [List.length_map] at this
      rw [← List.length_eq_zero_iff, ← List.length_eq_zero_iff, this]
    cases isPhrase <;> simp [Occurs, hasSubset_fromIter, hasPhrase_iff, hsubset, hinfix, hempty]
  | none =>
    -- a token of the query has no id, the ones of the document have
    have hunknown : ¬ query ⊆ document := by
      unfold getTokens at hquery hdocument
      grind
    have : ¬ Occurs isPhrase query document := by
      rintro ⟨-, h⟩
      split at h
      · exact hunknown h.subset
      · exact hunknown h
    simp [this]

end Vocab

def queryTokens (isPhrase : Bool) (text : String) : List String :=
  if isPhrase then tokenizer.tokenizeDoc text else tokenizer.tokenizeQuery text

/-- What is kept of a point: the tokens of all its strings, and none if it has no string. -/
theorem addPoint_spec (id : Nat) (value : Value) :
    ∃ ids, getTokens (addPoint tokenizer index id value).vocab ((getValues value).flatMap tokenizer.tokenizeDoc) =
        some ids ∧
      (addPoint tokenizer index id value).pointToTokens.get? id =
        (if getValues value = [] then none else some (.fromIter ids)) ∧
      (addPoint tokenizer index id value).pointToDoc.bind (·.get? id) =
        if getValues value = [] ∨ index.pointToDoc = none then none else some ids := by
  have hremoved : (removePoint index id).pointToTokens.get? id = none ∧
      (removePoint index id).pointToDoc.bind (·.get? id) = none ∧
      ((removePoint index id).pointToDoc = none ↔ index.pointToDoc = none) := by
    have := index.isSome_tokens id
    unfold removePoint
    split
    case h_1 htokens => simp_all
    case h_2 htokens =>
      dsimp only
      cases index.pointToDoc <;> simp
  obtain ⟨htokens, hdoc, hnone⟩ := hremoved
  unfold addPoint addMany
  cases hvalues : getValues value with
  | nil => exact ⟨[], by simp [getTokens], by simpa using htokens, by simpa using hdoc⟩
  | cons first rest =>
    refine ⟨_, (registerTokens_spec _ _).1, by simp, ?_⟩
    simp only [List.isEmpty_cons, Bool.false_eq_true, if_false, reduceCtorEq, false_or, ← hnone]
    cases (removePoint index id).pointToDoc <;> simp

theorem checkMatch_addPoint (id : Nat) (value : Value) (isPhrase : Bool) (text : String) :
    (parseQuery tokenizer (addPoint tokenizer index id value) isPhrase text).any
        (checkMatch (addPoint tokenizer index id value) id) = true ↔
      ¬ (isPhrase = true ∧ index.pointToDoc = none) ∧
        Occurs isPhrase (queryTokens tokenizer isPhrase text) ((getValues value).flatMap tokenizer.tokenizeDoc) := by
  obtain ⟨ids, hids, htokens, hdoc⟩ := addPoint_spec tokenizer index id value
  by_cases hvalues : getValues value = []
  · have hnot : ∀ query, ¬ Occurs isPhrase query [] := by
      rintro query ⟨hne, h⟩
      cases isPhrase <;> simp_all
    rw [if_pos hvalues] at htokens
    rw [if_pos (.inl hvalues)] at hdoc
    cases isPhrase <;> simp [hvalues, hnot, parseQuery, checkMatch, htokens, hdoc, Option.any_map]
  · rw [← match_iff hids]
    rw [if_neg hvalues] at htokens
    simp only [hvalues, false_or] at hdoc
    cases isPhrase with
    | false => simp [parseQuery, queryTokens, checkMatch, htokens, Option.any_map]
    | true =>
      by_cases hnone : index.pointToDoc = none <;>
        simp [parseQuery, parseDocument, queryTokens, checkMatch, hdoc, hnone, Option.any_map]

theorem checkPayloadMatch_addPoint (id : Nat) (value : Value) (isPhrase : Bool) (text : String) :
    checkPayloadMatch tokenizer (addPoint tokenizer index id value) isPhrase value text = true ↔
      ∃ string ∈ getValues value,
        Occurs isPhrase (queryTokens tokenizer isPhrase text) (tokenizer.tokenizeDoc string) := by
  obtain ⟨ids, hids, -, -⟩ := addPoint_spec tokenizer index id value
  have hknown : ∀ string ∈ getValues value,
      ∃ ids, getTokens (addPoint tokenizer index id value).vocab (tokenizer.tokenizeDoc string) = some ids := by
    intro string hstring
    unfold getTokens at hids ⊢
    grind
  generalize addPoint tokenizer index id value = after at *
  have hstep : checkPayloadMatch tokenizer after isPhrase value text = true ↔
      ∃ string ∈ getValues value,
        (parseQuery tokenizer after isPhrase text).any (checkValue tokenizer after string) := by
    unfold checkPayloadMatch
    cases parseQuery tokenizer after isPhrase text <;> simp
  rw [hstep]
  refine exists_congr fun string => and_congr_right fun hstring => ?_
  obtain ⟨ids, hids⟩ := hknown string hstring
  rw [← match_iff hids]
  have hset : (tokenizer.tokenizeDoc string).filterMap after.vocab.ids.get? = ids := by
    unfold getTokens at hids
    grind
  cases isPhrase <;>
    simp [parseQuery, queryTokens, checkValue, parseTokenset, parseDocument, hids, hset, Option.any_map]

/-- Both ways of matching agree if and only if a query that occurs in the joined strings occurs in one
of them, or, for a phrase if no documents are kept, if it occurs in none of them. -/
theorem checkMatch_addPoint_iff (id : Nat) (value : Value) (isPhrase : Bool) (text : String) :
    (parseQuery tokenizer (addPoint tokenizer index id value) isPhrase text).any
          (checkMatch (addPoint tokenizer index id value) id) =
        checkPayloadMatch tokenizer (addPoint tokenizer index id value) isPhrase value text ↔
      if isPhrase = true ∧ index.pointToDoc = none then
        ∀ string ∈ getValues value,
          ¬ Occurs isPhrase (queryTokens tokenizer isPhrase text) (tokenizer.tokenizeDoc string)
      else
        Occurs isPhrase (queryTokens tokenizer isPhrase text) ((getValues value).flatMap tokenizer.tokenizeDoc) →
          ∃ string ∈ getValues value,
            Occurs isPhrase (queryTokens tokenizer isPhrase text) (tokenizer.tokenizeDoc string) := by
  rw [Bool.eq_iff_iff, checkMatch_addPoint, checkPayloadMatch_addPoint]
  have hjoined : (∃ string ∈ getValues value,
        Occurs isPhrase (queryTokens tokenizer isPhrase text) (tokenizer.tokenizeDoc string)) →
      Occurs isPhrase (queryTokens tokenizer isPhrase text) ((getValues value).flatMap tokenizer.tokenizeDoc) := by
    rintro ⟨string, hstring, hne, hin⟩
    refine ⟨hne, ?_⟩
    have := List.infix_flatMap_of_mem hstring tokenizer.tokenizeDoc
    cases isPhrase with
    | true => exact List.IsInfix.trans hin this
    | false => exact List.Subset.trans hin this.subset
  split
  case isTrue h => simp [h]
  case isFalse h =>
    refine ⟨fun hiff hall => hiff.mp ⟨h, hall⟩, fun himp => ?_⟩
    exact ⟨fun hall => himp hall.2, fun hone => ⟨h, hjoined hone⟩⟩

/-- Cuts the text `ab` into its characters. -/
def characters : Tokenizer where
  tokenizeDoc text := if text = "ab" then ["a", "b"] else [text]
  tokenizeQuery text := if text = "ab" then ["a", "b"] else [text]

/-- The tokens of the query are in different strings. -/
theorem checkMatch_of_two_strings : let value := Value.array [.string "a", .string "b"]
    let index := addPoint characters (.new false) 0 value
    ((parseQuery characters index false "ab").any (checkMatch index 0),
      checkPayloadMatch characters index false value "ab") = (true, false) := by
  decide +kernel

end FullTextIndex

end Qdrant
