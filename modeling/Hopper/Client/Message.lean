import Hopper.Driver.Encoding
import Mathlib.Data.List.DropRight

/-! What a subscription's worker decodes from a delivery. -/

namespace Hopper.Client

open List Kernel Driver

/-- The fields of a delivery's metadata that hopper writes. -/
inductive MetadataField where
  | topic | messageID | headers | stream | position
  deriving DecidableEq

namespace MetadataField

def name : MetadataField → String
  | topic => "topic"
  | messageID => "message_id"
  | headers => "headers"
  | stream => "stream"
  | position => "position"

/-- A letter as Go's decoder compares names. Beside the
ASCII ones, the long s and the kelvin sign fold to an ASCII letter. -/
def foldRune (char : Char) : Char :=
  if 'a' ≤ char ∧ char ≤ 'z' then Char.ofNat (char.toNat - 32)
  else if char.toNat = 0x17F then 'S'
  else if char.toNat = 0x212A then 'K'
  else char

def foldName (name : String) : List Char :=
  name.toList.map foldRune

/-- The field a member goes into. The decoder tries the exact names first,
which gives no other field: no two fields fold to one name. -/
def ofName (member : String) : Option MetadataField :=
  [topic, messageID, headers, stream, position].find? fun field => decide (foldName field.name = foldName member)

end MetadataField

structure MessageMetadata where
  topic : String := ""
  messageID : String := ""
  headers : Option (List (String × String)) := none
  stream : String := ""
  position : String := ""
  deriving DecidableEq

/-- A string after a value is decoded into it, and whether the value has
another type. Null leaves a string as it is. -/
def decodeString (old : String) : Json (List Char) → String × Bool
  | .string text => (text, false)
  | .null => (old, false)
  | _ => (old, true)

def decodeEntry (entries : List (String × String) × Bool) (member : String × Json (List Char)) :
    List (String × String) × Bool :=
  (Document.setMember entries.1 member.1 (decodeString "" member.2).1, entries.2 || (decodeString "" member.2).2)

/-- A map of strings after a value is decoded into it: an object's members are
added to those it has. -/
def decodeMap (old : Option (List (String × String))) :
    Json (List Char) → Option (List (String × String)) × Bool
  | .object members => (members.foldl decodeEntry (old.getD [], false)).map some id
  | .null => (none, false)
  | _ => (old, true)

def decodeField (metadata : MessageMetadata) (json : Json (List Char)) : MetadataField → MessageMetadata × Bool
  | .topic => (decodeString metadata.topic json).map (fun text => { metadata with topic := text }) id
  | .messageID => (decodeString metadata.messageID json).map (fun text => { metadata with messageID := text }) id
  | .headers => (decodeMap metadata.headers json).map (fun headers => { metadata with headers := headers }) id
  | .stream => (decodeString metadata.stream json).map (fun text => { metadata with stream := text }) id
  | .position => (decodeString metadata.position json).map (fun text => { metadata with position := text }) id

/-- One member of the metadata. A value of another type is passed over, and
fails the decoding at its end. -/
def decodeMember (state : MessageMetadata × Bool) (member : String × String) : MessageMetadata × Bool :=
  match MetadataField.ofName member.1 with
  | none => state
  | some field =>
    match Json.parse member.2.toList with
    | none => (state.1, true)
    | some json => (decodeField state.1 json field).map id (state.2 || ·)

def decodeMetadata : Document → Option MessageMetadata
  | .object members =>
    match members.foldl decodeMember ({}, false) with
    | (metadata, false) => some metadata
    | (_, true) => none
  | .other text =>
    match Json.parse text.toList with
    | some .null => some {}
    | _ => none

structure StreamPosition where
  xid : Nat := 0
  seq : Int := 0
  deriving DecidableEq

structure Message (Payload : Type) where
  row : JobRow
  payload : Payload
  topic : String
  /-- Identifies the published message. -/
  id : String
  headers : Option (List (String × String))
  orderingKey : Option String
  stream : String
  position : StreamPosition
  deriving DecidableEq

inductive DecodeFailure where
  | metadata
  | position (text : String)
  | payload
  deriving DecidableEq

section
variable {Payload : Type} (parseStreamPosition : String → Option StreamPosition) (unmarshal : String → Option Payload)

def decodePosition (text : String) : Except DecodeFailure StreamPosition :=
  if text = "" then .ok {}
  else match parseStreamPosition text with
    | none => .error (.position text)
    | some position => .ok position

def decodeMessage (row : JobRow) : Except DecodeFailure (Message Payload) := do
  match decodeMetadata row.metadata with
  | none => .error .metadata
  | some metadata =>
    let position ← decodePosition parseStreamPosition metadata.position
    match unmarshal row.args with
    | none => .error .payload
    | some payload =>
      pure { row := row, payload := payload, topic := metadata.topic, id := metadata.messageID,
             headers := metadata.headers, orderingKey := row.orderingKey, stream := metadata.stream,
             position := position }

end

/-! What decoding reads: for each field the members that name it, in their order. -/

def valuesOf (members : List (String × String)) (field : MetadataField) : List (Option (Json (List Char))) :=
  (members.filter fun member => decide (MetadataField.ofName member.1 = some field)).map fun member =>
    Json.parse member.2.toList

def isText : Json (List Char) → Bool
  | .string _ | .null => true
  | _ => false

def isNull : Option (Json (List Char)) → Bool
  | some .null => true
  | _ => false

def textOf : Option (Json (List Char)) → Option String
  | some (.string text) => some text
  | _ => none

def entriesOf : Option (Json (List Char)) → List (String × String)
  | some (.object members) => members.map fun member => (member.1, (textOf (some member.2)).getD "")
  | _ => []

/-- The value is of the field's type, or null. -/
def hasType : MetadataField → Json (List Char) → Bool
  | .headers, .object members => members.all fun member => isText member.2
  | .headers, json => isNull (some json)
  | _, json => isText json

def typed (member : String × String) : Bool :=
  (MetadataField.ofName member.1).all fun field => (Json.parse member.2.toList).any (hasType field)

def lastText (members : List (String × String)) (field : MetadataField) : String :=
  ((valuesOf members field).filterMap textOf).getLast?.getD ""

/-- The entries of the headers, with those after the last null. -/
def lastEntries (members : List (String × String)) : List (String × String) :=
  ((valuesOf members .headers).rtakeWhile fun value => !isNull value).flatMap entriesOf

def MessageMetadata.text (metadata : MessageMetadata) : MetadataField → String
  | .topic => metadata.topic
  | .messageID => metadata.messageID
  | .stream => metadata.stream
  | .position => metadata.position
  | .headers => ""

theorem decodeString_eq (old : String) (json : Json (List Char)) :
    decodeString old json = ((textOf (some json)).getD old, !isText json) := by
  cases json <;> rfl

theorem foldl_decodeEntry (members : List (String × Json (List Char))) (entries : List (String × String)) (failed : Bool) :
    members.foldl decodeEntry (entries, failed) =
      ((members.map fun member => (member.1, (textOf (some member.2)).getD "")).foldl
        (fun out member => Document.setMember out member.1 member.2) entries, failed || !members.all fun member => isText member.2) := by
  induction members generalizing entries failed with
  | nil => simp
  | cons member members ih =>
    rw [foldl_cons, decodeEntry, decodeString_eq, ih, map_cons, foldl_cons, all_cons, Bool.not_and, Bool.or_assoc]

theorem decodeField_eq (metadata : MessageMetadata) (json : Json (List Char)) (field : MetadataField) :
    (decodeField metadata json field).2 = !hasType field json ∧
      (∀ other ≠ .headers, (decodeField metadata json field).1.text other =
        if field = other then (textOf (some json)).getD (metadata.text other) else metadata.text other) ∧
      (decodeField metadata json field).1.headers.getD [] = if field = .headers then
        if isNull (some json) then [] else
          (entriesOf (some json)).foldl (fun out member => Document.setMember out member.1 member.2) (metadata.headers.getD [])
        else metadata.headers.getD [] := by
  cases field with
  | headers =>
    cases json with
    | object members =>
      rw [decodeField, decodeMap, foldl_decodeEntry]
      exact ⟨Bool.false_or _, fun other _ => by cases other <;> rfl, rfl⟩
    | _ => exact ⟨rfl, fun other apart => by cases other <;> first | rfl | exact absurd rfl apart, rfl⟩
  | _ =>
    rw [decodeField, decodeString_eq]
    exact ⟨rfl, fun other _ => by cases other <;> rfl, rfl⟩

section
variable (members : List (String × String)) (member : String × String) (field : MetadataField)

theorem valuesOf_concat : valuesOf (members ++ [member]) field = valuesOf members field ++
    if MetadataField.ofName member.1 = some field then [Json.parse member.2.toList] else [] := by
  rw [valuesOf, filter_append, map_append, valuesOf, filter_singleton]
  by_cases named : MetadataField.ofName member.1 = some field
  · rw [if_pos named, decide_eq_true named]
    rfl
  · rw [if_neg named, decide_eq_false named]
    rfl

theorem lastText_concat : lastText (members ++ [member]) field = if MetadataField.ofName member.1 = some field then
    (textOf (Json.parse member.2.toList)).getD (lastText members field) else lastText members field := by
  rw [lastText, valuesOf_concat]
  split
  · rw [filterMap_append, getLast?_append]
    cases text : textOf (Json.parse member.2.toList) with
    | none =>
      rw [filterMap_cons_none text]
      rfl
    | some =>
      rw [filterMap_cons_some text]
      rfl
  · rw [append_nil, lastText]

theorem lastEntries_concat : marshalMap (lastEntries (members ++ [member])) =
    if MetadataField.ofName member.1 = some .headers then
      if isNull (Json.parse member.2.toList) then [] else
        (entriesOf (Json.parse member.2.toList)).foldl (fun out member => Document.setMember out member.1 member.2)
          (marshalMap (lastEntries members))
    else marshalMap (lastEntries members) := by
  rw [lastEntries, valuesOf_concat]
  split
  · rw [rtakeWhile_concat]
    split
    · next other =>
      rw [if_neg (by simpa using other), flatMap_append, flatMap_singleton, marshalMap, foldl_append]
      rfl
    · next null =>
      rw [if_pos (by simpa using null)]
      rfl
  · rw [append_nil, lastEntries]

end

/-- A text field gets the last text, the headers their last entries, and any
value of another type fails the decoding. -/
theorem foldl_decodeMember (members : List (String × String)) :
    (members.foldl decodeMember ({}, false)).2 = !members.all typed ∧
      (∀ field ≠ .headers, (members.foldl decodeMember ({}, false)).1.text field = lastText members field) ∧
      (members.foldl decodeMember ({}, false)).1.headers.getD [] = marshalMap (lastEntries members) := by
  induction members using List.reverseRecOn with
  | nil =>
    refine ⟨rfl, fun field apart => ?_, rfl⟩
    cases field <;> rfl
  | append_singleton members member ih =>
    obtain ⟨failed, texts, headers⟩ := ih
    rw [foldl_append, foldl_cons, foldl_nil, lastEntries_concat, ← headers, all_append, Bool.not_and, ← failed]
    generalize members.foldl decodeMember ({}, false) = state at texts ⊢
    simp only [lastText_concat, all_cons, all_nil, Bool.and_true, typed, decodeMember]
    cases named : MetadataField.ofName member.1 with
    | none => simpa using texts
    | some field =>
      cases Json.parse member.2.toList with
      | none =>
        refine ⟨by simp, fun other apart => ?_, ?_⟩
        · rw [texts other apart]
          exact (ite_self _).symm
        · exact (ite_self _).symm
      | some json =>
        obtain ⟨failed, set, entries⟩ := decodeField_eq state.1 json field
        refine ⟨congrArg (state.2 || ·) failed, fun other apart => ?_, ?_⟩
        · rw [← texts other apart]
          simp only [Option.some.injEq]
          exact set other apart
        · simp only [Option.some.injEq]
          exact entries

theorem decodeMetadata_object (members : List (String × String)) : (decodeMetadata (.object members)).isSome = members.all typed ∧
    ∀ metadata, decodeMetadata (.object members) = some metadata →
      (∀ field ≠ .headers, metadata.text field = lastText members field) ∧
        metadata.headers.getD [] = marshalMap (lastEntries members) := by
  obtain ⟨failed, read⟩ := foldl_decodeMember members
  rw [decodeMetadata]
  revert failed read
  cases members.foldl decodeMember ({}, false) with
  | mk metadata failed =>
    intro is read
    cases failed with
    | false =>
      refine ⟨by simpa using is, fun _ same => ?_⟩
      cases same
      exact read
    | true => exact ⟨by simpa using is, nofun⟩

end Hopper.Client
