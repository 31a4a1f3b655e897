import Hopper.Client.Message
import Hopper.Sqlite.Operation

/-! Deliveries: what a subscriber decodes from a delivery is the message that
was published. -/

namespace Hopper.Guarantees

open List Kernel Driver Client Sqlite

/-- The metadata of a message, as every delivery of it begins. -/
def messageMembers (params : MessagePublishParams) (message : JobID) : List (String × String) :=
  marshalMap [("topic", jsonString params.topic), ("message_id", jsonString message.text),
    ("headers", headersText params.headers)]

/-- The metadata of a delivery, the subscription's own members over the message's. -/
def deliveryMembers (params : MessagePublishParams) (message : JobID) (own : Driver.Document) : List (String × String) :=
  (mergeObjects (.object (messageMembers params message)) own).members

/-- The members that name the message's fields have the fields' types, and the
last of them say what was published. -/
def ReportsMessage (parseStreamPosition : String → Option StreamPosition) (params : MessagePublishParams) (message : JobID)
    (members : List (String × String)) : Prop :=
  members.all typed = true ∧ lastText members .topic = params.topic ∧ lastText members .messageID = message.text ∧
    marshalMap (lastEntries members) = marshalMap (params.headers.getD []) ∧
    (lastText members .position = "" ∨ (parseStreamPosition (lastText members .position)).isSome = true)

section
variable {x : W} {params : MessagePublishParams} {before after : Store} {results : List JobInsertResult}

theorem insertJob_input {job : JobInsert} {row : JobRow} (inserted : Yields (x.insertJob job) before row after) :
    row.metadata = job.metadata ∧ row.args = job.args := by
  rw [W.insertJob, W.insertJobAs] at inserted
  split at inserted
  · obtain ⟨id, middle, _, stored⟩ := yields_bind.mp inserted
    obtain ⟨_, _, rfl, _⟩ := W.yields_insertRow stored
    exact ⟨rfl, rfl⟩
  · obtain ⟨_, _, rfl, _⟩ := W.yields_insertRow inserted
    exact ⟨rfl, rfl⟩

theorem insertJobs_input {onConflict : ConflictAction} {jobs : List JobInsert}
    (inserted : Yields (x.insertJobs jobs onConflict) before results after) : List.Forall₂ (fun job result =>
      result.duplicate = false → result.job.metadata = job.metadata ∧ result.job.args = job.args) jobs results := by
  unfold W.insertJobs at inserted
  induction jobs generalizing before results with
  | nil =>
    obtain ⟨rfl, rfl⟩ := yields_mapM_nil.mp inserted
    exact .nil
  | cons job jobs ih =>
    obtain ⟨result, middle, rest, first, others, rfl⟩ := yields_mapM_cons.mp inserted
    refine .cons (fun new => ?_) (ih others)
    rcases W.yields_insertOne first with ⟨_, _, old, _⟩ | ⟨_, _, _, _, rfl, _⟩ | ⟨_, _, _, stored⟩
    · cases new.symm.trans old
    · cases new
    · exact insertJob_input stored

theorem decodeMessage_reports {Payload : Type} (parseStreamPosition : String → Option StreamPosition)
    (unmarshal : String → Option Payload) {row : JobRow} {members : List (String × String)} {message : JobID} {payload : Payload}
    (metadata : row.metadata = .object members) (decoded : unmarshal row.args = some payload) :
    (∃ read, decodeMessage parseStreamPosition unmarshal row = .ok read ∧ read.payload = payload ∧ read.topic = params.topic ∧
        read.id = message.text ∧ read.headers.getD [] = marshalMap (params.headers.getD [])) ↔
      ReportsMessage parseStreamPosition params message members := by
  obtain ⟨typed, fields⟩ := decodeMetadata_object members
  rw [decodeMessage, metadata, ReportsMessage, ← typed]
  cases parsed : decodeMetadata (.object members) with
  | none => simp
  | some metadata =>
    obtain ⟨texts, headers⟩ := fields metadata parsed
    rw [← texts .topic nofun, ← texts .messageID nofun, ← texts .position nofun, ← headers]
    simp only [MessageMetadata.text, decodePosition, decoded]
    by_cases absent : metadata.position = ""
    · rw [if_pos absent]
      simp [absent, pure, Except.pure, bind, Except.bind]
    · rw [if_neg absent]
      cases parseStreamPosition metadata.position <;> simp [absent, pure, Except.pure, bind, Except.bind]

instance {parseStreamPosition : String → Option StreamPosition} {message : JobID} {members : List (String × String)} :
    Decidable (ReportsMessage parseStreamPosition params message members) := by
  unfold ReportsMessage
  infer_instance

end

/-- What a publish to subscriptions inserts, with nothing in the store before them. -/
def deliveriesOf (rows : List Driver.SubscriptionRow) (params : MessagePublishParams) : List JobInsertResult :=
  match W.messagePublish ⟨.counting, 0⟩ params (Operation.after .counting [(0, .subscriptionUpsert rows)]) with
  | .ok (results, _) => results
  | .error _ => []

def orderMessage : MessagePublishParams :=
  { topic := "order", payload := "5", headers := some [("trace", "a"), ("origin", "\"web\"")] }

/-- Two subscriptions to the message, the first with metadata of its own. -/
def orderSubscriptions (own : List (String × String)) : List Driver.SubscriptionRow :=
  [{ name := "audit", pattern := "order", kind := "sub:audit", queue := "default", metadata := some (.object own) },
   { name := "mail", pattern := "order", kind := "sub:mail", queue := "default" }]

/-- Members that name the stream, or the topic as null, change nothing. -/
def taggedOrder : List Driver.SubscriptionRow :=
  orderSubscriptions [("Topic", "null"), ("stream", "\"audit-log\"")]

end Hopper.Guarantees
