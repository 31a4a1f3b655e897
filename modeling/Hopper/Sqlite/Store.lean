import Hopper.Kernel.Transaction
import Hopper.Kernel.Table
import Hopper.Driver.Codec

/-! The tables of the SQLite engine and a write in progress on them. -/

namespace Hopper.Sqlite

open Kernel Driver

/-- A row of `hopper_jobs`. -/
structure LiveJob extends Job where
  snoozeReason : Option String
  wakeRequestedAt : Option Int
deriving DecidableEq

/-- A row of `hopper_job_history`. -/
structure HistoryJob extends Job where
  finalizedAt : Int
  output : Option String
deriving DecidableEq

/-- A row of `hopper_job_leases`, which owns a job that runs without a client. -/
structure LeaseRow where
  id : JobID
  token : JobID
  fence : Int
  ttl : Int
  renewedAt : Int
  expiresAt : Int
deriving DecidableEq

/-- A row of `hopper_job_deps`: `jobID` waits for `dependsOn`, in an any-of
group of it if the edge has one. -/
structure DepRow where
  jobID : JobID
  dependsOn : JobID
  onFailure : EdgePolicy
  step : Option String
  reads : Bool
  anyOf : Option Int
deriving DecidableEq

/-- A row of `hopper_job_results`. -/
structure ResultRow where
  batchID : JobID
  jobID : JobID
  state : JobState
  output : Option String
  finalizedAt : Int
deriving DecidableEq

structure Callback where
  kind : String
  queue : String
  priority : Option Int
  maxAttempts : Option Int
  args : String
  metadata : Document
  tags : List String
deriving DecidableEq

/-- A row of `hopper_batches`. -/
structure BatchRow where
  id : JobID
  name : Option String
  pending : Int
  failed : Int
  total : Int
  onSuccess : Option Callback
  onFailure : Option Callback
  onComplete : Option Callback
  metadata : Document
  edges : Option (List JobEdge)
  steps : List (JobID × String)
  reads : Bool
  createdAt : Int
  completedAt : Option Int
deriving DecidableEq

structure ClientRow where
  id : Int
  startedAt : Int
  expiresAt : Int
deriving DecidableEq

structure QueueRow where
  name : String
  pausedAt : Option Int := none
  globalLimit : Option Int := none
  ratePerSec : Option Rat := none
  rateBurst : Option Int := none
  tokens : Option Rat := none
  refilledAt : Option Int := none
  partitionLimit : Option Int := none
  agingSeconds : Option Int := none
  updatedAt : Int
deriving DecidableEq

structure PeriodicRow where
  name : String
  lastSlot : Int
deriving DecidableEq

structure SubscriptionRow where
  name : String
  pattern : String
  kind : String
  queue : String
  maxAttempts : Option Int
  metadata : Document
deriving DecidableEq

structure StreamEvent where
  seq : Nat
  topic : String
  key : Option String
  payload : String
  headers : String
  messageID : JobID
  createdAt : Int
deriving DecidableEq

structure ConsumerRow where
  name : String
  pattern : String
  kind : String
  queue : String
  maxAttempts : Option Int
  metadata : Document
  seen : Nat
  position : Nat
  deliveredAt : Option Int
deriving DecidableEq

structure Notification where
  channel : String
  payload : String
  createdAt : Int
deriving DecidableEq

instance : Keyed LiveJob JobID := ⟨fun row => row.id⟩
instance : Keyed LeaseRow JobID := ⟨LeaseRow.id⟩
instance : Keyed DepRow (JobID × JobID) := ⟨fun row => (row.jobID, row.dependsOn)⟩
instance : Keyed ResultRow (JobID × JobID) := ⟨fun row => (row.batchID, row.jobID)⟩
instance : Keyed BatchRow JobID := ⟨BatchRow.id⟩
instance : Keyed ClientRow Int := ⟨ClientRow.id⟩
instance : Keyed QueueRow String := ⟨QueueRow.name⟩
instance : Keyed PeriodicRow String := ⟨PeriodicRow.name⟩
instance : Keyed SubscriptionRow String := ⟨SubscriptionRow.name⟩
instance : Keyed ConsumerRow String := ⟨ConsumerRow.name⟩

@[simp] theorem key_liveJob (row : LiveJob) : Keyed.key row = row.id := rfl
@[simp] theorem key_leaseRow (row : LeaseRow) : Keyed.key row = row.id := rfl
@[simp] theorem key_depRow (row : DepRow) : Keyed.key row = (row.jobID, row.dependsOn) := rfl
@[simp] theorem key_resultRow (row : ResultRow) : Keyed.key row = (row.batchID, row.jobID) := rfl
@[simp] theorem key_batchRow (row : BatchRow) : Keyed.key row = row.id := rfl
@[simp] theorem key_clientRow (row : ClientRow) : Keyed.key row = row.id := rfl

/-- What happened to jobs and batches. Rows are as the event left them, and
for a job that finished as it was before. -/
inductive Event where
  | inserted (row : LiveJob)
  | retried (row : LiveJob)
  | claimed (row : LiveJob)
  /-- The running claim of the job at the fence ended. -/
  | ended (id : JobID) (fence : Int)
  | finished (row : LiveJob) (state : JobState) (output : Option String)
  /-- The pending job is about to finish because what it depends on failed. -/
  | cascaded (id : JobID)
  /-- An input of the batch was found finished. -/
  | found (batch : JobID) (failed : Bool)
  | completed (batch : JobID) (failed : Int)
  | callback (batch : JobID) (row : LiveJob)
deriving DecidableEq

def Event.inserted? : Event → Option LiveJob
  | .inserted row => some row
  | _ => none

/-- The database. `seq` and `clientSeq`, `eventSeq` are the greatest keys
ever given out, `drawn` counts the random values drawn, and the journal is
what happened, latest first: no statement reads it. -/
structure Store where
  jobs : Table LiveJob := ∅
  history : List HistoryJob := []
  leases : Table LeaseRow := ∅
  deps : Table DepRow := ∅
  results : Table ResultRow := ∅
  batches : Table BatchRow := ∅
  clients : Table ClientRow := ∅
  queues : Table QueueRow := ∅
  periodic : Table PeriodicRow := ∅
  subscriptions : Table SubscriptionRow := ∅
  events : List StreamEvent := []
  consumers : Table ConsumerRow := ∅
  notifications : List Notification := []
  seq : Nat := 0
  clientSeq : Nat := 0
  eventSeq : Nat := 0
  drawn : Nat := 0
  journal : List Event := []

/-- What the engine takes from outside the database: the IDs it mints and the
tokens it draws, by the number of the draw, and the topics a pattern matches. -/
structure Engine where
  newID : Nat → JobID
  token : Nat → JobID
  topicMatches : String → String → Bool
  newID_injective : Function.Injective newID
  newID_ne_zero : ∀ draw, newID draw ≠ 0

/-- A write in progress: a transaction that holds the write lock, and its
time, read once the lock was taken. -/
structure W where
  engine : Engine
  now : Int

abbrev Tx (Value : Type) := Transaction Store Failure Value

namespace W

/-- The write's time in nanoseconds, as Go code holds it. -/
def nanos (x : W) : Int := x.now * 1000

/-- The write's time plus a duration, in the schema's unit. -/
def after (x : W) (duration : Int) : Int := (x.nanos + duration) / 1000

def notificationRetention : Int := 60 * 1000000000

/-- Writes notifications, one per payload, and deletes those past retention. -/
def notify (x : W) (channel : String) (payloads : List String) (store : Store) : Store :=
  if payloads = [] then
    store
  else
    { store with
      notifications :=
        (store.notifications ++ payloads.map fun payload =>
          Notification.mk channel payload x.now).filter
          fun notification => decide (x.after (-notificationRetention) ≤ notification.createdAt) }

end W

def channelInsert : String := "hopper_insert"
def channelControl : String := "hopper_control"
def channelDone : String := "hopper_done"
def channelStream : String := "hopper_stream"

def nullable (text : String) : Option String :=
  if text = "" then none else some text

def nullableID (id : JobID) : Option JobID :=
  if id = 0 then none else some id

/-- A value bound for what Postgres keeps in a smallint. -/
def smallint (value : Int) (column : String) : Except Failure Int :=
  if value < -32768 ∨ value > 32767 then
    .error (.refused ("hopper: " ++ column ++ " " ++ toString value ++ " is out of range"))
  else
    .ok value

def jsonValue (raw default : String) : String :=
  if raw = "" then default else raw

def emptyObject : String := "\x7b\x7d"

/-- A live row as an operation returns it. Only a snoozed job waits for a
reason, and the logs are not among the columns read. -/
def scanJob (row : LiveJob) : JobRow :=
  { row.toJob with
    tags := decodeTags row.tags
    logs := none
    snoozeReason := if row.state = .scheduled then row.snoozeReason else none }

def scanHistoryJob (row : HistoryJob) : JobRow :=
  { row.toJob with
    tags := decodeTags row.tags
    logs := none
    finalizedAt := some row.finalizedAt
    output := row.output }

namespace Store

def live (store : Store) (id : JobID) : Bool := store.jobs.has id

def holder? (store : Store) (kind key : String) : Option LiveJob :=
  store.jobs.rows.find? fun row => decide (row.kind = kind ∧ row.uniqueKey = some key)

/-- Whether some live job holds the kind and unique key of a row. -/
def uniqueTaken (store : Store) (row : LiveJob) : Bool :=
  match row.uniqueKey with
  | none => false
  | some key => (store.holder? row.kind key).isSome

/-- Whether two running rows of a list share a queue and an ordering key. -/
def orderingClash : List LiveJob → Bool
  | [] => false
  | row :: rest =>
    (row.state = .running && row.orderingKey.isSome &&
      rest.any fun other =>
        other.state = .running && other.queue = row.queue && other.orderingKey = row.orderingKey) ||
    orderingClash rest

end Store

namespace W

def sequenced (store : Store) (row : LiveJob) : LiveJob := { row with seq := store.seq + 1 }

/-- `INSERT INTO hopper_jobs`, under the table's checks and indexes. -/
def insertRow (row : LiveJob) (event : LiveJob → Event) : Tx JobRow := do
  let store ← get
  let stored := sequenced store row
  if stored.priority < 1 ∨ stored.priority > 4 then
    throw (.refused "CHECK constraint failed: priority BETWEEN 1 AND 4")
  else if store.uniqueTaken stored then
    throw (.constraint "hopper_jobs.kind, hopper_jobs.unique_key")
  else
    match free : store.jobs.has stored.id with
    | true => throw (.constraint "hopper_jobs.id")
    | false => do
        set { store with
          jobs := store.jobs.append stored free
          seq := store.seq + 1
          journal := event stored :: store.journal }
        pure (scanJob stored)

variable {row : LiveJob}

theorem yields_insertRow {event : LiveJob → Event} {pre post : Store}
    {result : JobRow} (inserted : Yields (insertRow row event) pre result post) :
    ∃ free : pre.jobs.has (sequenced pre row).id = false, pre.uniqueTaken (sequenced pre row) = false ∧
      result = scanJob (sequenced pre row) ∧
      post = { pre with
        jobs := pre.jobs.append (sequenced pre row) free
        seq := pre.seq + 1
        journal := event (sequenced pre row) :: pre.journal } := by
  rw [insertRow, yields_get_bind] at inserted
  dsimp only at inserted
  split at inserted
  · simp at inserted
  · split at inserted
    · simp at inserted
    · next free =>
      split at inserted
      · simp at inserted
      · next absent =>
        obtain ⟨_, written, rfl⟩ := yields_return.mp inserted
        exact ⟨absent, by simpa using free, rfl, yields_set.mp written⟩

/-- `UPDATE hopper_jobs … WHERE id = ?`. -/
def updateJob (id : JobID) (change : LiveJob → LiveJob)
    (same : ∀ row : LiveJob, (change row).id = row.id) (store : Store) : Store :=
  { store with jobs := store.jobs.modify id change same }

theorem mem_updateJob {id : JobID} {change : LiveJob → LiveJob}
    {same : ∀ row : LiveJob, (change row).id = row.id} {store : Store} :
    row ∈ (updateJob id change same store).jobs ↔
      (row ∈ store.jobs ∧ row.id ≠ id) ∨ ∃ old ∈ store.jobs, old.id = id ∧ row = change old :=
  Table.mem_modify same

theorem has_updateJob (id : JobID) (change : LiveJob → LiveJob)
    (same : ∀ row : LiveJob, (change row).id = row.id) (store : Store) (other : JobID) :
    (updateJob id change same store).jobs.has other = store.jobs.has other :=
  Table.has_modify same

end W

end Hopper.Sqlite
