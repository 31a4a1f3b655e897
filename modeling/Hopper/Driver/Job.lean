import Hopper.Driver.JobIDBytes
import Mathlib.Data.List.Sort
import Mathlib.Order.Basic
import Mathlib.Data.String.Basic

/-! The records that pass between the hopper core and a storage engine.

Database times are whole microseconds since the epoch; Go durations and the
times a caller passes are nanoseconds. A JSON text is kept as its text where
nothing looks inside it, and as a `Document` where an engine adds members. -/

namespace Hopper.Driver

/-- A job, batch or message ID: the number its sixteen bytes spell, so that
IDs compare as their bytes do. Zero is no ID. -/
abbrev JobID := Nat

namespace JobID

def hexDigit (value : Nat) : Char :=
  ['0', '1', '2', '3', '4', '5', '6', '7', '8', '9', 'a', 'b', 'c', 'd', 'e', 'f'].getD (value % 16) '0'

def bytes (id : JobID) : JobIDBytes := ⟨bigEndian 16 id, length_bigEndian 16 id⟩

def text (id : JobID) : String :=
  String.ofList ((bytes id).string.map fun byte => Char.ofNat byte.toNat)

end JobID

/-- A stored JSON value: an object by its members, in the order of their
names, each with its value's text; or any other value by its text. -/
inductive Document where
  | object (members : List (String × String))
  | other (text : String)
deriving DecidableEq

namespace Document

/-- What decoding into a map of raw members finds: nothing in a value that is
not an object. -/
def members : Document → List (String × String)
  | object members => members
  | other _ => []

/-- The members with one set, over any member of its name. -/
def setMember (members : List (String × String)) (name text : String) : List (String × String) :=
  (members.filter fun member => member.1 ≠ name).orderedInsert (fun left right => left.1 ≤ right.1) (name, text)

end Document

inductive JobState where
  | pending | available | scheduled | running | retryable
  | completed | canceled | discarded
deriving DecidableEq

namespace JobState

def terminal : JobState → Bool
  | completed | canceled | discarded => true
  | pending | available | scheduled | running | retryable => false

def waiting : JobState → Bool
  | available | scheduled | retryable => true
  | pending | running | completed | canceled | discarded => false

def name : JobState → String
  | pending => "pending"
  | available => "available"
  | scheduled => "scheduled"
  | running => "running"
  | retryable => "retryable"
  | completed => "completed"
  | canceled => "canceled"
  | discarded => "discarded"

variable {state : JobState}

theorem waiting_ne_running (waits : state.waiting = true) : state ≠ running := by
  rintro rfl
  cases waits

theorem waiting_ne_pending (waits : state.waiting = true) : state ≠ pending := by
  rintro rfl
  cases waits

theorem waiting_not_terminal (waits : state.waiting = true) : state.terminal = false := by
  cases state <;> first | rfl | cases waits

end JobState

inductive RescueReason where
  | clientLost | stuck | leaseExpired
deriving DecidableEq

structure AttemptError where
  /-- The database time of the record, which the engine fills in. -/
  recordedAt : Int := 0
  attempt : Int
  fence : Int := 0
  error : String
  trace : String := ""
  rescue : Option RescueReason := none
deriving DecidableEq

structure AttemptLog where
  attempt : Int
  snoozed : Bool := false
  interrupted : Bool := false
  log : String
deriving DecidableEq

structure Progress where
  step : String
  cursor : Option String
  recordedAt : Int
deriving DecidableEq

/-- The columns the live table and history share. A column of theirs that
may be NULL is an option; the tags of a job without any are empty. -/
structure Job where
  id : JobID
  seq : Nat
  kind : String
  queue : String
  state : JobState
  priority : Int
  attempt : Int
  maxAttempts : Int
  scheduledAt : Int
  attemptedAt : Option Int
  attemptedBy : Option Int
  args : String
  metadata : Document
  errors : List AttemptError
  uniqueKey : Option String
  orderingKey : Option String
  partitionKey : Option String
  batchID : Option JobID
  expiresAt : Option Int
  cancelRequestedAt : Option Int
  await : Bool
  createdAt : Int
  progress : Option Progress
  tags : List String
  fence : Int
  logs : Option (List AttemptLog)
deriving DecidableEq

/-- A finished dependency of a workflow step; its state is absent when no
result was recorded. -/
structure Dependency where
  id : JobID
  step : Option String
  state : Option JobState
  output : Option String
deriving DecidableEq

structure JobRow extends Job where
  snoozeReason : Option String := none
  finalizedAt : Option Int := none
  output : Option String := none
  dependencies : List Dependency := []
deriving DecidableEq

/-- A job lease: its random token and the fence of its claim. -/
structure LeaseFence where
  token : JobID
  fence : Int
deriving DecidableEq

structure JobInsertParams where
  kind : String
  queue : String
  priority : Int
  maxAttempts : Int
  scheduledAt : Option Int := none
  args : String := ""
  metadata : Option Document := none
  tags : List String := []
  uniqueKey : String := ""
  uniqueFinished : List JobState := []
  orderingKey : String := ""
  partitionKey : String := ""
  batchID : JobID := 0
  ttl : Int := 0
  await : Bool := false

inductive ConflictAction where
  | skip | replace
deriving DecidableEq

structure JobInsertOpts where
  notify : Bool := false
  onConflict : ConflictAction := .skip

structure JobInsertResult where
  job : JobRow
  duplicate : Bool
deriving DecidableEq

structure JobClaimParams where
  queue : String
  clientID : Int
  limit : Int
  limited : Bool := false

structure JobClaimResult where
  jobs : List JobRow := []
  wait : Int := 0

structure JobFinalize where
  id : JobID
  attemptedBy : Int := 0
  fence : Int := 0
  lease : Option LeaseFence := none
  state : JobState
  delay : Int := 0
  snooze : Bool := false
  giveBack : Bool := false
  snoozeReason : String := ""
  error : Option AttemptError := none
  output : String := ""
  log : Option AttemptLog := none
  archive : Bool := false

namespace JobFinalize

def archived (result : JobFinalize) : Bool :=
  result.archive || result.state != .completed

/-- A job that finishes without history is deleted with its logs. -/
def keepsLog (result : JobFinalize) : Bool :=
  !result.state.terminal || result.archived

end JobFinalize

structure JobFinalizeParams where
  jobs : List JobFinalize
  noBatches : Bool := false
  skipLocked : Bool := false
  keepLogs : Int := 0

structure JobFinalized where
  id : JobID
  fence : Int := 0
  cascaded : Bool := false
deriving DecidableEq

structure JobRecordProgressParams where
  id : JobID
  attemptedBy : Int := 0
  fence : Int := 0
  attempt : Int := 0
  lease : Option LeaseFence := none
  step : String := ""
  keepStep : Bool := false
  cursor : Option String := none

structure JobRetryParams where
  id : JobID
  fromStart : Bool := false

structure JobRetryOrderingKeyParams where
  queue : String
  orderingKey : String
  limit : Int

structure JobRescueParams where
  stuckAfter : Int := 0
  limit : Int

structure RescueCandidate where
  job : JobRow
  stuck : Bool

structure JobClaimByIDParams where
  id : JobID
  fence : Int
  ttl : Int

structure JobLeaseRow where
  job : JobRow
  lease : LeaseFence
  expiresAt : Int

structure JobLeaseRenewParams where
  id : JobID
  lease : LeaseFence

structure JobLeaseStatus where
  expiresAt : Int
  cancelRequested : Bool

structure JobExpireLeasesParams where
  limit : Int
  clientID : Int
  grace : Int := 0

structure BatchInsertParams where
  total : Int
  onSuccess : Option JobInsertParams := none
  onFailure : Option JobInsertParams := none
  onComplete : Option JobInsertParams := none
  metadata : Option Document := none

/-- What a failed dependency does to its dependent; absent means cancel. -/
inductive DependencyFailure where
  | cancel | ignore
deriving DecidableEq

/-- An edge of a workflow by the positions of its jobs: `job` waits for
`dependsOn`, alone or as one of its any-of group of a number above zero. -/
structure JobDependency where
  job : Int
  dependsOn : Int
  onFailure : Option DependencyFailure := none
  reads : Bool := false
  anyOf : Int := 0

structure WorkflowInsertParams where
  name : String := ""
  jobs : List JobInsertParams
  steps : List String := []
  deps : List JobDependency := []
  onSuccess : Option JobInsertParams := none
  onFailure : Option JobInsertParams := none
  onComplete : Option JobInsertParams := none
  metadata : Option Document := none
  notify : Bool := false

structure WorkflowInsertResult where
  id : JobID
  jobs : List JobInsertResult

/-- An edge of an inserted workflow; an ordinary edge has group zero. -/
structure JobEdge where
  job : JobID
  dependsOn : JobID
  anyOf : Int := 0
deriving DecidableEq

structure WorkflowPromoteParams where
  dependsOn : Option (List JobID) := none
  after : JobID := 0
  limit : Int := 0

structure WorkflowPromoteResult where
  promoted : Int := 0
  canceled : Int := 0
  scanned : Int := 0
  last : JobID := 0

structure BatchSettleParams where
  ids : Option (List JobID) := none
  limit : Int := 0
  results : Bool := false

structure QueueLimits where
  name : String
  globalLimit : Int := 0
  ratePerSec : Rat := 0
  rateBurst : Int := 0
  partitionLimit : Int := 0
  aging : Int := 0

structure PeriodicInsertParams where
  name : String
  slot : Int
  job : JobInsertParams

structure SubscriptionRow where
  name : String
  pattern : String
  kind : String
  queue : String
  maxAttempts : Int := 0
  metadata : Option Document := none

structure MessagePublishParams where
  topic : String
  payload : String := ""
  headers : Option (List (String × String)) := none
  orderingKey : String := ""
  dedupKey : String := ""
  priority : Int := 0
  delay : Int := 0
  ttl : Int := 0
  await : Bool := false
  notify : Bool := false

structure StreamAppendParams where
  topic : String
  key : String := ""
  payload : String := ""
  headers : Option (List (String × String)) := none
  notify : Bool := false

structure StreamConsumerRow where
  name : String
  pattern : String
  kind : String
  queue : String
  maxAttempts : Int := 0
  metadata : Option Document := none
  earliest : Bool := false

structure HistoryMaintainParams where
  completedRetention : Int := 0
  failedRetention : Int := 0
  streamRetention : Int := 0

end Hopper.Driver
