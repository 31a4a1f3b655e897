import Hopper.Sqlite.Workflow
import Hopper.Sqlite.Cluster

/-! The operations of the store and its runs. An operation that fails leaves
the store as it was. -/

namespace Hopper.Sqlite

open List Kernel Driver

inductive Operation where
  | jobInsertMany (params : List JobInsertParams) (opts : JobInsertOpts)
  | jobClaim (params : JobClaimParams)
  | jobClaimByID (params : JobClaimByIDParams)
  | jobFinalizeMany (params : JobFinalizeParams)
  | jobRecordProgress (params : JobRecordProgressParams)
  | jobLeaseRenew (params : JobLeaseRenewParams)
  | jobExpireLeases (params : JobExpireLeasesParams)
  | jobCancel (id : JobID)
  | jobDelete (id : JobID)
  | jobRetry (params : JobRetryParams)
  | jobRetryOrderingKey (params : JobRetryOrderingKeyParams)
  | jobDiscardExpired (limit : Int)
  | jobAge (queue : String) (span : Int)
  | batchInsert (params : BatchInsertParams)
  | batchSettle (params : BatchSettleParams)
  | workflowInsert (params : WorkflowInsertParams)
  | workflowPromoteReady (params : WorkflowPromoteParams)
  | clientRegister (ttl : Int)
  | clientRenew (clientID ttl : Int)
  | clientDelete (clientID : Int)
  | clientPruneExpired
  | queueEnsure (names : List String)
  | setPaused (name : String) (paused : Bool)
  | queueSetLimits (limits : QueueLimits)
  | periodicInsert (params : PeriodicInsertParams)
  | historyMaintain (params : HistoryMaintainParams)
  | subscriptionUpsert (rows : List Driver.SubscriptionRow)
  | messagePublish (params : MessagePublishParams)
  | streamAppend (params : StreamAppendParams)
  | streamConsumerUpsert (rows : List Driver.StreamConsumerRow)
  | streamPump (name : String) (limit : Int)
  | notify (channel : String) (payloads : List String)

namespace Operation

def run (x : W) : Operation → Tx Unit
  | jobInsertMany params opts => (fun _ => ()) <$> x.jobInsertMany params opts
  | jobClaim params => (fun _ => ()) <$> x.jobClaim params
  | jobClaimByID params => (fun _ => ()) <$> x.jobClaimByID params
  | jobFinalizeMany params => (fun _ => ()) <$> x.jobFinalizeMany params
  | jobRecordProgress params => (fun _ => ()) <$> x.jobRecordProgress params
  | jobLeaseRenew params => (fun _ => ()) <$> x.jobLeaseRenew params
  | jobExpireLeases params => (fun _ => ()) <$> x.jobExpireLeases params
  | jobCancel id => (fun _ => ()) <$> x.jobCancel id
  | jobDelete id => (fun _ => ()) <$> x.jobDelete id
  | jobRetry params => (fun _ => ()) <$> x.jobRetry params
  | jobRetryOrderingKey params => (fun _ => ()) <$> x.jobRetryOrderingKey params
  | jobDiscardExpired limit => (fun _ => ()) <$> x.jobDiscardExpired limit
  | jobAge queue span => (fun _ => ()) <$> x.jobAge queue span
  | batchInsert params => (fun _ => ()) <$> x.batchInsert params
  | batchSettle params => W.batchSettle params
  | workflowInsert params => (fun _ => ()) <$> x.workflowInsert params
  | workflowPromoteReady params => (fun _ => ()) <$> x.workflowPromoteReady params
  | clientRegister ttl => (fun _ => ()) <$> x.clientRegister ttl
  | clientRenew clientID ttl => (fun _ => ()) <$> x.clientRenew clientID ttl
  | clientDelete clientID => W.clientDelete clientID
  | clientPruneExpired => (fun _ => ()) <$> x.clientPruneExpired
  | queueEnsure names => x.queueEnsure names
  | setPaused name paused => x.setPaused name paused
  | queueSetLimits limits => x.queueSetLimits limits
  | periodicInsert params => (fun _ => ()) <$> x.periodicInsert params
  | historyMaintain params => x.historyMaintain params
  | subscriptionUpsert rows => W.subscriptionUpsert rows
  | messagePublish params => (fun _ => ()) <$> x.messagePublish params
  | streamAppend params => (fun _ => ()) <$> x.streamAppend params
  | streamConsumerUpsert rows => W.streamConsumerUpsert rows
  | streamPump name limit => (fun _ => ()) <$> x.streamPump name limit
  | notify channel payloads => modify (x.notify channel payloads)

/-- The store after the operation, at a time of the database's clock. -/
def apply (engine : Engine) (now : Int) (operation : Operation) (store : Store) : Store :=
  committed (operation.run ⟨engine, now⟩) store

/-- Clients have positive IDs, as `ClientRegister` gives them. -/
def PositiveClient : Operation → Prop
  | jobClaim params => 0 < params.clientID
  | _ => True

end Operation

/-- The stores of a run, the latest first: each the one before it after an
operation that the callers' promises allow in it. -/
inductive Run (engine : Engine) (Allowed : Store → Operation → Prop) : List Store → Prop where
  | start : Run engine Allowed [{}]
  | step {store : Store} {past : List Store} (run : Run engine Allowed (store :: past))
      (now : Int) (operation : Operation) (allowed : Allowed store operation) :
      Run engine Allowed (operation.apply engine now store :: store :: past)

def Reachable (engine : Engine) (Allowed : Store → Operation → Prop) (store : Store) : Prop :=
  ∃ past, Run engine Allowed (store :: past)

namespace Run

variable {engine : Engine} {Allowed Promised : Store → Operation → Prop}

theorem invariant {Holds : Store → Prop} (start : Holds {}) (kept : ∀ store now operation, Holds store → Allowed store operation →
      Holds (Operation.apply engine now operation store))
    {stores : List Store} (run : Run engine Allowed stores) : ∀ store ∈ stores, Holds store := by
  induction run with
  | start =>
    intro store mem
    rw [mem_singleton.mp mem]
    exact start
  | step run now operation allowed ih =>
    intro store mem
    rcases mem_cons.mp mem with rfl | mem
    · exact kept _ now operation (ih _ mem_cons_self) allowed
    · exact ih store mem

end Run

variable {engine : Engine}

theorem Reachable.invariant {Allowed : Store → Operation → Prop} {Holds : Store → Prop} (start : Holds {})
    (kept : ∀ store now operation, Holds store → Allowed store operation → Holds (Operation.apply engine now operation store))
    {store : Store} (reachable : Reachable engine Allowed store) : Holds store := by
  obtain ⟨past, run⟩ := reachable
  exact run.invariant start kept store mem_cons_self

namespace Reachable

variable {engine : Engine} {Allowed : Store → Operation → Prop} {store : Store}

theorem start : Reachable engine Allowed {} :=
  ⟨[], .start⟩

theorem step (reachable : Reachable engine Allowed store) (now : Int) (operation : Operation)
    (allowed : Allowed store operation) : Reachable engine Allowed (operation.apply engine now store) := by
  obtain ⟨past, run⟩ := reachable
  exact ⟨store :: past, run.step now operation allowed⟩

end Reachable

/-- An engine whose IDs count up and whose tokens are all one. -/
def Engine.counting : Engine where
  newID := Nat.succ
  token := fun _ => 7
  topicMatches := fun pattern topic => decide (pattern = topic)
  newID_injective := Nat.succ_injective
  newID_ne_zero := Nat.succ_ne_zero

/-- The store after operations at their times, the last of them first. -/
def Operation.after (engine : Engine) : List (Int × Operation) → Store
  | [] => {}
  | (now, operation) :: earlier => operation.apply engine now (Operation.after engine earlier)

/-- Each of the operations is allowed in the store it finds. -/
def Operation.AllAllowed (engine : Engine) (Allowed : Store → Operation → Prop) : List (Int × Operation) → Prop
  | [] => True
  | (_, operation) :: earlier =>
    Allowed (Operation.after engine earlier) operation ∧ Operation.AllAllowed engine Allowed earlier

/-- The stores of the run of operations, before the last of them. -/
def Operation.past (engine : Engine) : List (Int × Operation) → List Store
  | [] => []
  | _ :: earlier => Operation.after engine earlier :: Operation.past engine earlier

variable {operations : List (Int × Operation)}

theorem Operation.AllAllowed.run {Allowed : Store → Operation → Prop} (allowed : Operation.AllAllowed engine Allowed operations) :
    Run engine Allowed (Operation.after engine operations :: Operation.past engine operations) := by
  induction operations with
  | nil => exact .start
  | cons timed earlier ih => exact (ih allowed.2).step timed.1 timed.2 allowed.1

theorem Operation.AllAllowed.reachable {Allowed : Store → Operation → Prop} (allowed : Operation.AllAllowed engine Allowed operations) :
    Reachable engine Allowed (Operation.after engine operations) :=
  ⟨_, allowed.run⟩

end Hopper.Sqlite
