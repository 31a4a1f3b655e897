import Hopper.Sqlite.Store
import Mathlib.Data.Rat.Floor

/-! Claiming jobs for a client: which jobs of a queue a claim takes, within
the queue's limits or not, and what it reads with them. -/

namespace Hopper.Sqlite

open Kernel Driver

namespace Store

def keyRunning (store : Store) (queue : String) (key : Option String) : Bool :=
  store.jobs.rows.any fun row =>
    decide (row.queue = queue ∧ row.orderingKey = key ∧ row.state = .running)

/-- The sequence number of the oldest waiting job of an ordering key. -/
def oldestWaiting (store : Store) (queue : String) (key : Option String) : Option Nat :=
  ((store.jobs.rows.filter fun row =>
    decide (row.queue = queue ∧ row.orderingKey = key) && row.state.waiting).map fun row => row.seq).min?

/-- Whether a job's ordering key, if it has one, lets it start: it is the
oldest waiting job of the key and none of the key runs. -/
def orderingAllows (store : Store) (row : LiveJob) : Bool :=
  row.orderingKey.isNone ||
    (!store.keyRunning row.queue row.orderingKey &&
      decide (some row.seq = store.oldestWaiting row.queue row.orderingKey))

def notExpired (now : Int) (row : LiveJob) : Bool :=
  row.expiresAt.all fun expires => decide (now < expires)

def claimEligible (store : Store) (now : Int) (queue : String) (row : LiveJob) : Bool :=
  decide (row.queue = queue) && row.state.waiting && decide (row.scheduledAt ≤ now) &&
    notExpired now row && store.orderingAllows row

/-- The running jobs of a partition key that a client owns. -/
def partitionRunning (store : Store) (row : LiveJob) : Nat :=
  store.jobs.rows.countP fun other =>
    decide (other.queue = row.queue ∧ other.partitionKey.isSome ∧
      other.partitionKey = row.partitionKey ∧ other.state = .running ∧ other.attemptedBy.isSome)

def queueRunning (store : Store) (queue : String) : Nat :=
  store.jobs.rows.countP fun row =>
    decide (row.queue = queue ∧ row.state = .running ∧ row.attemptedBy.isSome)

end Store

/-- Claim order: by priority, schedule and sequence number. -/
def claimsBefore (left right : LiveJob) : Bool :=
  decide (left.priority < right.priority) ||
    (decide (left.priority = right.priority) &&
      (decide (left.scheduledAt < right.scheduledAt) ||
        (decide (left.scheduledAt = right.scheduledAt) && decide (left.seq ≤ right.seq))))

namespace W

def claimMax : Int := 512

def eligible (x : W) (store : Store) (queue : String) : List LiveJob :=
  (store.jobs.rows.filter (store.claimEligible x.now queue)).insertionSort
    fun left right => claimsBefore left right = true

/-- Whether a job's rank within its partition key, counting the key's running
jobs, fits under the partition limit. -/
def fitsPartition (store : Store) (ranked : List LiveJob) (limit : Int) (row : LiveJob) : Bool :=
  row.partitionKey.isNone ||
    decide (((ranked.countP fun other =>
      decide (other.partitionKey = row.partitionKey) && claimsBefore other row) +
        store.partitionRunning row : Nat) ≤ limit)

def claimable (x : W) (store : Store) (queue : String) (limit : Nat) (partition : Int) :
    List LiveJob :=
  let ranked := x.eligible store queue
  if partition > 0 then
    (ranked.filter (fitsPartition store ranked partition)).take limit
  else
    ranked.take limit

/-- A job as a claim starts it, owned by a client or by its lease. -/
def started (x : W) (owner : Option Int) (row : LiveJob) : LiveJob :=
  { row with
    state := .running, attempt := row.attempt + 1, fence := row.fence + 1,
    attemptedAt := some x.now, attemptedBy := owner, snoozeReason := none }

theorem key_started_if (x : W) (owner : Option Int) (condition : LiveJob → Bool) (row : LiveJob) :
    Keyed.key (if condition row then x.started owner row else row) = Keyed.key row := by
  split <;> rfl

/-- The store once the rows under a condition have started. -/
def startedStore (x : W) (owner : Option Int) (condition : LiveJob → Bool) (store : Store) : Store :=
  { store with
    jobs := store.jobs.update (fun row => if condition row then x.started owner row else row)
      (x.key_started_if owner condition)
    journal :=
      ((store.jobs.rows.filter condition).map fun row => Event.claimed (x.started owner row)).reverse ++
        store.journal }

/-- `UPDATE hopper_jobs SET state = 'running' … WHERE …`, under the index of
running ordering keys. -/
def startRows (x : W) (owner : Option Int) (condition : LiveJob → Bool) : Tx Unit := do
  let store ← get
  let started := x.startedStore owner condition store
  if Store.orderingClash started.jobs.rows then
    throw (.constraint "hopper_jobs.queue, hopper_jobs.ordering_key")
  else
    set started

variable {pre post : Store}

theorem yields_startRows {x : W} {owner : Option Int} {condition : LiveJob → Bool} {done : Unit}
    (started : Yields (x.startRows owner condition) pre done post) :
    post = x.startedStore owner condition pre := by
  rw [startRows, yields_get_bind] at started
  dsimp only at started
  split at started
  · simp at started
  · exact yields_set.mp started

/-- The dependencies a claimed job reads that have finished: those with a
result, and those gone from the live table without one. -/
def dependenciesOf (store : Store) (row : LiveJob) : List Dependency :=
  match row.batchID with
  | none => []
  | some batch =>
    ((store.deps.rows.filter fun edge => decide (edge.jobID = row.id) && edge.reads).insertionSort
      fun left right => left.dependsOn ≤ right.dependsOn).filterMap fun edge =>
        match store.results.find? (batch, edge.dependsOn) with
        | some result =>
          some { id := edge.dependsOn, step := edge.step, state := some result.state,
                 output := result.output.filter fun output => output ≠ "null" }
        | none =>
          if store.live edge.dependsOn then none
          else some { id := edge.dependsOn, step := edge.step, state := none, output := none }

def readClaimed (store : Store) (row : LiveJob) : JobRow :=
  { scanJob row with dependencies := dependenciesOf store row }

/-- Claims up to a number of jobs of a queue for a client, with a partition
limit if it is positive. -/
def claim (x : W) (queue : String) (clientID limit partition : Int) : Tx (List JobRow) := do
  let limit := min limit claimMax
  if limit ≤ 0 then
    pure []
  else describing (.inOperation "hopper: claim jobs: ") do
    let store ← get
    let taken := x.claimable store queue limit.toNat partition
    x.startRows (some clientID) fun row => decide (row.seq ∈ taken.map fun taken => taken.seq)
    let after ← get
    pure (taken.map fun row => readClaimed after (x.started (some clientID) row))

/-- What a rate limit allows now: the whole bucket at first, then what was
left with what has flowed in since, up to its capacity. -/
def rateAvailable (x : W) (queue : QueueRow) (rate : Rat) : Rat :=
  let capacity : Rat :=
    match queue.rateBurst with
    | some burst => if burst ≤ 0 then (⌈rate⌉ : Int) else burst
    | none => (⌈rate⌉ : Int)
  match queue.tokens with
  | none => capacity
  | some tokens =>
    let elapsed : Rat :=
      match queue.refilledAt with
      | some refilled => ((x.now - refilled : Int) : Rat) / 1000000
      | none => 0
    min capacity (tokens + rate * elapsed)

/-- A claim's limit within what the global limit of a queue leaves. -/
def globalBudget (store : Store) (params : JobClaimParams) (queue : QueueRow) : Int :=
  match queue.globalLimit with
  | some global => min params.limit (global - store.queueRunning params.queue)
  | none => params.limit

/-- Claims within a queue's limits: the budget is the smallest of the claim's
limit, what the global limit leaves, and the whole tokens in the rate bucket. -/
def claimLimited (x : W) (params : JobClaimParams) : Tx JobClaimResult := do
  let store ← get
  match store.queues.find? params.queue with
  | none => do
      let jobs ← x.claim params.queue params.clientID params.limit 0
      pure { jobs := jobs }
  | some queue => do
      let budget := globalBudget store params queue
      match queue.ratePerSec.filter fun rate => decide (0 < rate) with
      | none =>
        if budget ≤ 0 then
          pure {}
        else do
          let jobs ← x.claim params.queue params.clientID budget (queue.partitionLimit.getD 0)
          pure { jobs := jobs }
      | some rate => do
          let available := x.rateAvailable queue rate
          let budget := min budget ⌊available⌋
          if budget ≤ 0 then
            -- Go truncates the duration toward zero.
            pure { wait := ((1 - available) / rate * 1000000000).num.tdiv
                     ((1 - available) / rate * 1000000000).den }
          else do
            let jobs ← x.claim params.queue params.clientID budget (queue.partitionLimit.getD 0)
            modify fun store => { store with
              queues := store.queues.modify params.queue
                (fun row => { row with
                  tokens := some (available - jobs.length), refilledAt := some x.now })
                fun _ => rfl }
            pure { jobs := jobs }

def jobClaim (x : W) (params : JobClaimParams) : Tx JobClaimResult := do
  if params.limit ≤ 0 then
    pure {}
  else if params.limited then
    x.claimLimited params
  else do
    let jobs ← x.claim params.queue params.clientID params.limit 0
    pure { jobs := jobs }

theorem jobClaim_cases {x : W} {params : JobClaimParams} {result : JobClaimResult}
    (claimed : Yields (x.jobClaim params) pre result post) :
    (result.jobs = [] ∧ post = pre) ∨ ∃ limit partition middle queues,
        Yields (x.claim params.queue params.clientID limit partition) pre result.jobs middle ∧
          post = { middle with queues := queues } := by
  unfold jobClaim claimLimited at claimed
  split at claimed
  · obtain ⟨rfl, rfl⟩ := yields_pure.mp claimed
    exact .inl ⟨rfl, rfl⟩
  · split at claimed
    · have within := yields_get_bind.mp claimed
      split at within
      · obtain ⟨_, taken, rfl⟩ := yields_return.mp within
        exact .inr ⟨_, _, _, _, taken, rfl⟩
      · dsimp only at within
        split at within
        · split at within
          · obtain ⟨rfl, rfl⟩ := yields_pure.mp within
            exact .inl ⟨rfl, rfl⟩
          · obtain ⟨_, taken, rfl⟩ := yields_return.mp within
            exact .inr ⟨_, _, _, _, taken, rfl⟩
        · split at within
          · obtain ⟨rfl, rfl⟩ := yields_pure.mp within
            exact .inl ⟨rfl, rfl⟩
          · obtain ⟨_, middle, taken, spent⟩ := yields_bind.mp within
            obtain ⟨_, spends, rfl⟩ := yields_return.mp spent
            exact .inr ⟨_, _, middle, _, taken, yields_modify.mp spends⟩
    · obtain ⟨_, taken, rfl⟩ := yields_return.mp claimed
      exact .inr ⟨_, _, _, _, taken, rfl⟩

end W

end Hopper.Sqlite
