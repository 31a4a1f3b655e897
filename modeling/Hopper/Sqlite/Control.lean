import Hopper.Sqlite.Finalize
import Hopper.Sqlite.Claim

/-! Operations on single jobs and on waiting jobs: aging, progress, cancel,
delete, retry, waking an ordering key, expiry and the look for jobs to rescue. -/

namespace Hopper.Sqlite

open List Kernel Driver

/-- `LIMIT ?`, which a negative number lifts. -/
def limited {Row : Type} (limit : Int) (rows : List Row) : List Row :=
  if limit < 0 then rows else rows.take limit.toNat

def nullsFirst (left right : Option Int) : Bool :=
  match left, right with
  | none, _ => true
  | some _, none => false
  | some left, some right => decide (left ≤ right)

namespace W

def ages (x : W) (queue : String) (span : Int) (row : LiveJob) : Bool :=
  decide (row.queue = queue) && row.state.waiting && decide (row.priority > 1) &&
    decide (row.scheduledAt ≤ x.after (-span))

def jobAge (x : W) (queue : String) (span : Int) : Tx Nat := do
  if span ≤ 0 then
    pure 0
  else do
    let store ← get
    set { store with
      jobs := store.jobs.update
        (fun row : LiveJob =>
          if x.ages queue span row then { row with priority := row.priority - 1, scheduledAt := x.now }
          else row)
        fun row => by dsimp only [key_liveJob]; split <;> rfl }
    pure (store.jobs.rows.countP (x.ages queue span))

/-- Whether a progress write comes from the claim a live row runs in. -/
def ownsProgress (store : Store) (params : JobRecordProgressParams) (row : LiveJob) : Bool :=
  match params.lease with
  | some lease =>
    decide (row.state = .running ∧ row.attemptedBy = none ∧ row.fence = lease.fence) &&
      store.leases.rows.any fun held =>
        decide (held.id = row.id ∧ held.token = lease.token ∧ held.fence = lease.fence)
  | none =>
    decide (row.state = .running ∧ row.attemptedBy = some params.attemptedBy ∧
      row.fence = params.fence ∧ row.attempt = params.attempt)

def jobRecordProgress (x : W) (params : JobRecordProgressParams) : Tx (Option Progress) := do
  let store ← get
  match (store.jobs.find? params.id).filter (ownsProgress store params) with
  | none => pure none
  | some row => do
      let progress : Progress :=
        { step := if params.keepStep then (row.progress.map Progress.step).getD "" else params.step
          cursor := params.cursor.filter fun cursor => cursor ≠ "null"
          recordedAt := x.now }
      modify (updateJob params.id (fun row => { row with progress := some progress }) fun _ => rfl)
      pure (some progress)

def jobGet (store : Store) (id : JobID) : Except Failure JobRow :=
  match store.jobs.find? id with
  | some row => .ok (scanJob row)
  | none =>
    match store.history.find? fun row => decide (row.id = id) with
    | some row => .ok (scanHistoryJob row)
    | none => .error .notFound

def waitingCanceled (x : W) (row : LiveJob) (archive : Bool) : Finished :=
  { row := row, state := .canceled, errors := hopperError row "hopper: canceled" x.now,
    logs := row.logs, archive := archive }

def cancelWaiting (x : W) (row : LiveJob) (archive : Bool) : Tx JobRow := do
  let finished := x.waitingCanceled row archive
  modify (x.finish finished)
  let _ ← x.tail [finished]
  pure (finished.jobRow x.now)

def jobCancel (x : W) (id : JobID) : Tx JobRow :=
  describing (.inOperationUnless [.notFound] "hopper: cancel job: ") do
    let store ← get
    match store.jobs.find? id with
    | none => ensure (jobGet store id)
    | some row =>
      if row.state = .running then do
        let canceled : LiveJob → LiveJob := fun row =>
          { row with cancelRequestedAt := some (row.cancelRequestedAt.getD x.now) }
        modify (updateJob id canceled fun _ => rfl)
        modify (x.notify channelControl ["cancel:" ++ id.text])
        pure (scanJob (canceled row))
      else
        x.cancelWaiting row true

def jobDelete (x : W) (id : JobID) : Tx JobRow :=
  describing (.inOperationUnless [.notFound, .jobRunning] "hopper: delete job: ") do
    let store ← get
    match store.jobs.find? id with
    | none =>
      match store.history.find? fun row => decide (row.id = id) with
      | none => throw .notFound
      | some row => do
          set { store with history := store.history.filter fun row => decide (row.id ≠ id) }
          pure (scanHistoryJob row)
    | some row =>
      if row.state = .running then
        throw .jobRunning
      else
        x.cancelWaiting row false

/-- A waiting job made runnable now. One that was already due keeps its
place in claim order. -/
def runNow (x : W) (row : LiveJob) : LiveJob :=
  { row with
    state := .available, scheduledAt := min row.scheduledAt x.now,
    snoozeReason := none, wakeRequestedAt := none }

/-- A finished job moved back to the live table, with its history intact and
one more attempt if it had run out. -/
def retriedRow (x : W) (fromStart : Bool) (row : HistoryJob) : LiveJob :=
  { row.toJob with
    state := .available
    maxAttempts := if row.attempt ≥ row.maxAttempts then row.attempt + 1 else row.maxAttempts
    scheduledAt := x.now
    attemptedAt := none, attemptedBy := none, expiresAt := none, cancelRequestedAt := none
    progress := if fromStart then none else row.progress
    tags := decodeTags row.tags
    snoozeReason := none, wakeRequestedAt := none }

/-- A retried job counts as pending in its batch again, and a failure of it no
longer counts. -/
def recountRetried (batch id : JobID) (failed : Bool) (store : Store) : Store :=
  { store with
    batches := store.batches.modify batch
      (fun row =>
        if row.completedAt.isNone then
          { row with pending := row.pending + 1, failed := row.failed - if failed then 1 else 0 }
        else row)
      fun row => by dsimp only [key_batchRow]; split <;> rfl
    results := store.results.delete fun row => decide (row.batchID = batch ∧ row.jobID = id) }

def retryHistory (x : W) (params : JobRetryParams) : Tx JobRow := do
  let store ← get
  match store.history.find? fun row => decide (row.id = params.id) with
  | none => throw .notFound
  | some row =>
    let retried := x.retriedRow params.fromStart row
    if store.uniqueTaken retried then
      throw .uniqueConflict
    else do
      let job ← insertRow retried .retried
      modify fun store => { store with history := store.history.erase row }
      match row.batchID with
      | none => pure job
      | some batch => do
          modify (recountRetried batch params.id (row.state = .canceled ∨ row.state = .discarded))
          pure job

/-- The store once a job has moved back from history to the live table. -/
def revivedStore (x : W) (params : JobRetryParams) (row : HistoryJob) (store : Store)
    (free : store.jobs.has (sequenced store (x.retriedRow params.fromStart row)).id = false) : Store :=
  { store with
    jobs := store.jobs.append (sequenced store (x.retriedRow params.fromStart row)) free
    history := store.history.erase row
    seq := store.seq + 1
    journal := .retried (sequenced store (x.retriedRow params.fromStart row)) :: store.journal }

theorem yields_retryHistory {x : W} {params : JobRetryParams} {pre post : Store} {job : JobRow}
    (retried : Yields (x.retryHistory params) pre job post) :
    ∃ row ∈ pre.history, row.id = params.id ∧ pre.uniqueTaken (sequenced pre (x.retriedRow params.fromStart row)) = false ∧
      ∃ free, post = match row.batchID with
        | none => x.revivedStore params row pre free
        | some batch => recountRetried batch params.id (row.state = .canceled ∨ row.state = .discarded)
            (x.revivedStore params row pre free) := by
  rw [retryHistory, yields_get_bind] at retried
  split at retried
  · simp at retried
  · next row found =>
    dsimp only at retried
    split at retried
    · simp at retried
    · obtain ⟨inserted, first, insertedRow, retried⟩ := yields_bind.mp retried
      obtain ⟨free, keyFree, _, rfl⟩ := yields_insertRow insertedRow
      obtain ⟨_, second, erased, retried⟩ := yields_bind.mp retried
      rw [yields_modify] at erased
      subst erased
      refine ⟨row, mem_of_find?_eq_some found, by simpa using find?_some found, keyFree, free, ?_⟩
      cases batched : row.batchID with
      | none =>
        simp only [batched, yields_pure] at retried
        exact retried.2
      | some =>
        simp only [batched, yields_bind, yields_modify, yields_pure] at retried
        obtain ⟨_, _, recounted, _, rfl⟩ := retried
        exact recounted

def jobRetry (x : W) (params : JobRetryParams) : Tx JobRow :=
  describing (.inOperationUnless [.notFound, .jobRunning, .uniqueConflict] "hopper: retry job: ") do
    let store ← get
    match store.jobs.find? params.id with
    | none => x.retryHistory params
    | some row =>
      if row.state = .running then
        throw .jobRunning
      else do
        let retried : LiveJob → LiveJob := fun row =>
          { x.runNow row with
            expiresAt := none, progress := if params.fromStart then none else row.progress }
        modify (updateJob params.id retried fun _ => rfl)
        pure (scanJob (retried row))

/-- The jobs a wake makes runnable: those of the key waiting on their
schedule, oldest first, their TTL not passed. -/
def wakes (x : W) (store : Store) (params : JobRetryOrderingKeyParams) : List Nat :=
  (((store.jobs.rows.filter fun row =>
    decide (row.queue = params.queue ∧ row.orderingKey = some params.orderingKey ∧
      (row.state = .scheduled ∨ row.state = .retryable)) && Store.notExpired x.now row).map
        fun row => row.seq).insertionSort (· ≤ ·)).take (max params.limit 1).toNat

def jobRetryOrderingKey (x : W) (params : JobRetryOrderingKeyParams) : Tx Nat := do
  let store ← get
  let woken := x.wakes store params
  set { store with
    jobs := store.jobs.update
      (fun row : LiveJob =>
        if row.queue = params.queue ∧ row.orderingKey = some params.orderingKey ∧
            row.state = JobState.running then
          { row with wakeRequestedAt := some x.now }
        else if row.seq ∈ woken then x.runNow row
        else row)
      fun row => by
        dsimp only [key_liveJob]
        split
        · rfl
        · split <;> rfl }
  pure woken.length

def expired (x : W) (row : LiveJob) : Bool :=
  row.state.waiting && row.expiresAt.any fun expires => decide (expires ≤ x.now)

def waitingExpired (x : W) (row : LiveJob) : Finished :=
  { row := row, state := .discarded, errors := hopperError row "hopper: expired" x.now,
    logs := row.logs, archive := true }

def finishAll (x : W) (finished : List Finished) (store : Store) : Store :=
  finished.foldl (fun store job => x.finish job store) store

def jobDiscardExpired (x : W) (limit : Int) : Tx (List JobRow × List JobID) :=
  describing (.inOperation "hopper: discard expired jobs: ") do
    let store ← get
    let rows := ((store.jobs.rows.filter x.expired).insertionSort
      fun left right => nullsFirst left.expiresAt right.expiresAt = true).take (max limit 1).toNat
    let finished := rows.map x.waitingExpired
    modify (x.finishAll finished)
    let cascaded ← x.tailCascaded finished
    pure (finished.map fun job => job.jobRow x.now, cascaded)

/-- Whether a running job was claimed longer ago than the stuck age. -/
def stuck (x : W) (params : JobRescueParams) (row : LiveJob) : Bool :=
  decide (params.stuckAfter > 0) &&
    row.attemptedAt.any fun attempted => decide (attempted < x.after (-params.stuckAfter))

/-- Whether some client holds a live lease under an ID. -/
def clientLive (x : W) (store : Store) (client : Option Int) : Bool :=
  store.clients.rows.any fun row => decide (some row.id = client ∧ x.now < row.expiresAt)

/-- Running jobs of clients without a live lease, and stuck ones, oldest
first. -/
def jobRescueCandidates (x : W) (params : JobRescueParams) (store : Store) : List RescueCandidate :=
  limited params.limit (((store.jobs.rows.filter fun row =>
    decide (row.state = .running ∧ row.attemptedBy.isSome) &&
      (x.stuck params row || !x.clientLive store row.attemptedBy)).insertionSort
        fun left right => nullsFirst left.attemptedAt right.attemptedAt = true).map
          fun row => { job := scanJob row, stuck := x.stuck params row })

theorem mem_jobRescueCandidates {x : W} {params : JobRescueParams} {store : Store} {candidate : RescueCandidate}
    (listed : candidate ∈ x.jobRescueCandidates params store) :
    ∃ row ∈ store.jobs, row.state = .running ∧ row.attemptedBy.isSome ∧ candidate.job = scanJob row := by
  have found : ∃ row ∈ (store.jobs.rows.filter fun row =>
      decide (row.state = .running ∧ row.attemptedBy.isSome) &&
        (x.stuck params row || !x.clientLive store row.attemptedBy)).insertionSort
          fun left right => nullsFirst left.attemptedAt right.attemptedAt = true,
      { job := scanJob row, stuck := x.stuck params row : RescueCandidate } = candidate := by
    unfold jobRescueCandidates limited at listed
    split at listed
    · exact mem_map.mp listed
    · exact mem_map.mp (mem_of_mem_take listed)
  obtain ⟨row, sorted, rfl⟩ := found
  obtain ⟨mem, selected⟩ := mem_filter.mp ((mem_insertionSort _).mp sorted)
  rw [Bool.and_eq_true, decide_eq_true_eq] at selected
  exact ⟨row, mem, selected.1.1, selected.1.2, rfl⟩

end W

end Hopper.Sqlite
