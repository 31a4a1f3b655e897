import Hopper.Sqlite.Store

/-! Inserting jobs: one at a time, as a batch's callbacks, and by the list
with duplicates looked for among live and finished jobs. -/

namespace Hopper.Sqlite

open List Kernel Driver

/-- A job to insert, its values encoded. A job whose `id` is zero has one
minted. -/
structure JobInsert where
  kind : String
  queue : String
  priority : Int
  maxAttempts : Int
  scheduledAt : Option Int := none
  args : String := emptyObject
  metadata : Document := .object []
  tags : List String := []
  uniqueKey : String := ""
  uniqueFinished : List JobState := []
  orderingKey : String := ""
  partitionKey : String := ""
  batchID : JobID := 0
  ttl : Int := 0
  await : Bool := false
  pending : Bool := false
  id : JobID := 0

def encodeInsert (params : JobInsertParams) : Except Failure JobInsert := do
  let priority ← smallint params.priority "priority"
  let maxAttempts ← smallint params.maxAttempts "max_attempts"
  pure {
    kind := params.kind, queue := params.queue, priority := priority, maxAttempts := maxAttempts,
    scheduledAt := params.scheduledAt, args := jsonValue params.args emptyObject,
    metadata := params.metadata.getD (.object []), tags := params.tags,
    uniqueKey := params.uniqueKey, uniqueFinished := params.uniqueFinished,
    orderingKey := params.orderingKey, partitionKey := params.partitionKey,
    batchID := params.batchID, ttl := params.ttl, await := params.await }

theorem smallint_ok {value found : Int} {column : String} (accepted : smallint value column = .ok found) : found = value := by
  unfold smallint at accepted
  split at accepted
  · cases accepted
  · exact (Except.ok.inj accepted).symm

theorem encodeInsert_ok {params : JobInsertParams} {job : JobInsert} (accepted : encodeInsert params = .ok job) : job = {
      kind := params.kind, queue := params.queue, priority := params.priority,
      maxAttempts := params.maxAttempts, scheduledAt := params.scheduledAt,
      args := jsonValue params.args emptyObject, metadata := params.metadata.getD (.object []),
      tags := params.tags, uniqueKey := params.uniqueKey, uniqueFinished := params.uniqueFinished,
      orderingKey := params.orderingKey, partitionKey := params.partitionKey,
      batchID := params.batchID, ttl := params.ttl, await := params.await } := by
  unfold encodeInsert at accepted
  cases priority : smallint params.priority "priority" with
  | error => simp [priority, bind, Except.bind] at accepted
  | ok =>
    cases attempts : smallint params.maxAttempts "max_attempts" with
    | error => simp [priority, attempts, bind, Except.bind] at accepted
    | ok =>
      simp only [priority, attempts, bind, Except.bind, pure, Except.pure, Except.ok.injEq] at accepted
      rw [← accepted, smallint_ok priority, smallint_ok attempts]

namespace W

/-- The row of a job to insert, before it has its sequence number. -/
def newRow (x : W) (job : JobInsert) (id : JobID) : LiveJob :=
  let scheduledAt := job.scheduledAt.getD x.nanos
  { id := id, seq := 0, kind := job.kind, queue := job.queue,
    state :=
      if job.pending then .pending
      else if scheduledAt > x.nanos then .scheduled
      else .available
    priority := job.priority, attempt := 0, maxAttempts := job.maxAttempts,
    scheduledAt := scheduledAt / 1000, attemptedAt := none, attemptedBy := none,
    args := job.args, metadata := job.metadata, errors := [],
    uniqueKey := nullable job.uniqueKey, orderingKey := nullable job.orderingKey,
    partitionKey := nullable job.partitionKey, batchID := nullableID job.batchID,
    expiresAt := if job.ttl > 0 then some (x.after job.ttl) else none,
    cancelRequestedAt := none, await := job.await, createdAt := x.now, progress := none,
    tags := job.tags, fence := 0, logs := none, snoozeReason := none, wakeRequestedAt := none }

def mint (x : W) : Tx JobID := do
  let store ← get
  set { store with drawn := store.drawn + 1 }
  pure (x.engine.newID store.drawn)

variable {x : W} {pre after : Store} {batch : JobID} {failed : Int} {callbacks : List Callback} {job : JobInsert}
variable {id : JobID} {done : Unit}

theorem yields_mint : Yields x.mint pre id after ↔
      id = x.engine.newID pre.drawn ∧ after = { pre with drawn := pre.drawn + 1 } := by
  simp [mint, and_comm]

/-- Inserts a job: pending, or scheduled if its time is ahead, or available. -/
def insertJobAs (x : W) (job : JobInsert) (event : LiveJob → Event) : Tx JobRow := do
  if job.id = 0 then do
    let id ← x.mint
    insertRow (x.newRow job id) event
  else
    insertRow (x.newRow job job.id) event

def insertJob (x : W) (job : JobInsert) : Tx JobRow :=
  x.insertJobAs job .inserted

def clamp (value : Option Int) (default low high : Int) : Int :=
  min (max (value.getD default) low) high

def maxTagBytes : Nat := 255

/-- A completed batch's callback as a job: brought into range, with the
batch's ID and failures in its metadata. -/
def callbackInsert (callback : Callback) (batch : JobID) (failed : Int) : JobInsert :=
  { kind := callback.kind
    queue := if callback.queue = "" then "default" else callback.queue
    priority := clamp callback.priority 2 1 4
    maxAttempts := clamp callback.maxAttempts 25 1 32767
    args := if callback.args ≠ "" ∧ callback.args ≠ "null" then callback.args else emptyObject
    metadata := .object (Document.setMember
      (Document.setMember callback.metadata.members "batch_id" ("\"" ++ batch.text ++ "\""))
      "batch_failed" (toString failed))
    tags := (decodeTags callback.tags).filter fun tag => decide (tag.utf8ByteSize ≤ maxTagBytes) }

def insertCallback (x : W) (batch : JobID) (failed : Int) (callback : Callback) : Tx Unit := do
  let job := callbackInsert callback batch failed
  let _ ← x.insertJobAs job (.callback batch)
  modify (x.notify channelInsert [job.queue])

def completeBatch (x : W) (batch : BatchRow) (failed : Int) (store : Store) : Store :=
  { store with
    batches := store.batches.modify batch.id
      (fun row => { row with pending := 0, failed := failed, completedAt := some x.now })
      fun _ => rfl
    results :=
      if batch.reads then store.results.delete fun row => decide (row.batchID = batch.id)
      else store.results
    journal := .completed batch.id failed :: store.journal }

/-- The callbacks of a batch that completes with a number of failures. -/
def callbacksOf (batch : BatchRow) (failed : Int) : List Callback :=
  (if failed > 0 then batch.onFailure else batch.onSuccess).toList ++ batch.onComplete.toList

/-- Counts jobs of a batch as finished, some of them canceled or discarded,
and completes the batch, inserting its callbacks, if nothing remains. A batch
that has completed counts nothing more. -/
def countBatch (x : W) (id : JobID) (count failed : Int) : Tx Unit := do
  let store ← get
  match store.batches.find? id with
  | none => pure ()
  | some batch =>
    if batch.completedAt.isSome then
      pure ()
    else if batch.pending - count > 0 then
      set { store with
        batches := store.batches.modify id
          (fun row => { row with pending := batch.pending - count, failed := failed + batch.failed })
          fun _ => rfl }
    else do
      let total := failed + batch.failed
      set (x.completeBatch batch total store)
      let outcome := if total > 0 then batch.onFailure else batch.onSuccess
      describing (.inOperation ("batch " ++ id.text ++ ": callback: "))
        (forM (outcome.toList ++ batch.onComplete.toList) (x.insertCallback id total))

theorem countBatch_within {relation : Store → Store → Prop} (refl : ∀ store, relation store store)
    (trans : ∀ first second third, relation first second → relation second third → relation first third)
    (counts : ∀ (store : Store) (id : JobID) (batch : BatchRow) (pending failed : Int)
      (same : ∀ row : BatchRow, Keyed.key { row with pending := pending, failed := failed } = Keyed.key row),
      store.batches.find? id = some batch → relation store { store with
        batches := store.batches.modify id (fun row => { row with pending := pending, failed := failed }) same })
    (completes : ∀ store batch failed, batch ∈ store.batches → relation store (x.completeBatch batch failed store))
    (calls : ∀ store batch failed callback, Within relation (x.insertCallback batch failed callback) store)
    (id : JobID) (count failed : Int) (pre : Store) : Within relation (x.countBatch id count failed) pre := by
  refine within_get_bind ?_
  split
  · exact within_pure refl _ _
  · next batch found =>
    split
    · exact within_pure refl _ _
    · split
      · exact within_set (counts pre id batch _ _ (fun _ => rfl) found)
      · refine within_bind trans (within_set (completes pre batch _ (Table.mem_of_find? found)))
          fun _ middle _ => within_describing ?_
        exact within_forM refl trans (fun callback _ store => calls store id _ callback) middle

theorem notify_eq (x : W) (channel : String) (payloads : List String) (store : Store) :
    ∃ notes, x.notify channel payloads store = { store with notifications := notes } := by
  unfold notify
  split
  · exact ⟨store.notifications, rfl⟩
  · exact ⟨_, rfl⟩

/-- The rows of a batch's callbacks, by the draws and the sequence numbers
before them. -/
def callbackRows (x : W) (batch : JobID) (failed : Int) : List Callback → Nat → Nat → List LiveJob
  | [], _, _ => []
  | callback :: rest, drawn, seq =>
    { x.newRow (callbackInsert callback batch failed) (x.engine.newID drawn) with seq := seq + 1 } ::
      callbackRows x batch failed rest (drawn + 1) (seq + 1)

theorem callbackRows_plain {drawn seq : Nat} :
    ∀ row ∈ x.callbackRows batch failed callbacks drawn seq, row.batchID = none ∧ row.uniqueKey = none ∧ row.attempt = 0 := by
  induction callbacks generalizing drawn seq with
  | nil => exact forall_mem_nil _
  | cons callback rest ih =>
    intro row mem
    rcases mem_cons.mp mem with rfl | later
    · exact ⟨rfl, rfl, rfl⟩
    · exact ih row later

theorem yields_insertCallback {callback : Callback}
    (inserted : Yields (x.insertCallback batch failed callback) pre done after) :
    ∃ (jobs : Table LiveJob) (notes : List Notification),
      jobs.rows = pre.jobs.rows ++ x.callbackRows batch failed [callback] pre.drawn pre.seq ∧
      after = { pre with
        jobs := jobs, seq := pre.seq + 1, drawn := pre.drawn + 1, notifications := notes
        journal := (x.callbackRows batch failed [callback] pre.drawn pre.seq).map (Event.callback batch) ++
          pre.journal } := by
  simp only [insertCallback, insertJobAs, yields_bind, yields_modify] at inserted
  obtain ⟨_, stored, rowInserted, rfl⟩ := inserted
  rw [if_pos (show (callbackInsert callback batch failed).id = 0 from rfl), yields_bind] at rowInserted
  obtain ⟨_, _, minted, rowInserted⟩ := rowInserted
  obtain ⟨rfl, rfl⟩ := yields_mint.mp minted
  obtain ⟨free, -, -, rfl⟩ := yields_insertRow rowInserted
  obtain ⟨notes, written⟩ := notify_eq x channelInsert [(callbackInsert callback batch failed).queue] _
  rw [written]
  exact ⟨_, notes, rfl, rfl⟩

theorem yields_insertCallbacks {done : PUnit}
    (inserted : Yields (forM callbacks (x.insertCallback batch failed)) pre done after) :
    ∃ (jobs : Table LiveJob) (notes : List Notification),
      jobs.rows = pre.jobs.rows ++ x.callbackRows batch failed callbacks pre.drawn pre.seq ∧
      after = { pre with
        jobs := jobs, seq := pre.seq + callbacks.length, drawn := pre.drawn + callbacks.length
        notifications := notes
        journal := ((x.callbackRows batch failed callbacks pre.drawn pre.seq).map
          (Event.callback batch)).reverse ++ pre.journal } := by
  induction callbacks generalizing pre with
  | nil =>
    rw [yields_forM_nil.mp inserted]
    exact ⟨pre.jobs, pre.notifications, by simp [callbackRows], by simp [callbackRows]⟩
  | cons callback callbacks ih =>
    obtain ⟨middle, first, others⟩ := yields_forM_cons.mp inserted
    obtain ⟨jobs, notes, rows, rfl⟩ := yields_insertCallback first
    obtain ⟨all, allNotes, allRows, rfl⟩ := ih others
    refine ⟨all, allNotes, ?_, ?_⟩
    · rw [allRows, rows]
      simp [callbackRows]
    · have number (start : Nat) : start + 1 + callbacks.length = start + (callbacks.length + 1) := by omega
      simp [callbackRows, number]

theorem yields_countBatch {count : Int}
    (counted : Yields (x.countBatch id count failed) pre done after) :
    (pre.batches.find? id = none ∧ after = pre) ∨ ∃ batch, pre.batches.find? id = some batch ∧
        ((batch.completedAt.isSome = true ∧ after = pre) ∨
          (batch.completedAt.isSome = false ∧ 0 < batch.pending - count ∧ after = { pre with
            batches := pre.batches.modify id
              (fun row => { row with pending := batch.pending - count, failed := failed + batch.failed })
              fun _ => rfl }) ∨
          (batch.completedAt.isSome = false ∧ batch.pending - count ≤ 0 ∧
            Yields (forM (callbacksOf batch (failed + batch.failed)) (x.insertCallback id (failed + batch.failed)))
              (x.completeBatch batch (failed + batch.failed) pre) () after)) := by
  rw [countBatch, yields_get_bind] at counted
  split at counted
  · next absent => exact .inl ⟨absent, (yields_pure.mp counted).2⟩
  · next batch found =>
    refine .inr ⟨batch, found, ?_⟩
    split at counted
    · next completed => exact .inl ⟨completed, (yields_pure.mp counted).2⟩
    · next opened =>
      rw [Bool.not_eq_true] at opened
      split at counted
      · next remains => exact .inr (.inl ⟨opened, remains, yields_set.mp counted⟩)
      · next none =>
        simp only [yields_bind, yields_set, yields_describing] at counted
        obtain ⟨_, _, rfl, called⟩ := counted
        exact .inr (.inr ⟨opened, Int.not_lt.mp none, called⟩)

/-- What a count does: the callbacks of the batch are inserted, if it completes. -/
structure Counts (batch : JobID) (rows : List LiveJob) (before after : Store) : Prop where
  jobs : after.jobs.rows = before.jobs.rows ++ rows
  plain : ∀ row ∈ rows, row.batchID = none ∧ row.uniqueKey = none ∧ row.attempt = 0
  journal : ∃ events, after.journal = (rows.map (Event.callback batch)).reverse ++ (events ++ before.journal) ∧
    ∀ event ∈ events, ∃ failed, event = .completed batch failed
  seq : before.seq ≤ after.seq
  batches : ∀ id, after.batches.has id = before.batches.has id
  periodic : after.periodic = before.periodic

theorem Counts.refl (batch : JobID) (store : Store) : Counts batch [] store store :=
  ⟨(append_nil _).symm, forall_mem_nil _, ⟨[], rfl, forall_mem_nil _⟩, le_rfl, fun _ => rfl, rfl⟩

theorem countBatch_counts {count : Int} (counted : Yields (x.countBatch id count failed) pre done after) :
    ∃ rows, Counts id rows pre after := by
  rcases yields_countBatch counted with ⟨_, rfl⟩ | ⟨row, found, ⟨_, rfl⟩ | ⟨_, _, rfl⟩ | ⟨_, _, called⟩⟩
  · exact ⟨[], .refl id _⟩
  · exact ⟨[], .refl id _⟩
  · exact ⟨[], { Counts.refl id pre with batches := fun _ => by rw [Table.has_modify] }⟩
  · obtain ⟨jobs, notes, rows, rfl⟩ := yields_insertCallbacks called
    refine ⟨_, rows, callbackRows_plain, ⟨[.completed row.id _], rfl, ?_⟩, Nat.le_add_right _ _, fun _ => ?_, rfl⟩
    · exact forall_mem_singleton.mpr ⟨_, by rw [show row.id = id from Table.key_of_find? found]⟩
    · dsimp only [completeBatch]
      rw [Table.has_modify]

/-- `ORDER BY finalized_at DESC, seq DESC`. -/
def finishedLater (left right : HistoryJob) : Bool :=
  decide (right.finalizedAt < left.finalizedAt) ||
    (decide (right.finalizedAt = left.finalizedAt) && decide (right.seq ≤ left.seq))

/-- The jobs in history with an insert's kind and unique key in one of its
`UniqueFinished` states. -/
def finishedHolders (store : Store) (job : JobInsert) : List HistoryJob :=
  store.history.filter fun row =>
    decide (row.kind = job.kind ∧ row.uniqueKey = some job.uniqueKey ∧ row.state ∈ job.uniqueFinished)

def finishedDuplicate (store : Store) (job : JobInsert) : Option HistoryJob :=
  ((finishedHolders store job).insertionSort fun left right => finishedLater left right = true).head?

theorem finishedDuplicate_eq_some {store : Store} {found : HistoryJob}
    (selected : finishedDuplicate store job = some found) : found ∈ finishedHolders store job ∧
      ∀ other ∈ finishedHolders store job, finishedLater found other = true := by
  have total (left right : HistoryJob) : finishedLater left right = true ∨ finishedLater right left = true := by
    simp only [finishedLater, Bool.or_eq_true, Bool.and_eq_true, decide_eq_true_eq]
    omega
  have trans (first second third : HistoryJob) (pre : finishedLater first second = true)
      (after : finishedLater second third = true) : finishedLater first third = true := by
    simp only [finishedLater, Bool.or_eq_true, Bool.and_eq_true, decide_eq_true_eq] at pre after ⊢
    omega
  have : Std.Total fun left right => finishedLater left right = true := ⟨total⟩
  have : IsTrans HistoryJob fun left right => finishedLater left right = true := ⟨trans⟩
  obtain ⟨rest, sorted⟩ := head?_eq_some_iff.mp selected
  have ordered := pairwise_insertionSort (fun left right => finishedLater left right = true) (finishedHolders store job)
  have mem {row : HistoryJob} := mem_insertionSort (fun left right => finishedLater left right = true)
    (l := finishedHolders store job) (x := row)
  rw [sorted] at ordered mem
  refine ⟨mem.mp mem_cons_self, fun other otherMem => ?_⟩
  rcases mem_cons.mp (mem.mpr otherMem) with rfl | later
  · simp [finishedLater]
  · exact (pairwise_cons.mp ordered).1 other later

def replaced (x : W) (job : JobInsert) (row : LiveJob) : LiveJob :=
  let scheduledAt := job.scheduledAt.getD x.nanos
  { row with
    args := job.args, metadata := job.metadata, tags := job.tags, priority := job.priority,
    maxAttempts := job.maxAttempts, scheduledAt := scheduledAt / 1000,
    state := if scheduledAt > x.nanos then .scheduled else .available,
    progress := none, snoozeReason := none }

def replace (x : W) (job : JobInsert) (row : LiveJob) : Tx JobRow := do
  if job.priority < 1 ∨ job.priority > 4 then
    throw (.refused "CHECK constraint failed: priority BETWEEN 1 AND 4")
  else do
    modify (updateJob row.id (x.replaced job) fun _ => rfl)
    pure (scanJob (x.replaced job row))

/-- The live job that holds an insert's unique key, if it has one. -/
def liveDuplicate (store : Store) (job : JobInsert) : Option LiveJob :=
  if job.uniqueKey = "" then none else store.holder? job.kind job.uniqueKey

/-- One input of an insert: a job found live or finished with its key is its
duplicate, and nothing is inserted for it. -/
def insertOne (x : W) (onConflict : ConflictAction) (job : JobInsert) : Tx JobInsertResult := do
  let store ← get
  match liveDuplicate store job with
  | some holder =>
    if onConflict = .replace ∧ holder.state ≠ .running then do
      let row ← x.replace job holder
      pure ⟨row, true⟩
    else
      pure ⟨scanJob holder, true⟩
  | none =>
    match if job.uniqueKey = "" then none else finishedDuplicate store job with
    | some found =>
      -- The job never joins its batch, which counts it as the outcome it
      -- was found in, as its finalize would.
      if job.batchID ≠ 0 then do
        let failed := decide (found.state ≠ .completed)
        set { store with journal := .found job.batchID failed :: store.journal }
        x.countBatch job.batchID 1 (if failed then 1 else 0)
        pure ⟨scanHistoryJob found, true⟩
      else
        pure ⟨scanHistoryJob found, true⟩
    | none => do
        let row ← x.insertJob job
        pure ⟨row, false⟩

/-- The row of a job as an insert that mints its ID leaves it. -/
def insertedRow (x : W) (job : JobInsert) (store : Store) : LiveJob :=
  { x.newRow job (x.engine.newID store.drawn) with seq := store.seq + 1 }

theorem yields_insertJob (mints : job.id = 0) {result : JobRow} (inserted : Yields (x.insertJob job) pre result after) :
    ∃ free : pre.jobs.has (x.insertedRow job pre).id = false,
      pre.uniqueTaken (x.insertedRow job pre) = false ∧ result = scanJob (x.insertedRow job pre) ∧
      after = { pre with
        jobs := pre.jobs.append (x.insertedRow job pre) free
        seq := pre.seq + 1, drawn := pre.drawn + 1
        journal := .inserted (x.insertedRow job pre) :: pre.journal } := by
  rw [insertJob, insertJobAs, if_pos mints, yields_bind] at inserted
  obtain ⟨id, middle, minted, inserted⟩ := inserted
  obtain ⟨rfl, rfl⟩ := yields_mint.mp minted
  obtain ⟨free, unique, rfl, rfl⟩ := yields_insertRow inserted
  exact ⟨free, unique, rfl, rfl⟩

theorem yields_insertOne {onConflict : ConflictAction} {result : JobInsertResult}
    (inserted : Yields (x.insertOne onConflict job) pre result after) :
    (∃ holder, liveDuplicate pre job = some holder ∧ result.duplicate = true ∧
      ((onConflict = .replace ∧ holder.state ≠ .running ∧ result.job = scanJob (x.replaced job holder) ∧
          after = updateJob holder.id (x.replaced job) (fun _ => rfl) pre) ∨
        (¬(onConflict = .replace ∧ holder.state ≠ .running) ∧ result.job = scanJob holder ∧ after = pre))) ∨
    (liveDuplicate pre job = none ∧ job.uniqueKey ≠ "" ∧ ∃ found, finishedDuplicate pre job = some found ∧
      result = ⟨scanHistoryJob found, true⟩ ∧
      ((job.batchID = 0 ∧ after = pre) ∨
        (job.batchID ≠ 0 ∧ Yields (x.countBatch job.batchID 1 (if found.state ≠ .completed then 1 else 0))
          { pre with journal := .found job.batchID (decide (found.state ≠ .completed)) :: pre.journal }
          () after))) ∨
    (liveDuplicate pre job = none ∧ (job.uniqueKey = "" ∨ finishedDuplicate pre job = none) ∧
      result.duplicate = false ∧ Yields (x.insertJob job) pre result.job after) := by
  rw [insertOne, yields_get_bind] at inserted
  split at inserted
  · next holder found =>
    refine .inl ⟨holder, found, ?_⟩
    split at inserted
    · next replacing =>
      unfold replace at inserted
      split at inserted
      · simp at inserted
      · simp only [yields_bind, yields_modify, yields_pure] at inserted
        obtain ⟨_, _, ⟨_, _, rfl, rfl, rfl⟩, rfl, rfl⟩ := inserted
        exact ⟨rfl, .inl ⟨replacing.1, replacing.2, rfl, rfl⟩⟩
    · next kept =>
      obtain ⟨rfl, rfl⟩ := yields_pure.mp inserted
      exact ⟨rfl, .inr ⟨kept, rfl, rfl⟩⟩
  · next free =>
    refine .inr ?_
    split at inserted
    · next found searched =>
      split at searched
      · cases searched
      · next named =>
        refine .inl ⟨free, named, found, searched, ?_⟩
        split at inserted
        · next batched =>
          simp only [yields_bind, yields_set, yields_pure, decide_eq_true_eq] at inserted
          obtain ⟨_, _, rfl, _, _, counted, rfl, rfl⟩ := inserted
          exact ⟨rfl, .inr ⟨batched, counted⟩⟩
        · next unbatched =>
          obtain ⟨rfl, rfl⟩ := yields_pure.mp inserted
          exact ⟨rfl, .inl ⟨not_not.mp unbatched, rfl⟩⟩
    · next none =>
      refine .inr ⟨free, ?_, ?_⟩
      · split at none
        · next unnamed => exact .inl unnamed
        · exact .inr none
      · simp only [yields_bind, yields_pure] at inserted
        obtain ⟨_, _, stored, rfl, rfl⟩ := inserted
        exact ⟨rfl, stored⟩

def insertJobs (x : W) (jobs : List JobInsert) (onConflict : ConflictAction) :
    Tx (List JobInsertResult) :=
  jobs.mapM (x.insertOne onConflict)

def distinctQueues (jobs : List JobInsert) : List String :=
  jobs.foldl (fun out job => if job.queue ∈ out then out else out ++ [job.queue]) []

def jobInsertMany (x : W) (params : List JobInsertParams) (opts : JobInsertOpts) :
    Tx (List JobInsertResult) := do
  if params = [] then
    pure []
  else do
    let jobs ← ensure (params.mapM encodeInsert)
    describing (.inOperation "hopper: insert jobs: ") do
      let results ← x.insertJobs jobs opts.onConflict
      if opts.notify then
        modify (x.notify channelInsert (distinctQueues jobs))
      pure results

theorem yields_jobInsertMany {params : List JobInsertParams} {opts : JobInsertOpts} {results : List JobInsertResult}
    (inserted : Yields (x.jobInsertMany params opts) pre results after) :
    ∃ jobs middle notes, params.mapM encodeInsert = .ok jobs ∧ Yields (x.insertJobs jobs opts.onConflict) pre results middle ∧
      after = { middle with notifications := notes } := by
  rw [jobInsertMany] at inserted
  split at inserted
  · next none =>
    obtain ⟨rfl, rfl⟩ := yields_pure.mp inserted
    refine ⟨[], after, after.notifications, by rw [none]; rfl, ?_, rfl⟩
    exact yields_mapM_nil.mpr ⟨rfl, rfl⟩
  · simp only [yields_bind, yields_ensure, yields_describing] at inserted
    obtain ⟨jobs, _, ⟨encoded, rfl⟩, found, middle, stored, noted⟩ := inserted
    refine ⟨jobs, middle, ?_⟩
    split at noted
    · simp only [yields_bind, yields_modify, yields_pure] at noted
      obtain ⟨_, _, rfl, rfl, rfl⟩ := noted
      obtain ⟨notes, same⟩ := notify_eq x channelInsert (distinctQueues jobs) middle
      rw [same]
      exact ⟨notes, encoded, stored, rfl⟩
    · obtain ⟨rfl, rfl⟩ := yields_pure.mp noted
      exact ⟨after.notifications, encoded, stored, rfl⟩

end W

end Hopper.Sqlite
