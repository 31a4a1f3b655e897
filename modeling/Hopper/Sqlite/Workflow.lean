import Hopper.Sqlite.Leases

/-! Batches and workflows: inserting them, sweeping what they leave, and the
promotion pass. -/

namespace Hopper.Sqlite

open List Kernel Driver

/-- A batch callback encoded for the batch row, refusing values a job could
not be inserted with. -/
def callbackJSON (params : JobInsertParams) : Except Failure Callback := do
  if params.priority < 1 ∨ params.priority > 4 then
    throw (.refused ("hopper: callback priority " ++ toString params.priority ++
      " is out of range 1..4"))
  else do
    let maxAttempts ← smallint params.maxAttempts "callback max_attempts"
    pure {
      kind := params.kind, queue := params.queue, priority := some params.priority,
      maxAttempts := some maxAttempts, args := jsonValue params.args emptyObject,
      metadata := params.metadata.getD (.object []), tags := params.tags }

def callbackOption (params : Option JobInsertParams) : Except Failure (Option Callback) :=
  match params with
  | none => .ok none
  | some params => (callbackJSON params).map some

/-- A batch's callbacks and metadata, encoded for its row. -/
structure BatchEncoded where
  onSuccess : Option Callback
  onFailure : Option Callback
  onComplete : Option Callback
  metadata : Document

def encodeBatch (onSuccess onFailure onComplete : Option JobInsertParams)
    (metadata : Option Document) : Except Failure BatchEncoded := do
  let success ← callbackOption onSuccess
  let failure ← callbackOption onFailure
  let complete ← callbackOption onComplete
  pure ⟨success, failure, complete, metadata.getD (.object [])⟩

namespace W

def batchRow (x : W) (id : JobID) (name : String) (total : Int) (batch : BatchEncoded)
    (edges : Option (List JobEdge)) (steps : List (JobID × String)) (reads : Bool) : BatchRow :=
  { id := id, name := nullable name, pending := total, failed := 0, total := total,
    onSuccess := batch.onSuccess, onFailure := batch.onFailure, onComplete := batch.onComplete,
    metadata := batch.metadata, edges := edges, steps := steps, reads := reads,
    createdAt := x.now, completedAt := none }

def insertBatch (x : W) (id : JobID) (name : String) (total : Int) (batch : BatchEncoded)
    (edges : Option (List JobEdge)) (steps : List (JobID × String)) (reads : Bool) : Tx Unit := do
  let store ← get
  let row := x.batchRow id name total batch edges steps reads
  match free : store.batches.has row.id with
  | true => throw (.constraint "hopper_batches.id")
  | false => set { store with batches := store.batches.append row free }

variable {x : W} {batch : JobID} {steps : List (JobInsert × JobID)} {pre post : Store}

theorem yields_insertBatch {id : JobID} {name : String} {total : Int} {batch : BatchEncoded}
    {edges : Option (List JobEdge)} {steps : List (JobID × String)} {reads : Bool} {done : Unit}
    (inserted : Yields (x.insertBatch id name total batch edges steps reads) pre done post) :
    ∃ free : pre.batches.has (x.batchRow id name total batch edges steps reads).id = false, post = { pre with
        batches := pre.batches.append (x.batchRow id name total batch edges steps reads) free } := by
  rw [insertBatch, yields_get_bind] at inserted
  dsimp only at inserted
  split at inserted
  · simp at inserted
  · next free => exact ⟨free, yields_set.mp inserted⟩

def batchInsert (x : W) (params : BatchInsertParams) : Tx JobID := do
  let batch ← ensure (encodeBatch params.onSuccess params.onFailure params.onComplete params.metadata)
  describing (.inOperation "hopper: insert batch: ") do
    let id ← x.mint
    x.insertBatch id "" params.total batch none [] false
    pure id

theorem yields_batchInsert {params : BatchInsertParams} {id : JobID} (inserted : Yields (x.batchInsert params) pre id post) :
    ∃ encoded, encodeBatch params.onSuccess params.onFailure params.onComplete params.metadata = .ok encoded ∧
      id = x.engine.newID pre.drawn ∧
      ∃ free, post = { pre with
        drawn := pre.drawn + 1
        batches := pre.batches.append (x.batchRow id "" params.total encoded none [] false) free } := by
  simp only [batchInsert, yields_bind, yields_ensure, yields_describing] at inserted
  obtain ⟨encoded, _, ⟨accepted, rfl⟩, _, _, minted, _, _, opened, returned⟩ := inserted
  obtain ⟨rfl, rfl⟩ := yields_pure.mp returned
  obtain ⟨rfl, rfl⟩ := yields_mint.mp minted
  obtain ⟨free, rfl⟩ := yields_insertBatch opened
  exact ⟨encoded, accepted, rfl, free, rfl⟩

/-- Results of workflows that have completed or no longer exist. -/
def orphanResult (store : Store) (row : ResultRow) : Bool :=
  !(store.batches.find? row.batchID).any fun batch => batch.completedAt.isNone

/-- A sweep deletes results of workflows that have completed; no progress is
ever left to fold. -/
def batchSettle (params : BatchSettleParams) : Tx Unit := do
  if params.ids.isSome ∨ params.results = false then
    pure ()
  else do
    let store ← get
    let swept := (store.results.rows.filter (orphanResult store)).take (max params.limit 1).toNat
    set { store with results := store.results.delete fun row => decide (row ∈ swept) }

/-- A workflow's jobs encoded, each pending if it has a dependency. -/
def encodeSteps (params : List JobInsertParams) (pending : List Bool) :
    Except Failure (List JobInsert) :=
  params.zipIdx.mapM fun (job, position) => do
    if job.uniqueKey ≠ "" then
      throw (.refused ("hopper: insert workflow: job " ++ toString position ++ " has a unique key"))
    else do
      let encoded ← encodeInsert job
      pure { encoded with pending := pending.getD position false }

theorem encodeSteps_mem {params : List JobInsertParams} {pending : List Bool} {jobs : List JobInsert}
    (accepted : encodeSteps params pending = .ok jobs) {job : JobInsert} (mem : job ∈ jobs) :
    ∃ given ∈ params, ∃ encoded waits, given.uniqueKey = "" ∧ encodeInsert given = .ok encoded ∧
      job = { encoded with pending := waits } := by
  obtain ⟨⟨given, position⟩, givenMem, made⟩ := mapM_ok_mem accepted mem
  refine ⟨given, (mem_zipIdx' givenMem).2 ▸ getElem_mem _, ?_⟩
  dsimp only at made
  split at made
  · cases made
  · next unnamed =>
    cases inserted : encodeInsert given with
    | error => simp [inserted, bind, Except.bind] at made
    | ok encoded =>
      simp only [inserted, bind, Except.bind, pure, Except.pure, Except.ok.injEq] at made
      exact ⟨encoded, _, by simpa using unnamed, rfl, made.symm⟩

/-- The edge row of a dependency. Only a claim reads an edge's step name, and
only of an edge that reads. -/
def depRow (ids : List JobID) (steps : List String) (edge : JobDependency) : DepRow :=
  { jobID := ids.getD edge.job.toNat 0
    dependsOn := ids.getD edge.dependsOn.toNat 0
    onFailure := edgePolicy edge
    step := if edge.reads ∧ steps ≠ [] then nullable (steps.getD edge.dependsOn.toNat "") else none
    reads := edge.reads
    anyOf := if edge.anyOf ≠ 0 then some edge.anyOf else none }

/-- `INSERT OR IGNORE`: an edge given twice is kept as given first. -/
def insertDep (store : Store) (row : DepRow) : Store :=
  { store with deps := store.deps.upsert row id fun _ => rfl }

/-- The queues of the jobs that start available, each once. -/
def startQueues (jobs : List JobInsert) : List String :=
  distinctQueues (jobs.filter fun job => !job.pending)

/-- Whether a workflow's results are deleted once it has completed. -/
def workflowReads (params : WorkflowInsertParams) : Bool :=
  params.deps.any fun edge => edge.reads || edge.anyOf ≠ 0

def insertDeps (params : WorkflowInsertParams) (ids : List JobID) (store : Store) : Store :=
  (params.deps.map (depRow ids params.steps)).foldl insertDep store

/-- The jobs of a workflow inserted under the IDs minted for them. -/
def insertSteps (x : W) (batch : JobID) (steps : List (JobInsert × JobID)) : Tx (List JobInsertResult) :=
  steps.mapM fun step => do
    let row ← describing (.inOperation "insert jobs: ")
      (x.insertJob { step.1 with id := step.2, batchID := batch })
    pure { job := row, duplicate := false }

def workflowInsert (x : W) (params : WorkflowInsertParams) : Tx WorkflowInsertResult := do
  if params.jobs = [] then
    throw (.refused "hopper: insert workflow: no jobs")
  else do
    let pending ← describing (.inOperation "hopper: insert workflow: ")
      (ensure (checkDependencies params.deps params.jobs.length))
    let jobs ← ensure (encodeSteps params.jobs pending)
    let batch ← ensure (encodeBatch params.onSuccess params.onFailure params.onComplete params.metadata)
    describing (.inOperation "hopper: insert workflow: ") do
      let ids ← jobs.mapM fun _ => x.mint
      let steps ← ensure (stepsJSON params.steps ids)
      let batchID ← x.mint
      describing (.inOperation "insert batch: ")
        (x.insertBatch batchID params.name params.jobs.length batch
          (some (edgesJSON params.deps ids)) steps (workflowReads params))
      let results ← x.insertSteps batchID (jobs.zip ids)
      modify (insertDeps params ids)
      if params.notify then
        modify (x.notify channelInsert (startQueues jobs))
      pure { id := batchID, jobs := results }

def stepRow (x : W) (batch : JobID) (step : JobInsert × JobID) (seq : Nat) : LiveJob :=
  { x.newRow { step.1 with id := step.2, batchID := batch } step.2 with seq := seq }

/-- The rows of a workflow's jobs, by the sequence number before them. -/
def stepRows (x : W) (batch : JobID) : List (JobInsert × JobID) → Nat → List LiveJob
  | [], _ => []
  | step :: rest, seq => x.stepRow batch step (seq + 1) :: stepRows x batch rest (seq + 1)

theorem mem_stepRows {seq : Nat} {row : LiveJob} (mem : row ∈ x.stepRows batch steps seq) :
    ∃ step ∈ steps, ∃ number, row = x.stepRow batch step number := by
  induction steps generalizing seq with
  | nil => cases mem
  | cons step steps ih =>
    rcases mem_cons.mp mem with rfl | later
    · exact ⟨step, mem_cons_self, _, rfl⟩
    · obtain ⟨other, otherMem, found⟩ := ih later
      exact ⟨other, mem_cons_of_mem _ otherMem, found⟩

theorem stepRows_mem (seq : Nat) {step : JobInsert × JobID} (mem : step ∈ steps) :
    ∃ number, x.stepRow batch step number ∈ x.stepRows batch steps seq := by
  induction steps generalizing seq with
  | nil => cases mem
  | cons first steps ih =>
    rcases mem_cons.mp mem with rfl | later
    · exact ⟨seq + 1, mem_cons_self⟩
    · obtain ⟨number, found⟩ := ih (seq + 1) later
      exact ⟨number, mem_cons_of_mem _ found⟩

theorem yields_insertSteps {results : List JobInsertResult} (named : ∀ step ∈ steps, step.2 ≠ 0)
    (inserted : Yields (x.insertSteps batch steps) pre results post) :
    ∃ jobs : Table LiveJob, jobs.rows = pre.jobs.rows ++ x.stepRows batch steps pre.seq ∧ post = { pre with
        jobs := jobs
        seq := pre.seq + steps.length
        journal := ((x.stepRows batch steps pre.seq).map Event.inserted).reverse ++ pre.journal } := by
  induction steps generalizing pre results with
  | nil =>
    rw [insertSteps, yields_mapM_nil] at inserted
    obtain ⟨-, rfl⟩ := inserted
    exact ⟨post.jobs, by simp [stepRows], by simp [stepRows]⟩
  | cons step steps ih =>
    rw [insertSteps, yields_mapM_cons] at inserted
    obtain ⟨value, middle, rest, first, others, -⟩ := inserted
    simp only [yields_bind, yields_describing, yields_pure] at first
    obtain ⟨row, _, first, -, rfl⟩ := first
    rw [insertJob, insertJobAs, if_neg (named step mem_cons_self)] at first
    obtain ⟨free, -, -, rfl⟩ := yields_insertRow first
    obtain ⟨jobs, rows, rfl⟩ := ih (fun other mem => named other (mem_cons_of_mem _ mem)) others
    refine ⟨jobs, ?_, ?_⟩
    · rw [rows]
      simp [stepRows, stepRow, sequenced]
    · have number : pre.seq + 1 + steps.length = pre.seq + (steps.length + 1) := by omega
      simp [stepRows, stepRow, sequenced, number]

theorem yields_mints {Item : Type} {items : List Item} {ids : List JobID}
    (minted : Yields (items.mapM fun _ => x.mint) pre ids post) :
    ids = (List.range' pre.drawn items.length).map x.engine.newID ∧
      post = { pre with drawn := pre.drawn + items.length } := by
  induction items generalizing pre ids with
  | nil => simpa using minted
  | cons item items ih =>
    obtain ⟨id, middle, rest, first, others, rfl⟩ := yields_mapM_cons.mp minted
    obtain ⟨rfl, rfl⟩ := yields_mint.mp first
    obtain ⟨rfl, rfl⟩ := ih others
    have number : pre.drawn + 1 + items.length = pre.drawn + (items.length + 1) := by omega
    simp [List.range'_succ, number]

/-- The IDs minted for the jobs of a workflow, before the one of its batch. -/
def workflowIDs (x : W) (store : Store) (count : Nat) : List JobID :=
  (List.range' store.drawn count).map x.engine.newID

def workflowID (x : W) (store : Store) (count : Nat) : JobID :=
  x.engine.newID (store.drawn + count)

def workflowRow (x : W) (params : WorkflowInsertParams) (count : Nat) (batch : BatchEncoded)
    (names : List (JobID × String)) (store : Store) : BatchRow :=
  x.batchRow (x.workflowID store count) params.name params.jobs.length batch
    (some (edgesJSON params.deps (x.workflowIDs store count))) names (workflowReads params)

/-- The store once the IDs of a workflow are minted and its row is inserted. -/
def openedStore (row : BatchRow) (count : Nat) (store : Store)
    (free : store.batches.has row.id = false) : Store :=
  { store with drawn := store.drawn + count + 1, batches := store.batches.append row free }

/-- A workflow of encoded jobs inserted under the IDs minted for it: its row
and its jobs, before its edges. -/
def WorkflowRows (x : W) (params : WorkflowInsertParams) (jobs : List JobInsert) (batch : BatchEncoded)
    (names : List (JobID × String)) (before after : Store) : Prop :=
  ∃ free results, Yields
    (x.insertSteps (x.workflowID before jobs.length) (jobs.zip (x.workflowIDs before jobs.length)))
    (openedStore (x.workflowRow params jobs.length batch names before) jobs.length before free) results after

theorem yields_workflowInsert {params : WorkflowInsertParams} {result : WorkflowInsertResult}
    (inserted : Yields (x.workflowInsert params) pre result post) : ∃ pending jobs batch names rows,
      checkDependencies params.deps params.jobs.length = .ok pending ∧
      encodeSteps params.jobs pending = .ok jobs ∧
      x.WorkflowRows params jobs batch names pre rows ∧
      result.id = x.workflowID pre jobs.length ∧
      post = (if params.notify then x.notify channelInsert (startQueues jobs) else id)
        (insertDeps params (x.workflowIDs pre jobs.length) rows) := by
  unfold workflowInsert at inserted
  split at inserted
  · simp at inserted
  · simp only [yields_bind, yields_describing, yields_ensure] at inserted
    obtain ⟨pending, _, ⟨checked, rfl⟩, jobs, _, ⟨encoded, rfl⟩, batch, _, ⟨_, rfl⟩,
      ids, minted, mints, names, _, ⟨_, rfl⟩, batchID, middle, mint, _, opened, openedBatch,
      results, rows, steps, _, wired, deps, ended⟩ := inserted
    obtain ⟨rfl, rfl⟩ := yields_mints mints
    obtain ⟨rfl, rfl⟩ := yields_mint.mp mint
    obtain ⟨free, rfl⟩ := yields_insertBatch openedBatch
    rw [yields_modify] at deps
    subst deps
    refine ⟨pending, jobs, batch, names, rows, checked, encoded, ⟨free, results, steps⟩, ?_⟩
    cases announced : params.notify with
    | true =>
      simp only [announced, if_true, yields_bind, yields_modify, yields_pure] at ended
      obtain ⟨_, _, rfl, rfl, rfl⟩ := ended
      exact ⟨rfl, rfl⟩
    | false =>
      simp only [announced, Bool.false_eq_true, if_false, yields_pure] at ended
      obtain ⟨rfl, rfl⟩ := ended
      exact ⟨rfl, rfl⟩

/-- The jobs a promotion pass considers, in the order of their IDs. -/
def promoteCandidates (store : Store) (params : WorkflowPromoteParams) : List JobID :=
  let edges :=
    match params.dependsOn with
    | none => store.deps.rows.filter fun edge : DepRow => decide (params.after < edge.jobID)
    | some ids => store.deps.rows.filter fun edge : DepRow => decide (edge.dependsOn ∈ ids)
  let sorted := (edges.map DepRow.jobID).dedup.insertionSort (· ≤ ·)
  match params.dependsOn with
  | none => sorted.take (max params.limit 1).toNat
  | some _ => sorted

def pendingAmong (store : Store) (ids : List JobID) : List LiveJob :=
  store.jobs.rows.filter fun row => decide (row.id ∈ ids ∧ row.state = .pending)

/-- Whether none of a pending job's dependencies holds it. -/
def ready (store : Store) (row : LiveJob) : Bool :=
  store.ordinaryDone row && store.anyOfReady row

/-- Cancels a pending job that an exhausted any-of group holds, and returns
how many jobs it finished. -/
def cancelExhausted (x : W) (id : JobID) : Tx Nat := do
  let store ← get
  match (store.jobs.find? id).filter fun row => decide (row.state = .pending) && store.anyOfCancel row with
  | none => pure 0
  | some row => do
      modify (x.cancelDependent row)
      let finished ← x.tail [x.dependentFinished row]
      pure finished.length

/-- Promotes a job if it is ready, and reports whether it did. -/
def promote (x : W) (id : JobID) : Tx Bool := do
  let store ← get
  set (x.promoteIfReady store id)
  pure ((store.jobs.find? id).any fun row => decide (row.state = .pending) && ready store row)

def workflowPromoteReady (x : W) (params : WorkflowPromoteParams) : Tx WorkflowPromoteResult := do
  if params.dependsOn = some [] then
    pure {}
  else do
    let store ← get
    let candidates := promoteCandidates store params
    let scanned : WorkflowPromoteResult :=
      { scanned := candidates.length, last := candidates.getLastD 0 }
    let pending := pendingAmong store candidates
    let readyJobs := pending.filter (ready store)
    let exhausted := pending.filter fun row => !ready store row && store.anyOfCancel row
    if readyJobs = [] ∧ exhausted = [] then
      pure scanned
    else
      describing (.inOperation "hopper: promote ready workflow jobs: ") do
        let promoted ← readyJobs.mapM fun row => x.promote row.id
        let canceled ← exhausted.mapM fun row => x.cancelExhausted row.id
        pure { scanned with promoted := promoted.count true, canceled := canceled.sum }

end W

end Hopper.Sqlite
