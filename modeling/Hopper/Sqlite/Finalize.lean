import Hopper.Sqlite.Insert

/-! Finalizing jobs, and the tail of every write that does: recording the
results dependents need, canceling the dependents of failed jobs, counting
the jobs down in their batches, promoting dependents and dropping edges. -/

namespace Hopper.Sqlite

open List Kernel Driver

/-- A job leaving the live table: its final state and what its history row
keeps. -/
structure Finished where
  row : LiveJob
  state : JobState
  errors : List AttemptError
  logs : Option (List AttemptLog)
  output : Option String := none
  archive : Bool
deriving DecidableEq

namespace Finished

def failed (finished : Finished) : Bool := finished.state != .completed

/-- The history row of the job, copied from its live row. -/
def archivedAt (finished : Finished) (now : Int) : HistoryJob :=
  { finished.row.toJob with
    state := finished.state, errors := finished.errors, logs := finished.logs,
    finalizedAt := now, output := finished.output }

def jobRow (finished : Finished) (now : Int) : JobRow :=
  { scanJob finished.row with
    state := finished.state, finalizedAt := some now, snoozeReason := none,
    errors := finished.errors, output := finished.output }

end Finished

def withErrorAt (stored : List AttemptError) (error : AttemptError) (now : Int) :
    List AttemptError :=
  stored ++ [error.storedAt now]

/-- The errors of a job that hopper itself fails while it waits: a snoozed
job's reason is kept in the error. -/
def hopperError (row : LiveJob) (message : String) (now : Int) : List AttemptError :=
  let text :=
    match row.state, row.snoozeReason with
    | .scheduled, some reason => message ++ " while snoozed: " ++ reason
    | _, _ => message
  withErrorAt row.errors { attempt := row.attempt, error := text } now

/-- How many attempt logs a finalize keeps; `math.MaxInt32` when unset. -/
def keepLogs (keep : Int) : Nat :=
  if keep ≤ 0 then 2147483647 else keep.toNat

/-- Appends an attempt's log, if it has one, keeping the latest. A snooze
replaces the log of the job's previous snooze of the same attempt number. -/
def appendLog (stored : Option (List AttemptLog)) (attempt : Int) (snooze : Bool)
    (log : Option AttemptLog) (keep : Nat) : Option (List AttemptLog) :=
  let entries := stored.getD []
  let sameSnooze : AttemptLog → Bool := fun entry => entry.snoozed && entry.attempt == attempt
  let replaces := snooze && entries.any sameSnooze
  if log.isNone && !replaces then
    stored
  else
    let kept := (entries.filter fun entry => !snooze || !sameSnooze entry) ++ log.toList
    let latest := kept.drop (kept.length - keep)
    if latest = [] then none else some latest

structure Result extends JobFinalize where
  err : Option AttemptError
  entry : Option AttemptLog
  out : Option String
  reason : Option String

/-- A result that passed its check; that of a leased job carries the fence of
its lease. -/
def encodeResult (result : JobFinalize) : Result :=
  { result with
    fence := (result.lease.map LeaseFence.fence).getD result.fence
    err := result.error
    entry := marshalAttemptLog result
    out := nullable result.output
    reason := nullable (storableText result.snoozeReason) }

namespace Store

def leaseOwns (store : Store) (row : LiveJob) (lease : LeaseFence) : Bool :=
  decide (row.state = .running) && decide (row.attemptedBy.getD 0 = 0) &&
    decide (row.fence = lease.fence) &&
    store.leases.rows.any fun held =>
      decide (held.id = row.id ∧ held.token = lease.token ∧ held.fence = lease.fence)

/-- Whether a result comes from the claim a live row runs in: the same client
at the same fence, or its lease. -/
def owns (store : Store) (row : LiveJob) (result : JobFinalize) : Bool :=
  match result.lease with
  | some lease => store.leaseOwns row lease
  | none =>
    decide (row.state = .running) && decide (row.attemptedBy.getD 0 ≠ 0) &&
      decide (row.attemptedBy.getD 0 = result.attemptedBy) && decide (row.fence = result.fence)

def releaseLease (id : JobID) (store : Store) : Store :=
  { store with leases := store.leases.delete fun row => decide (row.id = id) }

/-- The edges of a job's dependents, in the order of their IDs. -/
def dependentsOf (store : Store) (id : JobID) : List DepRow :=
  (store.deps.rows.filter fun edge => decide (edge.dependsOn = id)).insertionSort
    fun left right => left.jobID ≤ right.jobID

/-- Whether a job of an any-of group of a dependent in a batch has completed:
it is gone without a result of another state. -/
def anyOfSatisfied (store : Store) (batch : Option JobID) (member : JobID) : Bool :=
  !store.live member &&
    !store.results.rows.any fun row =>
      decide (some row.batchID = batch ∧ row.jobID = member ∧ row.state ≠ .completed)

def anyOfGroup (store : Store) (job : JobID) (group : Option Int) : List DepRow :=
  store.deps.rows.filter fun edge => decide (edge.jobID = job ∧ edge.anyOf.isSome ∧ edge.anyOf = group)

/-- Whether none of the jobs of an edge's any-of group is live or completed. -/
def anyOfExhausted (store : Store) (edge : DepRow) (batch : Option JobID) : Bool :=
  !(store.anyOfGroup edge.jobID edge.anyOf).any fun other =>
    store.live other.dependsOn || store.anyOfSatisfied batch other.dependsOn

def anyOfReady (store : Store) (row : LiveJob) : Bool :=
  !store.deps.rows.any fun edge =>
    decide (edge.jobID = row.id) && edge.anyOf.isSome &&
      (decide (edge.onFailure = .anyCancel) || store.live edge.dependsOn) &&
      !(store.anyOfGroup row.id edge.anyOf).any fun other =>
        store.anyOfSatisfied row.batchID other.dependsOn

/-- Whether none of a job's ordinary dependencies is live. -/
def ordinaryDone (store : Store) (row : LiveJob) : Bool :=
  !store.deps.rows.any fun edge =>
    decide (edge.jobID = row.id) && edge.anyOf.isNone && store.live edge.dependsOn

/-- Whether an exhausted any-of group that cancels holds a job. -/
def anyOfCancel (store : Store) (row : LiveJob) : Bool :=
  store.deps.rows.any fun edge =>
    decide (edge.jobID = row.id ∧ edge.onFailure = .anyCancel) &&
      store.anyOfExhausted edge row.batchID

end Store

namespace W

/-- Moves a job out of the live table, to history if it is archived, and
announces it to those awaiting it. -/
def finish (x : W) (finished : Finished) (store : Store) : Store :=
  let moved := { store with
    history := if finished.archive then store.history ++ [finished.archivedAt x.now] else store.history
    jobs := store.jobs.delete fun row => decide (row.id = finished.row.id)
    journal := .finished finished.row finished.state finished.output :: store.journal }
  if finished.row.await then x.notify channelDone [finished.row.id.text] moved else moved

/-- Records the final state of a job with a dependent that reads it or has it
in an any-of group, with its output for one that reads it. -/
def recordResult (x : W) (finished : Finished) (store : Store) : Store :=
  let edges := store.dependentsOf finished.row.id
  match finished.row.batchID with
  | none => store
  | some batch =>
    if edges.any fun edge => edge.reads || edge.anyOf.isSome then
      let result : ResultRow :=
        { batchID := batch, jobID := finished.row.id, state := finished.state,
          output := if edges.any fun edge => edge.reads then finished.output else none,
          finalizedAt := x.now }
      { store with
        results := store.results.upsert result
          (fun row => { row with
            state := result.state, output := result.output, finalizedAt := result.finalizedAt })
          fun _ => rfl }
    else
      store

/-- A pending job finished as canceled because a job it depends on failed, or
every job of one of its any-of groups did. -/
def dependentFinished (x : W) (row : LiveJob) : Finished :=
  { row := row, state := .canceled, errors := hopperError row "hopper: dependency failed" x.now,
    logs := row.logs, archive := true }

def cancelDependent (x : W) (row : LiveJob) (store : Store) : Store :=
  x.finish (x.dependentFinished row) { store with journal := .cascaded row.id :: store.journal }

end W

/-- A job the cascade goes on from: one that failed, with its batch, or one it
only passes through. -/
structure Step where
  id : JobID
  batch : Option JobID := none
  failed : Bool := false
deriving DecidableEq

/-- A cascade in progress. `dependents` are those of each finished job. -/
structure Walk where
  store : Store
  queue : List Step
  seen : List JobID := []
  finished : List Finished
  dependents : List JobID
  cascaded : List JobID := []

namespace W

/-- The dependents a job of the cascade leads to: by its cancel edges and, if
it failed, by the edges of the groups that cancel and are exhausted. -/
def selected (store : Store) (step : Step) : List JobID :=
  ((store.dependentsOf step.id).filter fun edge =>
    decide (edge.onFailure = .cancel) ||
      (step.failed && decide (edge.onFailure = .anyCancel) &&
        store.anyOfExhausted edge step.batch)).map DepRow.jobID

/-- A dependent the cascade leads to. One that is pending is canceled; through
any other the walk goes on by its cancel edges only, since it did not fail. -/
def visit (x : W) (walk : Walk) (dependent : JobID) : Walk :=
  if dependent ∈ walk.seen then
    walk
  else
    match walk.store.jobs.find? dependent with
    | some row =>
      if row.state = .pending then
        let finished := x.dependentFinished row
        let canceled := x.cancelDependent row walk.store
        { store := x.recordResult finished canceled
          queue := walk.queue ++ [{ id := dependent, batch := row.batchID, failed := true }]
          seen := dependent :: walk.seen
          finished := walk.finished ++ [finished]
          dependents := walk.dependents ++ (canceled.dependentsOf dependent).map DepRow.jobID
          cascaded := dependent :: walk.cascaded }
      else
        { walk with queue := walk.queue ++ [{ id := dependent }], seen := dependent :: walk.seen }
    | none =>
      { walk with queue := walk.queue ++ [{ id := dependent }], seen := dependent :: walk.seen }

def advance (x : W) (walk : Walk) : Walk :=
  match walk.queue with
  | [] => walk
  | step :: rest => (selected walk.store step).foldl x.visit { walk with queue := rest }

/-- The cascade, as long as its queue has jobs; the fuel bounds it by the jobs
that can ever be queued. -/
def cascade (x : W) : Nat → Walk → Walk
  | 0, walk => walk
  | fuel + 1, walk =>
    match walk.queue with
    | [] => walk
    | _ :: _ => cascade x fuel (x.advance walk)

/-- The cascade's start: the results of the jobs that finished are recorded,
and those that failed are queued. -/
def startWalk (x : W) (finished : List Finished) (store : Store) : Walk :=
  { store := finished.foldl (fun store job => x.recordResult job store) store
    queue := (finished.filter Finished.failed).map fun job =>
      { id := job.row.id, batch := job.row.batchID, failed := true }
    finished := finished
    dependents := finished.flatMap fun job => (store.dependentsOf job.row.id).map DepRow.jobID }

def cascadeFrom (x : W) (finished : List Finished) (store : Store) : Walk :=
  let walk := x.startWalk finished store
  x.cascade (walk.queue.length + store.deps.rows.length) walk

/-- The batches of the jobs that finished, each once, in their order. -/
def batchesOf (finished : List Finished) : List JobID :=
  (finished.filterMap fun job => job.row.batchID).foldl
    (fun out batch => if batch ∈ out then out else out ++ [batch]) []

def countOf (finished : List Finished) (batch : JobID) : Nat :=
  finished.countP fun job => decide (job.row.batchID = some batch)

def failedOf (finished : List Finished) (batch : JobID) : Nat :=
  finished.countP fun job => decide (job.row.batchID = some batch) && job.failed

def promoted (x : W) (row : LiveJob) : LiveJob :=
  { row with state := if row.scheduledAt > x.now then .scheduled else .available }

/-- Makes a pending job claimable if none of its dependencies is still live
and none of its any-of groups holds it. -/
def promoteIfReady (x : W) (store : Store) (id : JobID) : Store :=
  match store.jobs.find? id with
  | none => store
  | some row =>
    if row.state = .pending ∧ store.ordinaryDone row ∧ store.anyOfReady row then
      x.notify channelInsert [row.queue] (updateJob id x.promoted (fun _ => rfl) store)
    else
      store

/-- The dependents to consider for promotion, each once. -/
def candidates (walk : Walk) : List JobID :=
  walk.dependents.foldl
    (fun out id => if id ∈ out ∨ id ∈ walk.cascaded then out else out ++ [id]) []

def dropEdges (finished : List Finished) (store : Store) : Store :=
  { store with deps := store.deps.delete fun edge => finished.any fun job => decide (job.row.id = edge.jobID) }

/-- What the jobs that have just left the live table entail. It returns them
with the dependents it canceled after them. -/
def tail (x : W) (finished : List Finished) : Tx (List Finished) := do
  if finished = [] then
    pure []
  else do
    let store ← get
    let walk := x.cascadeFrom finished store
    set walk.store
    forM (batchesOf walk.finished) fun batch =>
      x.countBatch batch (countOf walk.finished batch) (failedOf walk.finished batch)
    modify fun store => dropEdges walk.finished ((candidates walk).foldl x.promoteIfReady store)
    pure walk.finished

theorem yields_tail {x : W} {finished all : List Finished} {pre post : Store}
    (drawn : Yields (x.tail finished) pre all post) :
    (finished = [] ∧ all = [] ∧ post = pre) ∨ (finished ≠ [] ∧ all = (x.cascadeFrom finished pre).finished ∧
        ∃ counted, Yields (forM (batchesOf all) fun batch => x.countBatch batch (countOf all batch) (failedOf all batch))
            (x.cascadeFrom finished pre).store ⟨⟩ counted ∧
          post = dropEdges all ((candidates (x.cascadeFrom finished pre)).foldl x.promoteIfReady counted)) := by
  unfold tail at drawn
  split at drawn
  · next none =>
    obtain ⟨rfl, rfl⟩ := yields_pure.mp drawn
    exact .inl ⟨none, rfl, rfl⟩
  · next some =>
    simp only [yields_bind, yields_get, yields_set, yields_modify, yields_pure] at drawn
    obtain ⟨_, store, ⟨rfl, rfl⟩, _, _, rfl, _, counted, forCounted, _, _, rfl, rfl, rfl⟩ := drawn
    exact .inr ⟨some, rfl, counted, forCounted, rfl⟩

theorem cascade_invariant {x : W} {Holds : Walk → Prop} (advances : ∀ walk, Holds walk → Holds (x.advance walk))
    (fuel : Nat) {walk : Walk} (holds : Holds walk) : Holds (x.cascade fuel walk) := by
  induction fuel generalizing walk with
  | zero => exact holds
  | succ fuel ih =>
    unfold cascade
    split
    · exact holds
    · exact ih (advances walk holds)

def tailCascaded (x : W) (finished : List Finished) : Tx (List JobID) := do
  let all ← x.tail finished
  pure ((all.drop finished.length).map fun job => job.row.id)

private theorem foldl_once {Item : Type} [DecidableEq Item] (items seen : List Item) (distinct : seen.Nodup) :
    (items.foldl (fun out item => if item ∈ out then out else out ++ [item]) seen).Nodup ∧
      ∀ item, item ∈ items.foldl (fun out item => if item ∈ out then out else out ++ [item]) seen ↔ item ∈ seen ∨ item ∈ items := by
  induction items generalizing seen with
  | nil => simp [distinct]
  | cons first items ih =>
    rw [foldl_cons]
    split
    · next known =>
      refine ⟨(ih seen distinct).1, fun item => ?_⟩
      rw [(ih seen distinct).2, mem_cons]
      constructor
      · exact Or.imp_right .inr
      · rintro (old | rfl | later)
        · exact .inl old
        · exact .inl known
        · exact .inr later
    · next new =>
      have more : (seen ++ [first]).Nodup := by
        rw [nodup_append]
        refine ⟨distinct, nodup_singleton _, fun item mem other same equal => new ?_⟩
        rw [← mem_singleton.mp same, ← equal]
        exact mem
      refine ⟨(ih _ more).1, fun item => ?_⟩
      rw [(ih _ more).2, List.mem_append, mem_singleton, mem_cons, or_assoc]

theorem nodup_batchesOf (finished : List Finished) : (batchesOf finished).Nodup :=
  (foldl_once _ [] nodup_nil).1

theorem mem_batchesOf {finished : List Finished} {batch : JobID} :
    batch ∈ batchesOf finished ↔ ∃ job ∈ finished, job.row.batchID = some batch := by
  rw [batchesOf, (foldl_once _ [] nodup_nil).2, mem_filterMap]
  simp

end W

/-- A store in the course of an operation, with the jobs that have left the
live table and whose consequences are still to be drawn. -/
structure Stage where
  store : Store
  due : List Finished := []

namespace W

/-- The jobs still due once a batch has counted those of it. -/
def uncounted (due : List Finished) (batch : JobID) : List Finished :=
  due.filter fun job => decide (job.row.batchID ≠ some batch)

theorem counts_uncounted (due : List Finished) {batch other : JobID} (different : other ≠ batch) :
    countOf (uncounted due batch) other = countOf due other ∧ failedOf (uncounted due batch) other = failedOf due other := by
  simp only [countOf, failedOf, uncounted, countP_filter]
  constructor
  · refine countP_congr fun job _ => ?_
    by_cases is : job.row.batchID = some other <;> simp [is, different]
  · refine countP_congr fun job _ => ?_
    by_cases is : job.row.batchID = some other <;> simp [is, different]

/-! A relation that each statement of the tail keeps within, the tail does. -/

section
variable {relation : Stage → Stage → Prop} (refl : ∀ stage, relation stage stage)
  (trans : ∀ first second third, relation first second → relation second third → relation first third)
  {x : W}
  (cancels : ∀ store due, ∀ row ∈ store.jobs, row.state = .pending →
    relation ⟨store, due⟩ ⟨x.cancelDependent row store, due ++ [x.dependentFinished row]⟩)
  (records : ∀ store due finished, relation ⟨store, due⟩ ⟨x.recordResult finished store, due⟩) {batches : List JobID}
variable {pre post : Store}
include refl trans cancels records

theorem visit_stages (walk : Walk) (dependent : JobID) : relation ⟨walk.store, walk.finished⟩
      ⟨(x.visit walk dependent).store, (x.visit walk dependent).finished⟩ := by
  unfold visit
  split
  · exact refl _
  · split
    · next row found =>
      split
      · next pending =>
        exact trans _ _ _ (cancels _ _ row (Table.mem_of_find? found) pending) (records _ _ _)
      · exact refl _
    · exact refl _

theorem advance_stages (walk : Walk) :
    relation ⟨walk.store, walk.finished⟩ ⟨(x.advance walk).store, (x.advance walk).finished⟩ := by
  have visits (dependents : List JobID) (walk : Walk) : relation ⟨walk.store, walk.finished⟩
        ⟨(dependents.foldl x.visit walk).store, (dependents.foldl x.visit walk).finished⟩ := by
    induction dependents generalizing walk with
    | nil => exact refl _
    | cons dependent dependents ih =>
      exact trans _ _ _ (visit_stages refl trans cancels records walk dependent) (ih _)
  unfold advance
  split
  · exact refl _
  · next step rest _ => exact visits (selected walk.store step) { walk with queue := rest }

theorem cascade_stages (fuel : Nat) (walk : Walk) :
    relation ⟨walk.store, walk.finished⟩ ⟨(x.cascade fuel walk).store, (x.cascade fuel walk).finished⟩ := by
  induction fuel generalizing walk with
  | zero => exact refl _
  | succ fuel ih =>
    unfold cascade
    split
    · exact refl _
    · exact trans _ _ _ (advance_stages refl trans cancels records walk) (ih _)

theorem cascadeFrom_stages (finished : List Finished) (store : Store) :
    relation ⟨store, finished⟩ ⟨(x.cascadeFrom finished store).store, (x.cascadeFrom finished store).finished⟩ := by
  have recorded (jobs : List Finished) (store : Store) :
      relation ⟨store, finished⟩ ⟨jobs.foldl (fun store job => x.recordResult job store) store, finished⟩ := by
    induction jobs generalizing store with
    | nil => exact refl _
    | cons job jobs ih => exact trans _ _ _ (records store _ job) (ih _)
  exact trans _ _ _ (recorded finished store) (cascade_stages refl trans cancels records _ (x.startWalk finished store))

omit cancels records in
theorem counts_stages (counts : ∀ store due batch post, Yields (x.countBatch batch (countOf due batch) (failedOf due batch))
      store () post → relation ⟨store, due⟩ ⟨post, uncounted due batch⟩)
    {all due : List Finished} (distinct : batches.Nodup)
    (same : ∀ batch ∈ batches, countOf due batch = countOf all batch ∧ failedOf due batch = failedOf all batch)
    (counted : Yields (forM batches fun batch => x.countBatch batch (countOf all batch) (failedOf all batch)) pre ⟨⟩ post) :
    relation ⟨pre, due⟩ ⟨post, batches.foldl uncounted due⟩ := by
  induction batches generalizing pre due with
  | nil =>
    rw [yields_forM_nil.mp counted]
    exact refl _
  | cons batch batches ih =>
    rw [nodup_cons] at distinct
    obtain ⟨middle, first, others⟩ := yields_forM_cons.mp counted
    obtain ⟨sameCount, sameFailed⟩ := same batch mem_cons_self
    rw [← sameCount, ← sameFailed] at first
    refine trans _ _ _ (counts _ _ _ _ first) (ih distinct.2 (fun other mem => ?_) others)
    obtain ⟨left, right⟩ := counts_uncounted due fun equal : other = batch => distinct.1 (equal ▸ mem)
    obtain ⟨otherCount, otherFailed⟩ := same other (mem_cons_of_mem _ mem)
    exact ⟨left.trans otherCount, right.trans otherFailed⟩

omit refl trans cancels records in
theorem mem_foldl_uncounted {due : List Finished} {job : Finished}
    (left : job ∈ batches.foldl uncounted due) :
    job ∈ due ∧ ∀ batch ∈ batches, job.row.batchID ≠ some batch := by
  induction batches generalizing due with
  | nil => exact ⟨left, forall_mem_nil _⟩
  | cons batch batches ih =>
    obtain ⟨mem, others⟩ := ih left
    obtain ⟨among, different⟩ := mem_filter.mp mem
    refine ⟨among, fun other otherMem => ?_⟩
    rcases mem_cons.mp otherMem with rfl | later
    · exact of_decide_eq_true different
    · exact others other later

theorem tail_stages (counts : ∀ store due batch post, Yields (x.countBatch batch (countOf due batch) (failedOf due batch))
      store () post → relation ⟨store, due⟩ ⟨post, uncounted due batch⟩)
    (leaves : ∀ store due, (∀ job ∈ due, job.row.batchID = none) → relation ⟨store, due⟩ ⟨store, []⟩)
    (promotes : ∀ store id, relation ⟨store, []⟩ ⟨x.promoteIfReady store id, []⟩)
    (drops : ∀ store finished, relation ⟨store, []⟩ ⟨dropEdges finished store, []⟩)
    {finished all : List Finished} (drawn : Yields (x.tail finished) pre all post) :
    relation ⟨pre, finished⟩ ⟨post, []⟩ := by
  have promoted (ids : List JobID) (store : Store) : relation ⟨store, []⟩ ⟨ids.foldl x.promoteIfReady store, []⟩ := by
    induction ids generalizing store with
    | nil => exact refl _
    | cons id ids ih => exact trans _ _ _ (promotes store id) (ih _)
  rcases yields_tail drawn with ⟨rfl, -, rfl⟩ | ⟨-, rfl, counted, forCounted, rfl⟩
  · exact refl _
  · refine trans _ _ _ (cascadeFrom_stages refl trans cancels records finished pre) ?_
    refine trans _ _ _ (counts_stages refl trans counts (nodup_batchesOf _) (fun _ _ => ⟨rfl, rfl⟩) forCounted) ?_
    refine trans _ _ _ (leaves counted _ fun job left => ?_) ?_
    · obtain ⟨mem, others⟩ := mem_foldl_uncounted left
      cases batched : job.row.batchID with
      | none => rfl
      | some batch => exact absurd batched (others batch (mem_batchesOf.mpr ⟨job, mem, batched⟩))
    · exact trans _ _ _ (promoted _ counted) (drops _ _)

end

theorem tail_within {relation : Store → Store → Prop} (refl : ∀ store, relation store store)
    (trans : ∀ first second third, relation first second → relation second third → relation first third)
    {x : W}
    (cancels : ∀ store, ∀ row ∈ store.jobs, row.state = .pending → relation store (x.cancelDependent row store))
    (records : ∀ store finished, relation store (x.recordResult finished store))
    (counts : ∀ store batch count failed, Within relation (x.countBatch batch count failed) store)
    (promotes : ∀ store id, relation store (x.promoteIfReady store id))
    (drops : ∀ store finished, relation store (dropEdges finished store))
    (finished : List Finished) (pre : Store) : Within relation (x.tail finished) pre := by
  let onStores : Stage → Stage → Prop := fun first second => relation first.store second.store
  intro all post drawn
  have staged : onStores ⟨pre, finished⟩ ⟨post, []⟩ :=
    tail_stages (fun stage => refl stage.store) (fun first second third => trans first.store second.store third.store)
      (fun store _ row => cancels store row) (fun store _ finished => records store finished)
      (fun store _ batch post counted => counts store batch _ _ () post counted) (fun store _ _ => refl store)
      promotes drops drawn
  exact staged

end W

/-- Results being applied: what finished, and what is reported. -/
structure Applying where
  store : Store
  finished : List Finished := []
  applied : List JobFinalized := []

namespace W

/-- Whether a wake of the job's ordering key took effect since its attempt
began. -/
def woken (row : LiveJob) : Bool :=
  match row.wakeRequestedAt, row.attemptedAt with
  | some wake, some attempted => decide (attempted ≤ wake)
  | _, _ => false

/-- A running job as the result of its attempt leaves it waiting. -/
def resumed (x : W) (result : Result) (keep : Nat) (row : LiveJob) : LiveJob :=
  { row with
    state := result.state
    scheduledAt := if woken row then x.now else x.after (max result.delay 0)
    attempt := if result.snooze || result.giveBack then row.attempt - 1 else row.attempt
    errors := (result.err.map fun error => withErrorAt row.errors error x.now).getD row.errors
    logs := appendLog row.logs row.attempt result.snooze result.entry keep
    attemptedBy := none
    snoozeReason := if result.snooze && !woken row then result.reason else none
    wakeRequestedAt := none }

/-- A running job as the result of its attempt finishes it. -/
def resultFinished (x : W) (result : Result) (keep : Nat) (row : LiveJob) : Finished :=
  { row := row
    state := result.state
    errors := (result.err.map fun error => withErrorAt row.errors error x.now).getD row.errors
    logs := appendLog row.logs row.attempt result.snooze result.entry keep
    output := result.out
    archive := result.archived }

/-- The store once the claim of a running job has ended: its lease, if it has
one, is released. -/
def endClaim (row : LiveJob) (leased : Bool) (store : Store) : Store :=
  { store with
    leases := if leased then (store.releaseLease row.id).leases else store.leases
    journal := .ended row.id row.fence :: store.journal }

/-- One result, applied only to a job that runs in the claim it comes from. -/
def applyResult (x : W) (keep : Nat) (applying : Applying) (result : Result) : Applying :=
  match applying.store.jobs.find? result.id with
  | none => applying
  | some row =>
    if applying.store.owns row result.toJobFinalize then
      let ended := endClaim row result.lease.isSome applying.store
      let reported := applying.applied ++ [{ id := result.id, fence := result.fence }]
      if result.state.terminal then
        let finished := x.resultFinished result keep row
        { store := x.finish finished ended
          finished := applying.finished ++ [finished]
          applied := reported }
      else
        { applying with
          store := updateJob result.id (x.resumed result keep) (fun _ => rfl) ended
          applied := reported }
    else
      applying

/-- The checks of a list of results: each by itself, and leased or not all
alike. -/
def checkResults (params : JobFinalizeParams) : Except Failure (List Result) := do
  params.jobs.forM checkFinalize
  let leased := params.jobs.head?.any fun result => result.lease.isSome
  if leased && params.skipLocked then
    throw (.refused "hopper: finalize jobs: SkipLocked with results of leased jobs")
  else if params.jobs.any fun result => result.lease.isSome != leased then
    throw (.refused "hopper: finalize jobs: results of leased jobs and of others in one call")
  else
    pure (params.jobs.map encodeResult)

def applyResults (x : W) (keep : Int) (results : List Result) (store : Store) : Applying :=
  results.foldl (x.applyResult (keepLogs keep)) { store := store }

/-- The rest of a finalize: the consequences of the jobs that finished, unless
it is told to leave them, and its reply. -/
def reportResults (x : W) (noBatches : Bool) (applying : Applying) : Tx (List JobFinalized) := do
  set applying.store
  if noBatches then
    pure applying.applied
  else do
    let cascaded ← describing (.inOperation "hopper: finalize jobs: ") (x.tailCascaded applying.finished)
    pure (applying.applied ++ cascaded.map fun id => { id := id, cascaded := true })

def jobFinalizeMany (x : W) (params : JobFinalizeParams) : Tx (List JobFinalized) := do
  if params.jobs = [] then
    pure []
  else do
    let results ← ensure (checkResults params)
    let store ← get
    x.reportResults params.noBatches (x.applyResults params.keepLogs results store)

variable {pre post : Store} {x : W} {reply : List JobFinalized}

theorem yields_tailCascaded {finished : List Finished} {cascaded : List JobID} :
    Yields (x.tailCascaded finished) pre cascaded post ↔ ∃ all, Yields (x.tail finished) pre all post ∧
        cascaded = (all.drop finished.length).map fun job => job.row.id := by
  simp only [tailCascaded, yields_bind, yields_pure]
  constructor
  · rintro ⟨all, _, drawn, rfl, rfl⟩
    exact ⟨all, drawn, rfl⟩
  · rintro ⟨all, drawn, rfl⟩
    exact ⟨all, post, drawn, rfl, rfl⟩

theorem yields_reportResults {noBatches : Bool} {applying : Applying} :
    Yields (x.reportResults noBatches applying) pre reply post ↔
      (noBatches = true ∧ reply = applying.applied ∧ post = applying.store) ∨
        (noBatches = false ∧ ∃ all, Yields (x.tail applying.finished) applying.store all post ∧
          reply = applying.applied ++ ((all.drop applying.finished.length).map
            fun job => job.row.id).map fun id => { id := id, cascaded := true }) := by
  cases noBatches with
  | true => simp [reportResults, and_comm]
  | false =>
    simp only [reportResults, Bool.false_eq_true, if_false, yields_bind, yields_set, yields_describing,
      yields_tailCascaded, yields_pure, false_and, false_or, true_and]
    constructor
    · rintro ⟨_, _, rfl, _, _, ⟨all, drawn, rfl⟩, rfl, rfl⟩
      exact ⟨all, drawn, rfl⟩
    · rintro ⟨all, drawn, rfl⟩
      exact ⟨⟨⟩, _, rfl, _, post, ⟨all, drawn, rfl⟩, rfl, rfl⟩

theorem yields_jobFinalizeMany {params : JobFinalizeParams} :
    Yields (x.jobFinalizeMany params) pre reply post ↔ (params.jobs = [] ∧ reply = [] ∧ post = pre) ∨
        (params.jobs ≠ [] ∧ ∃ results, checkResults params = .ok results ∧
          Yields (x.reportResults params.noBatches (x.applyResults params.keepLogs results pre)) pre reply post) := by
  unfold jobFinalizeMany
  by_cases empty : params.jobs = []
  · simp [empty]
  · simp only [empty, if_false, yields_bind, yields_ensure, yields_get, false_and, false_or, ne_eq, not_false_eq_true, true_and]
    constructor
    · rintro ⟨results, _, ⟨accepted, rfl⟩, _, _, ⟨rfl, rfl⟩, reported⟩
      exact ⟨results, accepted, reported⟩
    · rintro ⟨results, accepted, reported⟩
      exact ⟨results, pre, ⟨accepted, rfl⟩, pre, pre, ⟨rfl, rfl⟩, reported⟩

end W

end Hopper.Sqlite
