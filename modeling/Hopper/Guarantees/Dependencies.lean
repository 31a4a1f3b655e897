import Hopper.Lifecycle.Results

/-! What a job of a workflow is claimed with: the dependencies it reads that
have finished, each as it ended last. -/

namespace Hopper.Guarantees

open List Kernel Driver Sqlite Lifecycle

/-- What the callers of operations promise: clients have positive IDs, and a
finalize leaves the batches alone only if none of its jobs is in one. -/
def MindsDependents (store : Store) : Operation → Prop
  | .jobClaim params => 0 < params.clientID
  | .jobFinalizeMany params => params.noBatches = true → ∀ row ∈ store.jobs,
      (∃ result ∈ params.jobs, result.id = row.id) → row.batchID = none
  | _ => True

/-- A finished dependency as a claim reads it. A JSON null reads as no output. -/
def readDependency (edge : DepRow) (outcome : JobState × Option String) : Dependency :=
  { id := edge.dependsOn, step := edge.step, state := some outcome.1,
    output := outcome.2.filter fun output => output ≠ "null" }

/-- The dependencies a job reads that are not live, in the order of their IDs,
each with the state and the output it last ended with. -/
def finishedDependencies (store : Store) (id : JobID) : List Dependency :=
  ((store.deps.rows.filter fun edge => decide (edge.jobID = id) && edge.reads).insertionSort
    fun left right => left.dependsOn ≤ right.dependsOn).filterMap fun edge =>
      if store.live edge.dependsOn then none
      else (lastOutcome? store.journal edge.dependsOn).map (readDependency edge)

def InOpenBatch (store : Store) (job : JobRow) : Prop :=
  ∃ batch, job.batchID = some batch ∧ Open store batch

def dependentRules : Rules :=
  .limiting (fun _ => True) True fun row => row.batchID = none

section
variable {engine : Engine} {x : W} {store pre post : Store} {row : LiveJob} {job : JobRow}

theorem obeys_dependents {operation : Operation} (minds : MindsDependents store operation) :
    Obeys dependentRules x store operation := by
  refine obeys_limiting ?_ (fun _ => trivial) (fun _ => trivial) (by rintro params rfl; exact minds)
  cases operation <;> first | exact minds | trivial

theorem dependents_settled (reachable : Reachable engine MindsDependents store) : Settled engine store := by
  have reached := reachable_reached (fun _ _ _ _ minds => obeys_dependents minds) reachable
  exact reached.settled fun _ unbatched => unbatched

/-- A claimed job has the dependencies it reads that are not live, and each of
these has ended. -/
structure ReadsFinished (store : Store) (job : JobRow) : Prop where
  dependencies : job.dependencies = finishedDependencies store job.id
  ended : ∀ edge ∈ store.deps, edge.jobID = job.id → edge.reads = true → store.live edge.dependsOn = false →
    (lastOutcome? store.journal edge.dependsOn).isSome = true

section
variable {batch : JobID} (settled : Settled engine store) (mem : row ∈ store.jobs) (inBatch : row.batchID = some batch)
include settled mem inBatch

theorem edge_held {edge : DepRow} (among : edge ∈ store.deps) (job : edge.jobID = row.id) : Held store [] edge batch := by
  obtain ⟨owner, held⟩ := settled.recorded.edges edge among
  have joins := (settled.traced.descent.live_joined mem).mp (job ▸ held.dependent)
  rw [inBatch, Option.some.injEq] at joins
  exact joins ▸ held

theorem read_ended (opened : Open store batch) {edge : DepRow} (among : edge ∈ store.deps) (job : edge.jobID = row.id)
    (reads : edge.reads = true) (gone : store.live edge.dependsOn = false) : ∃ result ∈ store.results,
      result.batchID = batch ∧ result.jobID = edge.dependsOn ∧
        lastOutcome? store.journal edge.dependsOn = some (result.state, result.output) := by
  obtain ⟨result, member, same, id, outcome⟩ :=
    (edge_held settled mem inBatch among job).result (.inl reads) opened gone (forall_mem_nil _)
  exact ⟨result, member, same, id, outcome reads⟩

theorem dependenciesOf_eq (opened : Open store batch) : W.dependenciesOf store row = finishedDependencies store row.id := by
  unfold W.dependenciesOf finishedDependencies
  rw [inBatch]
  refine filterMap_congr fun edge among => ?_
  rw [mem_insertionSort, mem_filter, Bool.and_eq_true, decide_eq_true_eq] at among
  obtain ⟨edgeMem, job, reads⟩ := among
  cases live : store.live edge.dependsOn with
  | true =>
    have none : store.results.find? (batch, edge.dependsOn) = none := by
      refine Table.find?_eq_none.mpr fun result resultMem keyed => ?_
      have gone := (settled.recorded.results result resultMem).live
      rw [show result.jobID = edge.dependsOn from congrArg Prod.snd keyed, live] at gone
      cases gone
    rw [none]
    rfl
  | false =>
    obtain ⟨result, resultMem, resultBatch, resultJob, outcome⟩ := read_ended settled mem inBatch opened edgeMem job reads live
    have found := Table.find?_eq_some.mpr ⟨resultMem, by rw [key_resultRow, resultBatch, resultJob]⟩
    rw [found, outcome]
    rfl

end

theorem readClaimed_started {owner : Option Int} {condition : LiveJob → Bool} (row : LiveJob) :
    (W.readClaimed (x.startedStore owner condition pre) (x.started owner row)).dependencies = W.dependenciesOf pre row := by
  have live (id : JobID) : (x.startedStore owner condition pre).live id = pre.live id := by
    change (Table.has _ id) = pre.jobs.has id
    rw [Table.has, W.startedStore, Table.find?_update, Option.isSome_map]
    rfl
  unfold W.readClaimed W.dependenciesOf
  simp only [live]
  rfl

structure ClaimedFrom (store : Store) (job : JobRow) (row : LiveJob) : Prop where
  member : row ∈ store.jobs
  id : job.id = row.id
  batchID : job.batchID = row.batchID
  dependencies : job.dependencies = W.dependenciesOf store row

theorem jobClaim_from {params : JobClaimParams} {result : JobClaimResult}
    (claimed : Yields (x.jobClaim params) pre result post) (mem : job ∈ result.jobs) :
    ∃ row, ClaimedFrom pre job row := by
  rcases W.jobClaim_cases claimed with ⟨none, -⟩ | ⟨limit, partition, middle, queues, taken, -⟩
  · rw [none] at mem
    cases mem
  · unfold W.claim at taken
    dsimp only at taken
    split at taken
    · rw [(yields_pure.mp taken).1] at mem
      cases mem
    · simp only [yields_describing, yields_bind, yields_get, yields_pure] at taken
      obtain ⟨_, _, ⟨rfl, rfl⟩, _, _, started, _, _, ⟨rfl, rfl⟩, same, -⟩ := taken
      rw [same, W.yields_startRows started] at mem
      obtain ⟨row, among, rfl⟩ := mem_map.mp mem
      exact ⟨row, (mem_claimable among).1, rfl, rfl, readClaimed_started row⟩

theorem jobClaimByID_from {params : JobClaimByIDParams} {result : JobLeaseRow} (sound : Sound engine pre)
    (claimed : Yields (x.jobClaimByID params) pre result post) : ∃ row, ClaimedFrom pre result.job row := by
  obtain ⟨row, accepted, job, -⟩ := W.yields_jobClaimByID claimed
  rw [job]
  exact ⟨row, (claimableByID_ok sound accepted).1, rfl, rfl, readClaimed_started row⟩

theorem ClaimedFrom.reads (settled : Settled engine store) (origin : ClaimedFrom store job row) (opened : InOpenBatch store job) :
    ReadsFinished store job := by
  obtain ⟨batch, inBatch, unfinished⟩ := opened
  have inBatch := origin.batchID.symm.trans inBatch
  refine ⟨?_, fun edge among same reads gone => ?_⟩
  · rw [origin.dependencies, origin.id]
    exact dependenciesOf_eq settled origin.member inBatch unfinished
  · obtain ⟨_, _, _, _, outcome⟩ :=
      read_ended settled origin.member inBatch unfinished among (same.trans origin.id) reads gone
    rw [outcome, Option.isSome_some]

/-- Every claim of a job of a batch that has yet to complete returns with it the
dependencies it reads that are not live, each as it last ended. -/
theorem claimed_with_finished_dependencies {engine : Engine} {store : Store}
    (reachable : Reachable engine MindsDependents store) (now : Int) :
    (∀ params result after, Yields (W.jobClaim ⟨engine, now⟩ params) store result after →
      ∀ job ∈ result.jobs, InOpenBatch store job → ReadsFinished store job) ∧
    ∀ params result after, Yields (W.jobClaimByID ⟨engine, now⟩ params) store result after →
      InOpenBatch store result.job → ReadsFinished store result.job := by
  have settled := dependents_settled reachable
  constructor
  · intro params result after claimed job member opened
    obtain ⟨row, origin⟩ := jobClaim_from claimed member
    exact origin.reads settled opened
  · intro params result after claimed opened
    obtain ⟨row, origin⟩ := jobClaimByID_from settled.traced.sound claimed
    exact origin.reads settled opened

/-- A step that reads another, which completes, is retried from history and
completes again before the step is claimed. -/
def redrivenDependency : List (Int × Operation) :=
  [(60, .jobFinalizeMany { jobs := [{ id := 1, attemptedBy := 7, fence := 2, state := .completed, output := "2" }] }),
   (50, .jobClaim { queue := "fetch", clientID := 7, limit := 1 }),
   (40, .jobRetry { id := 1 }),
   (30, .jobFinalizeMany
     { jobs := [{ id := 1, attemptedBy := 7, fence := 1, state := .completed, output := "1", archive := true }] }),
   (20, .jobClaim { queue := "fetch", clientID := 7, limit := 1 }),
   (10, .workflowInsert
     { jobs := [{ kind := "fetch", queue := "fetch", priority := 1, maxAttempts := 3 },
         { kind := "parse", queue := "parse", priority := 1, maxAttempts := 3 }],
       steps := ["fetch", "parse"], deps := [{ job := 1, dependsOn := 0, reads := true }] })]

def claimOfParse : JobClaimParams :=
  { queue := "parse", clientID := 7, limit := 1 }

/-- What the step is claimed with: how its dependency ended the second time. -/
def parseDependencies : List Dependency :=
  [{ id := 1, step := some "fetch", state := some .completed, output := some "2" }]

theorem claimed_with_finished_dependencies_redriven :
    ∃ result after, Yields (W.jobClaim ⟨.counting, 70⟩ claimOfParse) (Operation.after .counting redrivenDependency) result after ∧
      ∃ job ∈ result.jobs, InOpenBatch (Operation.after .counting redrivenDependency) job ∧
        ReadsFinished (Operation.after .counting redrivenDependency) job ∧ job.dependencies = parseDependencies := by
  have reachable : Reachable .counting MindsDependents (Operation.after .counting redrivenDependency) :=
    Operation.AllAllowed.reachable ⟨nofun, (by decide : (0 : Int) < 7), trivial, nofun, (by decide : (0 : Int) < 7), trivial, trivial⟩
  have claims : ((W.jobClaim ⟨.counting, 70⟩ claimOfParse
      (Operation.after .counting redrivenDependency)).toOption.any fun reply => reply.1.jobs.any fun job =>
        decide (job.batchID = some 3 ∧ job.dependencies = parseDependencies)) = true := by
    decide +kernel
  have unfinished : ∃ row ∈ (Operation.after .counting redrivenDependency).batches.rows, row.id = 3 ∧ row.completedAt = none := by
    decide +kernel
  cases reply : W.jobClaim ⟨.counting, 70⟩ claimOfParse (Operation.after .counting redrivenDependency) with
  | error =>
    rw [reply] at claims
    cases claims
  | ok pair =>
    rw [reply] at claims
    obtain ⟨job, member, facts⟩ := any_eq_true.mp claims
    obtain ⟨inBatch, dependencies⟩ := of_decide_eq_true facts
    obtain ⟨row, rowMember, id, incomplete⟩ := unfinished
    have opened : InOpenBatch (Operation.after .counting redrivenDependency) job :=
      ⟨3, inBatch, row, Table.find?_eq_some.mpr ⟨rowMember, id⟩, incomplete⟩
    have listed := (claimed_with_finished_dependencies reachable 70).1 claimOfParse pair.1 pair.2 reply job member opened
    exact ⟨pair.1, pair.2, reply, job, member, opened, listed, dependencies⟩

end

end Hopper.Guarantees
