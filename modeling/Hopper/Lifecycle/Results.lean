import Hopper.Lifecycle.Wiring

/-! What is recorded of finished dependencies. As long as its batch is open, an
edge that asks for the result of a job has it once the job has finished. -/

namespace Hopper.Lifecycle

open List Option Kernel Driver Sqlite

/-- The edge is one of jobs of the batch, and if it asks for the result of a
job that has finished, with no consequences due, the result is there. -/
structure Held (store : Store) (due : List Finished) (edge : DepRow) (batch : JobID) : Prop where
  dependent : edge.jobID ∈ joined store.journal batch
  dependency : edge.dependsOn ∈ joined store.journal batch
  has : store.batches.has batch = true
  result : (edge.reads = true ∨ edge.anyOf.isSome = true) → Open store batch → store.live edge.dependsOn = false →
    (∀ job ∈ due, job.row.id ≠ edge.dependsOn) →
    ∃ result ∈ store.results, result.batchID = batch ∧ result.jobID = edge.dependsOn ∧
      (edge.reads = true → lastOutcome? store.journal edge.dependsOn = some (result.state, result.output))

/-- A result is of a job that is not live, as it ended last. -/
structure Matches (store : Store) (result : ResultRow) : Prop where
  joined : result.jobID ∈ joined store.journal result.batchID
  live : store.live result.jobID = false
  ending : lastEnding? store.journal result.jobID = some result.state

structure Due (store : Store) (job : Finished) : Prop where
  live : store.live job.row.id = false
  outcome : lastOutcome? store.journal job.row.id = some (job.state, job.output)
  born : ∃ born ∈ births store.journal, born.id = job.row.id ∧ born.batchID = job.row.batchID

structure Recorded (store : Store) (due : List Finished) : Prop where
  edges : ∀ edge ∈ store.deps, ∃ batch, Held store due edge batch
  results : ∀ result ∈ store.results, Matches store result
  due : ∀ job ∈ due, Due store job

section
variable {rules : Rules} {engine : Engine} {pre post : Store} {due : List Finished} {finished : Finished}
variable {store : Store}

namespace Rests

variable (rests : Rests pre post)
include rests

theorem held {edge : DepRow} {batch : JobID} (held : Held pre due edge batch) :
    Held post due edge batch where
  dependent := rests.joined held.dependent
  dependency := rests.joined held.dependency
  has := rests.has batch held.has
  result := by
    intro asks opened gone others
    rw [rests.live _ (known_of_joined held.dependency)] at gone
    obtain ⟨result, mem, rfl, id, outcome⟩ := held.result asks (rests.opens batch held.has opened) gone others
    refine ⟨result, rests.kept result mem held.has opened, rfl, id, fun reads => ?_⟩
    rw [rests.outcomes]
    exact outcome reads

theorem matched {result : ResultRow} (matched : Matches pre result) : Matches post result where
  joined := rests.joined matched.joined
  live := by rw [rests.live _ (known_of_joined matched.joined), matched.live]
  ending := by rw [rests.endings, matched.ending]

theorem still_due {job : Finished} (due : Due pre job) : Due post job := by
  obtain ⟨born, among, id, batch⟩ := due.born
  obtain ⟨event, mem, birth⟩ := mem_filterMap.mp among
  refine ⟨?_, ?_, born, rests.births among, id, batch⟩
  · rw [rests.live _ ⟨event, mem, born, birth, id⟩, due.live]
  · rw [rests.outcomes, due.outcome]

theorem recorded (recorded : Recorded pre due) : Recorded post due where
  edges := by
    intro edge mem
    obtain ⟨batch, held⟩ := recorded.edges edge (rests.deps edge mem)
    exact ⟨batch, rests.held held⟩
  results := fun result mem => rests.matched (recorded.results result (rests.results result mem))
  due := fun job mem => rests.still_due (recorded.due job mem)

end Rests

/-! A job ends. -/

theorem Gone.lastOutcome (gone : Gone finished pre post) (id : JobID) : lastOutcome? post.journal id =
      if finished.row.id = id then some (finished.state, finished.output) else lastOutcome? pre.journal id := by
  obtain ⟨events, journal, silent⟩ := gone.journal
  rw [journal, lastOutcome_finished, lastOutcome_append fun event mem => outcome_of_silent (silent event mem) id]

theorem Gone.births (gone : Gone finished pre post) : births post.journal = births pre.journal := by
  obtain ⟨events, journal, silent⟩ := gone.journal
  rw [journal]
  change Lifecycle.births (events ++ pre.journal) = _
  exact filterMap_blind fun event mem => birth_of_silent (silent event mem)

namespace Recorded

theorem gone {finished : Finished} (recorded : Recorded pre due) (gone : Gone finished pre post)
    (descent : Descent (roster pre)) (deps : post.deps = pre.deps) (results : post.results = pre.results) :
    Recorded post (due ++ [finished]) where
  edges := by
    intro edge mem
    rw [deps] at mem
    obtain ⟨batch, held⟩ := recorded.edges edge mem
    refine ⟨batch, ?_, ?_, ?_, ?_⟩
    · rw [(gone.journal_eq batch).1]
      exact held.dependent
    · rw [(gone.journal_eq batch).1]
      exact held.dependency
    · rw [gone.batches]
      exact held.has
    · rintro asks ⟨row, found, opened⟩ absent others
      have different : edge.dependsOn ≠ finished.row.id := fun same =>
        others finished (mem_append_right _ mem_cons_self) same.symm
      rw [live_delete gone.jobs, decide_eq_true different, Bool.and_true] at absent
      rw [gone.batches] at found
      rw [results, gone.lastOutcome, if_neg different.symm]
      exact held.result asks ⟨row, found, opened⟩ absent fun job among =>
        others job (mem_append_left _ among)
  results := by
    intro result mem
    rw [results] at mem
    have matched := recorded.results result mem
    have different : finished.row.id ≠ result.jobID := by
      intro same
      have absent := matched.live
      rw [← same, gone.live_self] at absent
      cases absent
    refine ⟨?_, ?_, ?_⟩
    · rw [(gone.journal_eq _).1]
      exact matched.joined
    · rw [live_delete gone.jobs, matched.live, Bool.false_and]
    · rw [gone.lastEnding, if_neg different, matched.ending]
  due := by
    intro job mem
    rcases List.mem_append.mp mem with old | new
    · have was := recorded.due job old
      have different : finished.row.id ≠ job.row.id := by
        intro same
        have absent := was.live
        rw [← same, gone.live_self] at absent
        cases absent
      refine ⟨?_, ?_, ?_⟩
      · rw [live_delete gone.jobs, was.live, Bool.false_and]
      · rw [gone.lastOutcome, if_neg different, was.outcome]
      · rw [gone.births]
        exact was.born
    · rw [mem_singleton.mp new]
      refine ⟨?_, ?_, ?_⟩
      · rw [live_delete gone.jobs]
        simp
      · rw [gone.lastOutcome, if_pos rfl]
      · rw [gone.births]
        exact descent.jobs finished.row gone.member

end Recorded

/-! A result is recorded. -/

theorem mem_dependentsOf {id : JobID} {edge : DepRow} :
    edge ∈ store.dependentsOf id ↔ edge ∈ store.deps ∧ edge.dependsOn = id := by
  rw [Store.dependentsOf, mem_insertionSort, mem_filter, decide_eq_true_eq]
  rfl

/-- The row recorded of a job in place of any other of it. -/
structure Records (finished : Finished) (result : ResultRow) (before after : Store) : Prop where
  batch : finished.row.batchID = some result.batchID
  job : result.jobID = finished.row.id
  state : result.state = finished.state
  output : ∀ edge ∈ before.deps, edge.dependsOn = finished.row.id → edge.reads = true → result.output = finished.output
  roster : roster after = roster before
  deps : after.deps = before.deps
  batches : after.batches = before.batches
  results : ∀ other, other ∈ after.results ↔
    (other ∈ before.results ∧ Keyed.key other ≠ Keyed.key result) ∨ other = result

theorem recordResult_cases (x : W) (finished : Finished) (store : Store) :
    (x.recordResult finished store = store ∧ (finished.row.batchID = none ∨
      ∀ edge ∈ store.deps, edge.dependsOn = finished.row.id → edge.reads = false ∧ edge.anyOf.isSome = false)) ∨
      ∃ result, Records finished result store (x.recordResult finished store) := by
  unfold W.recordResult
  dsimp only
  split
  · next unbatched => exact .inl ⟨rfl, .inl unbatched⟩
  · next batch inBatch =>
    split
    · let result : ResultRow :=
        { batchID := batch, jobID := finished.row.id, state := finished.state,
          output := if (store.dependentsOf finished.row.id).any fun edge => edge.reads then finished.output else none,
          finalizedAt := x.now }
      refine .inr ⟨result, inBatch, rfl, rfl, ?_, rfl, rfl, rfl, fun other => ?_⟩
      · intro edge mem depends reads
        exact if_pos (any_eq_true.mpr ⟨edge, mem_dependentsOf.mpr ⟨mem, depends⟩, reads⟩)
      · have renewed {old : ResultRow} (keyed : Keyed.key old = Keyed.key result) :
            { old with state := result.state, output := result.output, finalizedAt := result.finalizedAt } = result := by
          rw [key_resultRow, key_resultRow, Prod.mk.injEq] at keyed
          rw [keyed.1, keyed.2]
        rw [Table.mem_upsert]
        constructor
        · rintro (kept | ⟨old, _, keyed, same⟩ | ⟨_, same⟩)
          · exact .inl kept
          · exact .inr (same.trans (renewed keyed))
          · exact .inr same
        · rintro (kept | same)
          · exact .inl kept
          · by_cases held : ∃ old ∈ store.results, Keyed.key old = Keyed.key result
            · obtain ⟨old, mem, keyed⟩ := held
              exact .inr (.inl ⟨old, mem, keyed, same.trans (renewed keyed).symm⟩)
            · exact .inr (.inr ⟨fun old mem keyed => held ⟨old, mem, keyed⟩, same⟩)
    · next unasked =>
      refine .inl ⟨rfl, .inr fun edge mem depends => ?_⟩
      have silent := any_eq_false.mp (Bool.not_eq_true _ ▸ unasked) edge (mem_dependentsOf.mpr ⟨mem, depends⟩)
      simpa only [Bool.not_eq_true, Bool.or_eq_false_iff] using silent

theorem Due.batch {job : Finished} {batch : JobID} (due : Due store job)
    (descent : Descent (roster store)) (mem : job.row.id ∈ joined store.journal batch) :
    job.row.batchID = some batch := by
  obtain ⟨born, among, id, inBatch⟩ := due.born
  obtain ⟨other, otherAmong, otherBatch, otherID⟩ := mem_joined.mp mem
  rw [← inBatch, ← descent.born_unique otherAmong among (otherID.trans id.symm), otherBatch]

namespace Recorded

variable {finished : Finished}

variable (recorded : Recorded pre (finished :: due))
include recorded

theorem unasked (descent : Descent (roster pre))
    (unasked : finished.row.batchID = none ∨
      ∀ edge ∈ pre.deps, edge.dependsOn = finished.row.id → edge.reads = false ∧ edge.anyOf.isSome = false) :
    Recorded pre due where
  edges := by
    intro edge mem
    obtain ⟨batch, held⟩ := recorded.edges edge mem
    refine ⟨batch, held.dependent, held.dependency, held.has, fun asks opened gone others => ?_⟩
    refine held.result asks opened gone fun job among => ?_
    rcases mem_cons.mp among with rfl | later
    · rintro same
      rcases unasked with unbatched | silent
      · have inBatch := (recorded.due job mem_cons_self).batch descent (same ▸ held.dependency)
        rw [unbatched] at inBatch
        cases inBatch
      · obtain ⟨unread, lone⟩ := silent edge mem same.symm
        rw [unread, lone] at asks
        rcases asks with reads | grouped
        · cases reads
        · cases grouped
    · exact others job later
  results := recorded.results
  due := fun job mem => recorded.due job (mem_cons_of_mem _ mem)

theorem records {result : ResultRow}
    (descent : Descent (roster pre)) (records : Records finished result pre post) : Recorded post due := by
  have journal : post.journal = pre.journal := congrArg Roster.journal records.roster
  have jobs : post.jobs = pre.jobs := congrArg Roster.jobs records.roster
  have live (id : JobID) : post.live id = pre.live id := congrArg (fun jobs : Table LiveJob => jobs.has id) jobs
  have ended := recorded.due finished mem_cons_self
  refine ⟨fun edge mem => ?_, fun other mem => ?_, fun job mem => ?_⟩
  · rw [records.deps] at mem
    obtain ⟨batch, held⟩ := recorded.edges edge mem
    refine ⟨batch, journal ▸ held.dependent, journal ▸ held.dependency, ?_, ?_⟩
    · rw [records.batches]
      exact held.has
    · rintro asks ⟨row, found, opened⟩ gone others
      rw [records.batches] at found
      rw [live] at gone
      rw [journal]
      by_cases same : edge.dependsOn = finished.row.id
      · have inBatch := ended.batch descent (same ▸ held.dependency)
        rw [records.batch, some.injEq] at inBatch
        refine ⟨result, (records.results result).mpr (.inr rfl), inBatch, records.job.trans same.symm, fun reads => ?_⟩
        rw [same, ended.outcome, records.state, records.output edge mem same reads]
      · obtain ⟨other, otherMem, inBatch, id, outcome⟩ := held.result asks ⟨row, found, opened⟩ gone fun job among => by
          rcases mem_cons.mp among with rfl | later
          · exact fun equal => same equal.symm
          · exact others job later
        refine ⟨other, (records.results other).mpr (.inl ⟨otherMem, fun keyed => same ?_⟩), inBatch, id, outcome⟩
        rw [← id, ← records.job]
        exact (Prod.mk.injEq _ _ _ _ ▸ keyed).2
  · rcases (records.results other).mp mem with ⟨old, _⟩ | rfl
    · have matched := recorded.results other old
      exact ⟨journal ▸ matched.joined, (live _).trans matched.live, journal ▸ matched.ending⟩
    · obtain ⟨born, among, id, inBatch⟩ := ended.born
      refine ⟨?_, ?_, ?_⟩
      · rw [journal, records.job]
        exact mem_joined.mpr ⟨born, among, inBatch.trans records.batch, id⟩
      · rw [live, records.job, ended.live]
      · rw [journal, records.job, lastEnding_eq_outcome, ended.outcome, records.state]
        rfl
  · have was := recorded.due job (mem_cons_of_mem _ mem)
    exact ⟨(live _).trans was.live, journal ▸ was.outcome, journal ▸ was.born⟩

theorem recordResult {x : W} (descent : Descent (roster pre)) :
    Recorded (x.recordResult finished pre) due := by
  rcases recordResult_cases x finished pre with ⟨same, unasked⟩ | ⟨result, records⟩
  · rw [same]
    exact recorded.unasked descent unasked
  · exact recorded.records descent records

end Recorded

namespace Recorded

theorem wired {x : W} {params : WorkflowInsertParams} {rows : Store} {ids : List JobID} {batch : JobID}
    (recorded : Recorded pre []) (wired : Wired x params pre rows post ids batch) : Recorded post [] := by
  have middle := wired.rests.recorded recorded
  obtain ⟨notes, rfl⟩ := wired.written
  refine ⟨fun edge mem => ?_, fun result mem => ?_, forall_mem_nil _⟩
  swap
  · have matched := middle.results result mem
    exact ⟨matched.joined, matched.live, matched.ending⟩
  rcases insertDeps_source mem with old | ⟨dep, among, rfl⟩
  · obtain ⟨owner, held⟩ := middle.edges edge old
    exact ⟨owner, held.dependent, held.dependency, held.has, held.result⟩
  · obtain ⟨job, dependsOn⟩ := checkRange_ok (wired.ranged dep among)
    rw [← wired.length] at job dependsOn
    refine ⟨batch, wired.joined _ (getD_mem job), wired.joined _ (getD_mem dependsOn), wired.has, fun _ _ gone => ?_⟩
    have live : rows.live (ids.getD dep.dependsOn.toNat 0) = true := wired.live _ (getD_mem dependsOn)
    cases live.symm.trans gone

end Recorded

/-! A job is brought back. -/

/-- What a retry from history leaves of edges and results. -/
structure Redriven (past : HistoryJob) (before after : Store) : Prop extends Back past before after where
  deps : after.deps = before.deps
  results : ∀ result, result ∈ after.results ↔
    result ∈ before.results ∧ ¬(past.batchID = some result.batchID ∧ result.jobID = past.id)

theorem retryHistory_redriven {x : W} {params : JobRetryParams} {job : JobRow} (identity : Identity (roster pre))
    (retried : Yields (x.retryHistory params) pre job post) : ∃ past, Redriven past pre post := by
  obtain ⟨past, id, back⟩ := retryHistory_back retried
  obtain ⟨row, mem, rowID, _, free, same⟩ := W.yields_retryHistory retried
  have equal : row = past :=
    inj_on_of_nodup_map identity.history_distinct mem back.member (rowID.trans id.symm)
  subst equal
  refine ⟨row, back, ?_, fun result => ?_⟩
  · rw [same]
    split <;> rfl
  · rw [same]
    split
    · next unbatched => simp [W.revivedStore, unbatched]
    · next batch inBatch =>
      simp only [W.recountRetried, W.revivedStore, Table.mem_delete, inBatch, some.injEq, rowID,
        decide_eq_false_iff_not, eq_comm (a := batch)]

namespace Redriven

variable {past : HistoryJob} {batch : JobID}

variable (redriven : Redriven past pre post)
include redriven

theorem closed (batch : JobID) :
    (post.batches.find? batch).map (fun row => row.completedAt.isSome) =
      (pre.batches.find? batch).map fun row => row.completedAt.isSome := by
  have counter := congrArg (Option.map Counter.closed) (redriven.counter batch)
  have recounts (counter : Counter) : (counter.recount (failing past.state)).closed = counter.closed := by
    unfold Counter.recount
    split <;> simp_all
  split at counter
  · simpa [Function.comp_def, recounts, BatchRow.counter] using counter
  · simpa [Function.comp_def, BatchRow.counter] using counter

theorem opens (opened : Open post batch) : Open pre batch := by
  obtain ⟨row, found, unfinished⟩ := opened
  have closed := redriven.closed batch
  rw [found] at closed
  obtain ⟨old, there, same⟩ := map_eq_some_iff.mp closed.symm
  exact ⟨old, there, by simpa [unfinished] using same⟩

theorem has (held : pre.batches.has batch = true) :
    post.batches.has batch = true := by
  have closed := congrArg Option.isSome (redriven.closed batch)
  rw [isSome_map, isSome_map] at closed
  exact closed.trans held

end Redriven

theorem Recorded.redriven {past : HistoryJob} (recorded : Recorded pre []) (descent : Descent (roster pre))
    (redriven : Redriven past pre post) : Recorded post [] := by
  obtain ⟨row, journal⟩ := redriven.journal
  have same : post.journal = [.retried row] ++ pre.journal := journal
  have outcomes (id : JobID) : lastOutcome? post.journal id = lastOutcome? pre.journal id := by
    rw [journal]
    rfl
  have endings (id : JobID) : lastEnding? post.journal id = lastEnding? pre.journal id := by
    rw [lastEnding_eq_outcome, lastEnding_eq_outcome, outcomes]
  have joins {batch id : JobID} (mem : id ∈ joined pre.journal batch) : id ∈ joined post.journal batch := by
    rw [same]
    exact joined_append mem
  refine ⟨fun edge mem => ?_, fun result mem => ?_, forall_mem_nil _⟩
  · rw [redriven.deps] at mem
    obtain ⟨batch, held⟩ := recorded.edges edge mem
    refine ⟨batch, joins held.dependent, joins held.dependency, redriven.has held.has, fun asks opened gone others => ?_⟩
    rw [redriven.live, Bool.or_eq_false_iff, decide_eq_false_iff_not] at gone
    obtain ⟨result, among, inBatch, id, outcome⟩ := held.result asks (redriven.opens opened) gone.1 others
    refine ⟨result, (redriven.results result).mpr ⟨among, fun deleted => gone.2 (id.symm.trans deleted.2)⟩, inBatch, id, ?_⟩
    rw [outcomes]
    exact outcome
  · obtain ⟨old, stays⟩ := (redriven.results result).mp mem
    have matched := recorded.results result old
    have different : result.jobID ≠ past.id := by
      intro equal
      refine stays ⟨(descent.past_joined redriven.member).mp ?_, equal⟩
      rw [← equal]
      exact matched.joined
    refine ⟨joins matched.joined, ?_, ?_⟩
    · rw [redriven.live, matched.live, decide_eq_false different]
      rfl
    · rw [endings, matched.ending]

/-! The tail. -/

structure Settled (engine : Engine) (store : Store) : Prop where
  traced : Traced engine store
  recorded : Recorded store []

namespace Settled

variable {x : W} {due : List Finished}

theorem startWalk (traced : Traced engine pre) (recorded : Recorded pre due) :
    Settled engine (x.startWalk due pre).store := by
  change Settled engine (due.foldl (fun store job => x.recordResult job store) pre)
  induction due generalizing pre with
  | nil => exact ⟨traced, recorded⟩
  | cons job due ih =>
    have moved : Moves Rules.none engine pre (x.recordResult job pre) := recordResult_moves x job pre
    exact ih (moved.traced traced) (recorded.recordResult traced.descent)

theorem visit {walk : Walk} (settled : Settled x.engine walk.store) (dependent : JobID) :
    Settled x.engine (x.visit walk dependent).store := by
  unfold W.visit
  split
  · exact settled
  · split
    · next row found =>
      split
      · next pending =>
        have mem := Table.mem_of_find? found
        have canceled : Moves Rules.none x.engine walk.store (x.cancelDependent row walk.store) :=
          cancelDependent_moves mem pending
        have moved : Moves Rules.none x.engine (x.cancelDependent row walk.store)
            (x.recordResult (x.dependentFinished row) (x.cancelDependent row walk.store)) := recordResult_moves x _ _
        have traced := canceled.traced settled.traced
        have recorded : Recorded (x.cancelDependent row walk.store) [x.dependentFinished row] :=
          settled.recorded.gone (gone_cancelDependent mem) settled.traced.descent (deps_finish x _ _) (results_finish x _ _)
        exact ⟨moved.traced traced, recorded.recordResult traced.descent⟩
      · exact settled
    · exact settled

theorem cascadeFrom (traced : Traced x.engine pre) (recorded : Recorded pre due) :
    Settled x.engine (x.cascadeFrom due pre).store := by
  have visits (dependents : List JobID) {walk : Walk} (settled : Settled x.engine walk.store) :
      Settled x.engine (dependents.foldl x.visit walk).store := by
    induction dependents generalizing walk with
    | nil => exact settled
    | cons dependent dependents ih => exact ih (settled.visit dependent)
  have advances (walk : Walk) (settled : Settled x.engine walk.store) : Settled x.engine (x.advance walk).store := by
    unfold W.advance
    split
    · exact settled
    · next step rest _ =>
      have popped : Settled x.engine { walk with queue := rest }.store := settled
      exact visits _ popped
  exact W.cascade_invariant advances _ (startWalk traced recorded)

theorem rests {rules : Rules} (settled : Settled engine pre) (moves : Moves rules engine pre post)
    (rests : Descent (roster post) → Rests pre post) : Settled engine post := by
  have traced := moves.traced settled.traced
  exact ⟨traced, (rests traced.descent).recorded settled.recorded⟩

theorem dropEdges (settled : Settled engine pre) (finished : List Finished) : Settled engine (W.dropEdges finished pre) := by
  have dropped : Moves Rules.none engine pre (W.dropEdges finished pre) := .of_roster rfl le_rfl
  exact settled.rests dropped fun _ => .of_dropEdges finished pre

theorem tail {due all : List Finished} (traced : Traced x.engine pre) (recorded : Recorded pre due)
    (drawn : Yields (x.tail due) pre all post) : Settled x.engine post := by
  rcases W.yields_tail drawn with ⟨rfl, -, rfl⟩ | ⟨-, rfl, counted, forCounted, rfl⟩
  · exact ⟨traced, recorded⟩
  · have cascaded : Settled x.engine (x.cascadeFrom due pre).store := cascadeFrom traced recorded
    have counts (count failed : JobID → Int) (batches : List JobID) :
        Within (fun pre post => Settled x.engine pre → Settled x.engine post)
          (forM batches fun batch => x.countBatch batch (count batch) (failed batch))
          (x.cascadeFrom due pre).store := by
      refine within_forM (fun _ settled => settled) (fun _ _ _ first second settled => second (first settled)) ?_ _
      intro batch _ store _ post told settled
      have moved : Moves Rules.none x.engine store post := countBatch_moves _ _ told
      exact settled.rests moved fun descent => .of_countBatch descent told
    have promotes (ids : List JobID) {store : Store} (settled : Settled x.engine store) :
        Settled x.engine (ids.foldl x.promoteIfReady store) := by
      induction ids generalizing store with
      | nil => exact settled
      | cons id ids ih =>
        have moved : Moves Rules.none x.engine store (x.promoteIfReady store id) := promoteIfReady_moves
        exact ih (settled.rests moved fun _ => .of_promoteIfReady x store id)
    exact (promotes _ (counts _ _ _ _ _ forCounted cascaded)).dropEdges _

end Settled

/-! Acts. -/

theorem Act.recorded {pre post : Stage} (act : Act rules engine pre post)
    (drops : ∀ row, rules.drops row → row.batchID = none) (traced : Traced engine pre.store)
    (later : Traced engine post.store) (recorded : Recorded pre.store pre.due) :
    Recorded post.store post.due := by
  cases act with
  | quiet due steady => exact (Rests.of_steady steady).recorded recorded
  | sweep pre condition orphan => exact (Rests.of_sweep orphan).recorded recorded
  | insert x job id minted unknown joins attempts inserted =>
    exact (Rests.of_insertRow later.descent inserted).recorded recorded
  | @found x same batch failed pre post joins counted =>
    have noted : Rests pre { pre with journal := .found batch failed :: pre.journal } := by
      have journal : (.found batch failed :: pre.journal : List Event) = [.found batch failed] ++ pre.journal := rfl
      refine .aside journal (fun event mem id => ?_) (fun _ _ => rfl) rfl rfl rfl
      rw [mem_singleton.mp mem]
      rfl
    exact (noted.trans (.of_countBatch later.descent counted)).recorded recorded
  | finish x finished pre due mem idle terminal =>
    exact recorded.gone (gone_finish mem terminal) traced.descent (deps_finish x _ _) (results_finish x _ _)
  | conclude x finished leased pre due mem running terminal =>
    exact recorded.gone (gone_conclude mem terminal) traced.descent (deps_finish x _ _) (results_finish x _ _)
  | exhaust x row pre mem =>
    exact recorded.gone (gone_cancelDependent mem) traced.descent (deps_finish x _ _) (results_finish x _ _)
  | tail x same due drawn =>
    subst same
    exact (Settled.tail traced recorded drawn).recorded
  | promote x pre id => exact (Rests.of_promoteIfReady x pre id).recorded recorded
  | drop store due dropped =>
    refine ⟨fun edge mem => ?_, recorded.results, forall_mem_nil _⟩
    obtain ⟨batch, held⟩ := recorded.edges edge mem
    refine ⟨batch, held.dependent, held.dependency, held.has, fun asks opened gone _ => ?_⟩
    refine held.result asks opened gone fun job among same => ?_
    have inBatch := (recorded.due job among).batch traced.descent (same ▸ held.dependency)
    rw [drops job.row (dropped job among)] at inBatch
    cases inBatch
  | retry x params revives retried =>
    obtain ⟨past, redriven⟩ := retryHistory_redriven traced.sound.identity retried
    exact recorded.redriven traced.descent redriven
  | batch row pre free =>
    have opened : Rests pre { pre with batches := pre.batches.append row free } :=
      .of_opened free rfl rfl rfl rfl
    exact opened.recorded recorded
  | workflow x same params attempts inserted =>
    subst same
    obtain ⟨rows, ids, wired⟩ := workflow_wired later.descent inserted
    exact recorded.wired wired

theorem Recorded.empty : Recorded {} [] where
  edges := Table.forall_mem_empty
  results := Table.forall_mem_empty
  due := forall_mem_nil _

theorem Reached.settled (reached : Reached rules engine store)
    (drops : ∀ row, rules.drops row → row.batchID = none) : Settled engine store := by
  have both (stage : Stage) (acts : Acts rules engine ⟨{}, []⟩ stage) :
      Traced engine stage.store ∧ Recorded stage.store stage.due := by
    induction acts with
    | refl => exact ⟨.empty, .empty⟩
    | tail _ act ih =>
      have later := act.traced ih.1
      exact ⟨later, act.recorded drops ih.1 later ih.2⟩
  obtain ⟨traced, recorded⟩ := both ⟨store, []⟩ reached
  exact ⟨traced, recorded⟩

end

end Hopper.Lifecycle
