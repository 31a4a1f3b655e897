import Hopper.Lifecycle.Posting

/-! Whole runs of acts in the tallies of batches. -/

namespace Hopper.Lifecycle

open List Option Kernel Driver Sqlite

section
variable {rules : Rules} {engine : Engine} {batch : JobID} {again : Prop} {pre post : Store}

/-! A job brought back from history. -/

/-- A finished job is live again, and its batch has recounted it. -/
structure Back (past : HistoryJob) (before after : Store) : Prop where
  member : past ∈ before.history
  free : before.live past.id = false
  live : ∀ id, after.live id = (before.live id || decide (id = past.id))
  journal : ∃ row, after.journal = .retried row :: before.journal
  counter : ∀ batch, (after.batches.find? batch).map BatchRow.counter =
    if past.batchID = some batch then
      ((before.batches.find? batch).map BatchRow.counter).map fun counter => counter.recount (failing past.state)
    else (before.batches.find? batch).map BatchRow.counter

theorem recount_counter (row : BatchRow) (failed : Bool) : (if row.completedAt.isNone then
        { row with pending := row.pending + 1, failed := row.failed - if failed then 1 else 0 }
      else row).counter = row.counter.recount failed := by
  cases completed : row.completedAt <;> simp [BatchRow.counter, Counter.recount, completed]

theorem retryHistory_back {x : W} {params : JobRetryParams} {job : JobRow}
    (retried : Yields (x.retryHistory params) pre job post) :
    ∃ past, past.id = params.id ∧ Back past pre post := by
  obtain ⟨past, member, id, _, free, same⟩ := W.yields_retryHistory retried
  have live (id : JobID) : (x.revivedStore params past pre free).live id = (pre.live id || decide (id = past.id)) := by
    rw [Bool.eq_iff_iff, Bool.or_eq_true, live_iff, live_iff, decide_eq_true_eq]
    simp only [W.revivedStore, Table.mem_append]
    constructor
    · rintro ⟨row, old | rfl, same⟩
      · exact .inl ⟨row, old, same⟩
      · exact .inr same.symm
    · rintro (⟨row, old, same⟩ | same)
      · exact ⟨row, .inl old, same⟩
      · exact ⟨_, .inr rfl, same.symm⟩
  refine ⟨past, id, member, free, ?_, ?_, ?_⟩
  · intro other
    rw [same]
    split
    · exact live other
    · exact live other
  · rw [same]
    split
    · exact ⟨_, rfl⟩
    · exact ⟨_, rfl⟩
  · intro batch
    rw [same]
    cases named : past.batchID with
    | none => rfl
    | some owner =>
      simp only [W.recountRetried, Table.find?_modify, Option.some.injEq]
      by_cases equal : batch = owner
      · subst equal
        simp only [if_true, Option.map_map]
        refine congrFun (congrArg Option.map (funext fun row => ?_)) _
        exact recount_counter row (failing past.state)
      · rw [if_neg equal, if_neg fun same => equal same.symm]
        rfl

namespace Back

variable {past : HistoryJob}

theorem unmoved (back : Back past pre post) (descent : Descent (roster pre))
    (other : past.batchID ≠ some batch) : Unmoved batch pre post := by
  obtain ⟨row, journal⟩ := back.journal
  have events : post.journal = [.retried row] ++ pre.journal := journal
  refine .of_silent events (fun event mem => ?_) fun id mem => ?_
  · rw [mem_singleton.mp mem]
    rfl
  · have different : id ≠ past.id := by
      rintro rfl
      exact other ((descent.past_joined back.member).mp mem)
    rw [back.live, decide_eq_false different, Bool.or_false]

theorem returns (back : Back past pre post) (descent : Descent (roster pre)) (inBatch : past.batchID = some batch) :
    ∃ failures, (tally batch ⟨pre, []⟩).failures = failures + (failing past.state).toNat ∧
      (tally batch ⟨pre, []⟩).arrived ≠ 0 ∧
      tally batch ⟨post, []⟩ = { tally batch ⟨pre, []⟩ with
          present := (tally batch ⟨pre, []⟩).present + 1, failures := failures
          counter := (tally batch ⟨pre, []⟩).counter.map fun counter => counter.recount (failing past.state) } := by
  obtain ⟨row, journal⟩ := back.journal
  have joins : joined post.journal batch = joined pre.journal batch := by
    rw [journal]
    rfl
  have mem := (descent.past_joined back.member).mpr inBatch
  have distinct : (joined pre.journal batch).Nodup := descent.joined_nodup batch
  have ended : failedLast pre.journal past.id = failing past.state := by
    rw [failedLast, show lastEnding? pre.journal past.id = _ from descent.endings past back.member]
    rfl
  have last (id : JobID) : failedLast post.journal id = failedLast pre.journal id := by
    rw [journal]
    rfl
  have present := countP_flip pre.live post.live distinct mem fun id _ different => by
    rw [back.live, decide_eq_false different, Bool.or_false]
  have failures := countP_flip (fun id => !pre.live id && failedLast pre.journal id)
    (fun id => !post.live id && failedLast post.journal id) distinct mem fun id _ different => by
      rw [back.live, decide_eq_false different, Bool.or_false, last]
  have again : post.live past.id = true := by simp [back.live]
  simp only [back.free, again, ended, Bool.toNat_false, Bool.toNat_true, Nat.add_zero, Bool.not_false, Bool.true_and,
    Bool.not_true, Bool.false_and] at present failures
  refine ⟨(foundIn pre.journal batch).count true + (joined pre.journal batch).countP fun id =>
    !post.live id && failedLast post.journal id, ?_, ?_, ?_⟩
  · simp only [tally]
    omega
  · have some : 0 < (joined pre.journal batch).length := length_pos_of_mem mem
    simp only [tally]
    omega
  · have counter := back.counter batch
    rw [if_pos inBatch] at counter
    simp only [tally, counter, joins, present]
    rw [journal]
    rfl

theorem posts (back : Back past pre post) (descent : Descent (roster pre))
    (may : past.batchID = some batch → ∀ row, pre.batches.find? batch = some row → row.completedAt.isSome = true → again) :
    Relation.ReflTransGen (Tally.Posts again) (tally batch ⟨pre, []⟩) (tally batch ⟨post, []⟩) := by
  by_cases inBatch : past.batchID = some batch
  · obtain ⟨failures, was, came, same⟩ := back.returns descent inBatch
    rw [same]
    refine .single (.returns _ failures _ was came fun counter is closed => ?_)
    obtain ⟨row, found, rfl⟩ := map_eq_some_iff.mp is
    exact may inBatch row found closed
  · obtain ⟨row, journal⟩ := back.journal
    have counter := back.counter batch
    rw [if_neg inBatch] at counter
    have closings : completions post.journal batch = completions pre.journal batch := by
      rw [journal]
      rfl
    rw [(back.unmoved descent inBatch).tally_eq counter closings rfl rfl]

end Back

/-! Acts. -/

theorem opens_posts {row : BatchRow} (free : pre.batches.has row.id = false) (pending : row.pending = row.total)
    (failed : row.failed = 0) (unclosed : row.completedAt = none) (jobs : post.jobs = pre.jobs)
    (journal : post.journal = pre.journal) (batches : post.batches = pre.batches.append row free) :
    Relation.ReflTransGen (Tally.Posts again) (tally batch ⟨pre, []⟩) (tally batch ⟨post, []⟩) := by
  by_cases same : row.id = batch
  · have unopened : pre.batches.find? batch = none := by
      rw [← same]
      exact isNone_iff_eq_none.mp (isSome_eq_false_iff.mp free)
    have opens : tally batch ⟨post, []⟩ = { tally batch ⟨pre, []⟩ with counter := some (.opened row.total) } := by
      have counter : row.counter = .opened row.total := by
        simp [BatchRow.counter, Counter.opened, pending, failed, unclosed]
      have live : post.live = pre.live := by
        funext id
        rw [Store.live, Store.live, jobs]
      have found : post.batches.find? batch = some row := by
        rw [batches, Table.find?_append, key_batchRow, if_pos same]
      simp only [tally, journal, live, found, map_some, counter]
    rw [opens]
    refine .single (.opens _ row.total ?_)
    rw [tally, unopened]
    rfl
  · have unmoved : Unmoved batch pre post := by
      refine .of_silent (journal.trans (nil_append _).symm) (forall_mem_nil _) fun id _ => ?_
      rw [Store.live, Store.live, jobs]
    rw [unmoved.tally_eq ?_ (by rw [journal]) rfl rfl]
    rw [batches, Table.find?_append, key_batchRow, if_neg same]

/-- What the callers promise of a batch: jobs join it once it is there, and
none of its jobs finishes without a look at it. -/
structure Accounts (rules : Rules) (batch : JobID) (again : Prop) : Prop where
  joins : ∀ store, rules.joins store batch → store.batches.has batch = true
  drops : ∀ row, rules.drops row → row.batchID ≠ some batch
  revives : ∀ store past, rules.revives store past → past.batchID = some batch →
    ∀ row, store.batches.find? batch = some row → row.completedAt.isSome = true → again

/-- A store whose jobs are sound and traced to their births. -/
structure Traced (engine : Engine) (store : Store) : Prop where
  sound : Sound engine store
  descent : Descent (roster store)

theorem Moves.traced (moves : Moves rules engine pre post) (traced : Traced engine pre) : Traced engine post := by
  obtain ⟨changes, sound⟩ := moves traced.sound
  exact ⟨sound, changes.descent traced.sound.identity traced.descent⟩

def Booked (engine : Engine) (batch : JobID) (again : Prop) (before after : Stage) : Prop :=
  Traced engine before.store → Traced engine after.store ∧
    Relation.ReflTransGen (Tally.Posts again) (tally batch before) (tally batch after)

namespace Booked

theorem refl (stage : Stage) : Booked engine batch again stage stage :=
  fun traced => ⟨traced, .refl⟩

theorem trans (first second third : Stage) (firstBooked : Booked engine batch again first second)
    (secondBooked : Booked engine batch again second third) : Booked engine batch again first third := by
  intro traced
  obtain ⟨middle, firstPosts⟩ := firstBooked traced
  obtain ⟨last, secondPosts⟩ := secondBooked middle
  exact ⟨last, firstPosts.trans secondPosts⟩

variable {pre post : Stage}

theorem of_moves (moves : Moves Rules.none engine pre.store post.store)
    (posts : Traced engine pre.store → Traced engine post.store →
      Relation.ReflTransGen (Tally.Posts again) (tally batch pre) (tally batch post)) :
    Booked engine batch again pre post := by
  intro traced
  have later := moves.traced traced
  exact ⟨later, posts traced later⟩

theorem of_tally (moves : Moves Rules.none engine pre.store post.store)
    (same : tally batch post = tally batch pre) : Booked engine batch again pre post :=
  of_moves moves fun _ _ => by rw [same]

end Booked

variable {x : W} {params : WorkflowInsertParams}

theorem gone_finish {finished : Finished} (member : finished.row ∈ pre.jobs)
    (terminal : finished.state.terminal = true) : Gone finished pre (x.finish finished pre) where
  member := member
  terminal := terminal
  jobs := jobs_finish x finished pre
  batches := batches_finish x finished pre
  journal := ⟨[], journal_finish x finished pre, forall_mem_nil _⟩

theorem gone_conclude {finished : Finished} {leased : Bool} (member : finished.row ∈ pre.jobs)
    (terminal : finished.state.terminal = true) :
    Gone finished pre (x.finish finished (W.endClaim finished.row leased pre)) where
  member := member
  terminal := terminal
  jobs := jobs_finish x finished _
  batches := batches_finish x finished _
  journal := by
    refine ⟨[.ended finished.row.id finished.row.fence], journal_finish x finished _, fun event among => ?_⟩
    rw [mem_singleton.mp among]
    rfl

theorem gone_cancelDependent {row : LiveJob} (member : row ∈ pre.jobs) :
    Gone (x.dependentFinished row) pre (x.cancelDependent row pre) where
  member := member
  terminal := rfl
  jobs := jobs_finish x (x.dependentFinished row) _
  batches := batches_finish x (x.dependentFinished row) _
  journal := by
    refine ⟨[.cascaded row.id], journal_finish x (x.dependentFinished row) _, fun event among => ?_⟩
    rw [mem_singleton.mp among]
    rfl

theorem promoteIfReady_eq (x : W) (store : Store) (id : JobID) :
    ∃ jobs notes, x.promoteIfReady store id = { store with jobs := jobs, notifications := notes } ∧
      ∀ other, jobs.has other = store.jobs.has other := by
  unfold W.promoteIfReady
  split
  · exact ⟨store.jobs, store.notifications, rfl, fun _ => rfl⟩
  · split
    · next row _ _ =>
      obtain ⟨notes, written⟩ := W.notify_eq x channelInsert [row.queue] (W.updateJob id x.promoted (fun _ => rfl) store)
      exact ⟨_, notes, written, W.has_updateJob id x.promoted _ store⟩
    · exact ⟨store.jobs, store.notifications, rfl, fun _ => rfl⟩

theorem promoteIfReady_tally (x : W) (store : Store) (id : JobID) (due : List Finished) :
    tally batch ⟨x.promoteIfReady store id, due⟩ = tally batch ⟨store, due⟩ := by
  obtain ⟨jobs, notes, same, live⟩ := promoteIfReady_eq x store id
  have unmoved : Unmoved batch store { store with jobs := jobs, notifications := notes } :=
    .of_silent (nil_append _).symm (forall_mem_nil _) fun other _ => live other
  rw [same, unmoved.tally_eq rfl rfl rfl rfl]

theorem batches_recordResult (x : W) (finished : Finished) (store : Store) :
    (x.recordResult finished store).batches = store.batches := by
  obtain ⟨results, same⟩ := recordResult_eq x finished store
  rw [same]

theorem recordResult_tally (x : W) (finished : Finished) (store : Store) (due : List Finished) :
    tally batch ⟨x.recordResult finished store, due⟩ = tally batch ⟨store, due⟩ :=
  tally_of_roster (roster_recordResult x finished store) (batches_recordResult x finished store)

theorem tally_unbatched {store : Store} {due : List Finished} (others : ∀ job ∈ due, job.row.batchID ≠ some batch) :
    tally batch ⟨store, []⟩ = tally batch ⟨store, due⟩ := by
  have count : W.countOf due batch = 0 :=
    countP_eq_zero.mpr fun job mem => by simp [others job mem]
  have failed : W.failedOf due batch = 0 :=
    countP_eq_zero.mpr fun job mem => by simp [others job mem]
  simp only [tally, count, failed]
  rfl

theorem tail_booked {due all : List Finished} (drawn : Yields (x.tail due) pre all post) :
    Booked x.engine batch again ⟨pre, due⟩ ⟨post, []⟩ := by
  refine W.tail_stages Booked.refl Booked.trans ?_ ?_ ?_ ?_ ?_ ?_ drawn
  · intro store due row mem pending
    exact .of_moves (cancelDependent_moves mem pending) fun traced _ =>
      (gone_cancelDependent mem).posts traced.descent
  · intro store due finished
    exact .of_tally (recordResult_moves x finished store) (recordResult_tally x finished store due)
  · intro store due owner post counted
    exact .of_moves (countBatch_moves () post counted) fun _ later =>
      counts_posts later.descent counted
  · intro store due unbatched
    exact .of_tally (.refl store) (tally_unbatched fun job mem => by simp [unbatched job mem])
  · intro store id
    exact .of_tally promoteIfReady_moves (promoteIfReady_tally x store id [])
  · intro store finished
    exact .of_tally (.of_roster rfl le_rfl) (tally_of_roster rfl rfl)

theorem tally_found (store : Store) (failed : Bool) :
    tally batch ⟨{ store with journal := .found batch failed :: store.journal }, []⟩ = { tally batch ⟨store, []⟩ with
        arrived := (tally batch ⟨store, []⟩).arrived + 1
        failures := (tally batch ⟨store, []⟩).failures + failed.toNat } := by
  have found : foundIn (.found batch failed :: store.journal) batch = failed :: foundIn store.journal batch := by
    simp [foundIn, found?]
  have failures : (failed :: foundIn store.journal batch).count true = (foundIn store.journal batch).count true + failed.toNat := by
    cases failed <;> simp
  unfold tally
  dsimp only
  rw [found, failures, Nat.add_right_comm _ failed.toNat]
  rfl

theorem found_posts {owner : JobID} {failed : Bool} (opened : owner = batch → pre.batches.has batch = true)
    (descent : Descent (roster post)) (counted : Yields (x.countBatch owner 1 (if failed then 1 else 0))
      { pre with journal := .found owner failed :: pre.journal } () post) :
    Relation.ReflTransGen (Tally.Posts again) (tally batch ⟨pre, []⟩) (tally batch ⟨post, []⟩) := by
  by_cases same : owner = batch
  · subst same
    let passed : Tally := { tally owner ⟨pre, []⟩ with
      arrived := (tally owner ⟨pre, []⟩).arrived + 1
      failures := (tally owner ⟨pre, []⟩).failures + failed.toNat
      due := (tally owner ⟨pre, []⟩).due + 1
      dueFailures := (tally owner ⟨pre, []⟩).dueFailures + failed.toNat }
    have due : (passed.due : Int) = 1 := rfl
    have dueFailures : (passed.dueFailures : Int) = if failed then 1 else 0 := by
      cases failed <;> rfl
    rw [(countBatch_counted descent counted).tally_eq, tally_found, ← dueFailures, ← due]
    refine .tail (.single (.passes _ failed fun none => ?_)) (.counts passed)
    obtain ⟨row, held⟩ := isSome_iff_exists.mp (opened rfl)
    rw [tally, held] at none
    cases none
  · obtain ⟨row, closings⟩ := countBatch_other same counted
    have found : Unmoved batch pre { pre with journal := .found owner failed :: pre.journal } := by
      have journal : (.found owner failed :: pre.journal : List Event) = [.found owner failed] ++ pre.journal := rfl
      refine .of_events journal ?_ ?_ ?_ fun _ _ => rfl
      · intro event mem
        rw [mem_singleton.mp mem]
        rfl
      · intro event mem
        rw [mem_singleton.mp mem]
        exact if_neg same
      · intro id _ event mem
        rw [mem_singleton.mp mem]
        rfl
    rw [(found.trans (countBatch_unmoved descent counted)).tally_eq (by rw [row]) (closings.trans rfl) rfl rfl]

theorem insert_inserted {row : LiveJob} {result : JobRow} (inserted : Yields (W.insertRow row .inserted) pre result post) :
    Inserted [W.sequenced pre row] pre post := by
  obtain ⟨free, _, _, rfl⟩ := W.yields_insertRow inserted
  exact ⟨rfl, rfl, rfl⟩

theorem steps_named {jobs : List JobInsert} {count : Nat} : ∀ step ∈ jobs.zip (x.workflowIDs pre count), step.2 ≠ 0 := by
  intro step mem
  obtain ⟨draw, _, drawn⟩ := mem_map.mp (of_mem_zip mem).2
  rw [← drawn]
  exact x.engine.newID_ne_zero draw

theorem workflowRows_inserted {jobs : List JobInsert} {encoded : BatchEncoded} {names : List (JobID × String)}
    (written : x.WorkflowRows params jobs encoded names pre post) : ∃ free, Inserted
      (x.stepRows (x.workflowID pre jobs.length) (jobs.zip (x.workflowIDs pre jobs.length)) pre.seq)
      (W.openedStore (x.workflowRow params jobs.length encoded names pre) jobs.length pre free) post := by
  obtain ⟨free, results, steps⟩ := written
  obtain ⟨table, tableRows, rfl⟩ := W.yields_insertSteps steps_named steps
  exact ⟨free, tableRows, rfl, rfl⟩

theorem workflow_inserted {result : WorkflowInsertResult} (inserted : Yields (x.workflowInsert params) pre result post) :
    ∃ (jobs : List JobInsert) (encoded : BatchEncoded) (names : List (JobID × String)), ∃ free rows, Inserted
      (x.stepRows (x.workflowID pre jobs.length) (jobs.zip (x.workflowIDs pre jobs.length)) pre.seq)
      (W.openedStore (x.workflowRow params jobs.length encoded names pre) jobs.length pre free) rows ∧
      roster post = roster rows ∧ post.batches = rows.batches := by
  obtain ⟨pending, jobs, encoded, names, rows, _, _, written, _, same⟩ := W.yields_workflowInsert inserted
  obtain ⟨free, steps⟩ := workflowRows_inserted written
  refine ⟨jobs, encoded, names, free, rows, steps, ?_⟩
  obtain ⟨deps, wired⟩ := insertDeps_eq params (x.workflowIDs pre jobs.length) rows
  rw [same, wired]
  split
  · obtain ⟨notes, noted⟩ := W.notify_eq x channelInsert (W.startQueues jobs) { rows with deps := deps }
    rw [noted]
    exact ⟨rfl, rfl⟩
  · exact ⟨rfl, rfl⟩

theorem workflow_posts {result : WorkflowInsertResult} (descent : Descent (roster post))
    (inserted : Yields (x.workflowInsert params) pre result post) :
    Relation.ReflTransGen (Tally.Posts again) (tally batch ⟨pre, []⟩) (tally batch ⟨post, []⟩) := by
  obtain ⟨jobs, encoded, names, free, rows, steps, same, batches⟩ := workflow_inserted inserted
  rw [tally_of_roster same batches]
  have opens : Relation.ReflTransGen (Tally.Posts again) (tally batch ⟨pre, []⟩) (tally batch
      ⟨W.openedStore (x.workflowRow params jobs.length encoded names pre) jobs.length pre free, []⟩) :=
    opens_posts free rfl rfl rfl rfl rfl rfl
  refine opens.trans (steps.posts (same ▸ descent) fun row mem inBatch => ?_)
  obtain ⟨step, _, number, rfl⟩ := W.mem_stepRows mem
  have equal : x.workflowID pre jobs.length = batch := by
    have drawn := x.engine.newID_ne_zero (pre.drawn + jobs.length)
    simpa [W.stepRow, W.newRow, nullableID, W.workflowID, drawn] using inBatch
  refine Table.has_eq_true.mpr ⟨x.workflowRow params jobs.length encoded names pre, ?_, equal⟩
  exact (Table.mem_append free).mpr (.inr rfl)

theorem Act.posts {pre post : Stage} (act : Act rules engine pre post)
    (accounts : Accounts rules batch again) (traced : Traced engine pre.store)
    (later : Traced engine post.store) :
    Relation.ReflTransGen (Tally.Posts again) (tally batch pre) (tally batch post) := by
  cases act with
  | quiet due steady => rw [tally_of_steady steady]
  | sweep => exact .refl
  | insert x job id minted unknown joins attempts inserted =>
    refine (insert_inserted inserted).posts later.descent fun row mem inBatch => ?_
    rw [mem_singleton.mp mem] at inBatch
    have named : nullableID job.batchID = some batch := inBatch
    unfold nullableID at named
    split at named
    · cases named
    · next given =>
      cases named
      exact accounts.joins _ (joins given)
  | found x same owner failed joins counted =>
    refine found_posts (fun equal => ?_) later.descent counted
    subst equal
    exact accounts.joins _ joins
  | finish x finished pre due mem idle terminal => exact (gone_finish mem terminal).posts traced.descent
  | conclude x finished leased pre due mem running terminal =>
    exact (gone_conclude mem terminal).posts traced.descent
  | exhaust x row pre mem => exact (gone_cancelDependent mem).posts traced.descent
  | tail x same due drawn =>
    subst same
    exact (tail_booked drawn traced).2
  | promote => rw [promoteIfReady_tally]
  | drop store due drops =>
    rw [tally_unbatched fun job mem => accounts.drops job.row (drops job mem)]
  | retry x params revives retried =>
    obtain ⟨past, id, back⟩ := retryHistory_back retried
    exact back.posts traced.descent (accounts.revives _ past (revives past back.member id))
  | batch row pre free pending failed unclosed => exact opens_posts free pending failed unclosed rfl rfl rfl
  | workflow x same params attempts inserted => exact workflow_posts later.descent inserted

theorem Act.traced {pre post : Stage} (act : Act rules engine pre post)
    (traced : Traced engine pre.store) : Traced engine post.store :=
  act.moves.traced traced

theorem Acts.posts {first last : Stage} (acts : Acts rules engine first last)
    (accounts : Accounts rules batch again) (traced : Traced engine first.store) :
    Traced engine last.store ∧ Relation.ReflTransGen (Tally.Posts again) (tally batch first) (tally batch last) := by
  induction acts with
  | refl => exact ⟨traced, .refl⟩
  | tail _ act ih =>
    have later := act.traced ih.1
    exact ⟨later, ih.2.trans (act.posts accounts ih.1 later)⟩

theorem Traced.empty : Traced engine {} :=
  ⟨.empty, .empty⟩

end

variable {rules : Rules} {engine : Engine} {store : Store}

theorem Reached.traced (reached : Reached rules engine store) :
    Traced engine store :=
  ⟨reached.sound, reached.changes.descent .empty .empty⟩

theorem Reached.balanced {batch : JobID} {again : Prop}
    (reached : Reached rules engine store) (accounts : Accounts rules batch again) :
    (tally batch ⟨store, []⟩).Balanced :=
  Tally.posts_balanced (Acts.posts reached accounts .empty).2 Tally.balanced_empty

end Hopper.Lifecycle
