import Hopper.Lifecycle.Runs

/-! No operation ever runs into the index of live unique keys or the one of
running ordering keys. -/

namespace Hopper.Guarantees

open List Kernel Driver Sqlite Lifecycle

/-- The statement would have broken the index of unique keys. -/
def BreaksUnique (failure : Failure) : Prop :=
  failure.cause = .constraint "hopper_jobs.kind, hopper_jobs.unique_key"

/-- The statement would have broken the index of running ordering keys. -/
def BreaksOrdering (failure : Failure) : Prop :=
  failure.cause = .constraint "hopper_jobs.queue, hopper_jobs.ordering_key"

def BreaksIndex (failure : Failure) : Prop :=
  BreaksUnique failure ∨ BreaksOrdering failure

theorem not_breaks {failure : Failure} (other : ∀ index, failure.cause ≠ .constraint index) : ¬BreaksIndex failure := by
  rintro (breaks | breaks) <;> exact other _ breaks

theorem not_breaks_refused (text : String) : ¬BreaksIndex (.refused text) :=
  not_breaks (by simp [Failure.refused])

/-! Checks made before a write only refuse. -/

section
variable {Value Next Item : Type}

def Refuses (checked : Except Failure Value) : Prop :=
  ∀ failure, checked = .error failure → failure.cause = .refused

theorem refuses_ok (value : Value) : Refuses (.ok value) :=
  nofun

theorem refuses_refused (text : String) : Refuses (.error (.refused text) : Except Failure Value) := by
  intro failure same
  cases same
  rfl

theorem refuses_guard {condition : Prop} [Decidable condition] {text : String} {checked : Except Failure Value}
    (refuses : Refuses checked) : Refuses (if condition then .error (.refused text) else checked) := by
  split
  · exact refuses_refused _
  · exact refuses

theorem refuses_bind {first : Except Failure Value} {next : Value → Except Failure Next} (refuses : Refuses first)
    (rest : ∀ value, Refuses (next value)) : Refuses (first >>= next) := by
  cases first with
  | error => exact fun failure same => refuses failure (by simpa [bind, Except.bind] using same)
  | ok value => exact rest value

theorem refuses_map {checked : Except Failure Value} {function : Value → Next} (refuses : Refuses checked) :
    Refuses (checked.map function) := by
  cases checked with
  | error => exact fun failure same => refuses failure (by simpa [Except.map] using same)
  | ok => exact nofun

theorem refuses_mapM {encode : Item → Except Failure Value} (each : ∀ item, Refuses (encode item))
    (items : List Item) : Refuses (items.mapM encode) := by
  induction items with
  | nil =>
    rw [mapM_nil]
    exact refuses_ok _
  | cons item items ih =>
    rw [mapM_cons]
    exact refuses_bind (each item) fun _ => refuses_bind ih fun _ => refuses_ok _

theorem refuses_forM {check : Item → Except Failure PUnit} (each : ∀ item, Refuses (check item))
    (items : List Item) : Refuses (items.forM check) := by
  induction items with
  | nil => exact refuses_ok _
  | cons item items ih => exact refuses_bind (each item) fun _ => ih

theorem smallint_refuses (value : Int) (column : String) : Refuses (smallint value column) :=
  refuses_guard (refuses_ok _)

theorem encodeInsert_refuses (params : JobInsertParams) : Refuses (encodeInsert params) :=
  refuses_bind (smallint_refuses _ _) fun _ => refuses_bind (smallint_refuses _ _) fun _ => refuses_ok _

theorem checkFinalize_refuses (result : JobFinalize) : Refuses (checkFinalize result) := by
  unfold checkFinalize
  split
  all_goals first | exact refuses_refused _ | exact refuses_guard (refuses_guard (refuses_ok _))

theorem checkResults_refuses (params : JobFinalizeParams) : Refuses (W.checkResults params) :=
  refuses_bind (refuses_forM checkFinalize_refuses _) fun _ => refuses_guard (refuses_guard (refuses_ok _))

theorem checkRange_refuses (count : Nat) (edge : JobDependency) : Refuses (checkRange count edge) :=
  refuses_guard (refuses_guard (refuses_ok _))

theorem checkGroups_refuses (edges seen : List JobDependency) : Refuses (checkGroups seen edges) := by
  induction edges generalizing seen with
  | nil => exact refuses_ok _
  | cons edge edges ih => exact refuses_guard (refuses_guard (ih _))

theorem checkDependencies_refuses (deps : List JobDependency) (count : Nat) : Refuses (checkDependencies deps count) := by
  refine refuses_bind (refuses_forM (checkRange_refuses count) _) fun _ => ?_
  split
  · exact refuses_bind (checkGroups_refuses _ _) fun _ => refuses_ok _
  · exact refuses_ok _

theorem encodeSteps_refuses (params : List JobInsertParams) (pending : List Bool) : Refuses (W.encodeSteps params pending) := by
  refine refuses_mapM (fun item => ?_) _
  obtain ⟨job, position⟩ := item
  exact refuses_guard (refuses_bind (encodeInsert_refuses job) fun _ => refuses_ok _)

theorem callbackOption_refuses (params : Option JobInsertParams) : Refuses (callbackOption params) := by
  unfold callbackOption
  split
  · exact refuses_ok _
  · exact refuses_map (refuses_guard (refuses_bind (smallint_refuses _ _) fun _ => refuses_ok _))

theorem encodeBatch_refuses (onSuccess onFailure onComplete : Option JobInsertParams)
    (metadata : Option Driver.Document) : Refuses (encodeBatch onSuccess onFailure onComplete metadata) :=
  refuses_bind (callbackOption_refuses _) fun _ => refuses_bind (callbackOption_refuses _) fun _ =>
    refuses_bind (callbackOption_refuses _) fun _ => refuses_ok _

theorem stepsJSON_refuses (steps : List String) (ids : List JobID) : Refuses (stepsJSON steps ids) := by
  unfold stepsJSON
  split
  · exact refuses_ok _
  · refine refuses_guard ?_
    split
    · exact refuses_refused _
    · exact refuses_ok _

theorem positiveAttempts_refuses (maxAttempts : Int) : Refuses (W.positiveAttempts maxAttempts) := by
  unfold W.positiveAttempts
  split
  · exact refuses_map (smallint_refuses _ _)
  · exact refuses_ok _

end

section
variable {pre : Store} {Value : Type} {program : Tx Value}
variable {x : W} {engine : Engine} {operation : String} {event : LiveJob → Event} {job : JobInsert} {id : JobID}
variable {finished : List Finished} {onConflict : ConflictAction} {jobs : List JobInsert} {queue : String}
variable {params : List JobInsertParams} {limit : Int} {name : String}

theorem avoids_refuses {checked : Except Failure Value} (refuses : Refuses checked) :
    Avoids BreaksIndex (ensure checked : Tx Value) pre := by
  refine avoids_ensure fun failure failed => not_breaks fun index same => ?_
  rw [refuses failure failed] at same
  cases same

theorem avoids_inOperation (avoids : Avoids BreaksIndex program pre) :
    Avoids BreaksIndex (describing (.inOperation operation) program) pre :=
  avoids_describing (fun _ breaks => breaks) avoids

theorem avoids_inOperationUnless {plain : List Cause} (avoids : Avoids BreaksIndex program pre) :
    Avoids BreaksIndex (describing (.inOperationUnless plain operation) program) pre := by
  refine avoids_describing (fun failure breaks => ?_) avoids
  unfold BreaksIndex BreaksUnique BreaksOrdering at breaks ⊢
  rwa [Failure.inOperationUnless_cause] at breaks

/-! The index of unique keys. -/

theorem insertRow_avoids {row : LiveJob} (free : pre.uniqueTaken (W.sequenced pre row) = false) :
    Avoids BreaksIndex (W.insertRow row event) pre := by
  refine avoids_get_bind ?_
  dsimp only
  split
  · exact avoids_throw (not_breaks_refused _) _
  · rw [if_neg (by simp [free])]
    split
    · refine avoids_throw ?_ _
      rintro (breaks | breaks) <;> simp [BreaksUnique, BreaksOrdering, Failure.constraint] at breaks
    · exact avoids_return (avoids_set _ _)

/-- No live job holds the unique key of an insert, if it has one. -/
def KeyOpen (store : Store) (job : JobInsert) : Prop :=
  job.uniqueKey = "" ∨ store.holder? job.kind job.uniqueKey = none

theorem uniqueTaken_newRow (free : KeyOpen pre job) (id : JobID) :
    pre.uniqueTaken (W.sequenced pre (x.newRow job id)) = false := by
  unfold Store.uniqueTaken
  simp only [W.sequenced, W.newRow, nullable]
  by_cases unnamed : job.uniqueKey = ""
  · simp [unnamed]
  · simp [unnamed, free.resolve_left unnamed]

theorem mint_avoids : Avoids BreaksIndex x.mint pre :=
  avoids_get_bind (avoids_return (avoids_set _ _))

theorem insertJobAs_avoids (free : KeyOpen pre job) :
    Avoids BreaksIndex (x.insertJobAs job event) pre := by
  unfold W.insertJobAs
  split
  · refine avoids_bind mint_avoids fun id middle minted => ?_
    obtain ⟨rfl, rfl⟩ := W.yields_mint.mp minted
    exact insertRow_avoids (uniqueTaken_newRow free _)
  · exact insertRow_avoids (uniqueTaken_newRow free _)

theorem countBatch_avoids {count failed : Int} : Avoids BreaksIndex (x.countBatch id count failed) pre := by
  refine avoids_get_bind ?_
  split
  · exact avoids_pure _ _
  · split
    · exact avoids_pure _ _
    · split
      · exact avoids_set _ _
      · refine avoids_bind (avoids_set _ _) fun _ middle _ => avoids_inOperation ?_
        refine avoids_forM (fun callback _ store => ?_) middle
        exact avoids_bind (insertJobAs_avoids (.inl rfl)) fun _ _ _ => avoids_modify _ _

theorem tail_avoids : Avoids BreaksIndex (x.tail finished) pre := by
  unfold W.tail
  split
  · exact avoids_pure _ _
  · refine avoids_get_bind (avoids_bind (avoids_set _ _) fun _ walked _ => ?_)
    refine avoids_bind (avoids_forM (fun batch _ store => countBatch_avoids) walked) fun _ counted _ => ?_
    exact avoids_return (avoids_modify _ _)

theorem tailCascaded_avoids : Avoids BreaksIndex (x.tailCascaded finished) pre :=
  avoids_return tail_avoids

theorem insertOne_avoids : Avoids BreaksIndex (x.insertOne onConflict job) pre := by
  refine avoids_get_bind ?_
  split
  · split
    · refine avoids_bind ?_ fun _ _ _ => avoids_pure _ _
      unfold W.replace
      split
      · exact avoids_throw (not_breaks_refused _) _
      · exact avoids_return (avoids_modify _ _)
    · exact avoids_pure _ _
  · next absent =>
    split
    · split
      · refine avoids_bind (avoids_set _ _) fun _ _ _ => ?_
        exact avoids_return countBatch_avoids
      · exact avoids_pure _ _
    · refine avoids_return (insertJobAs_avoids ?_)
      -- The look-up that found no live holder is the index's own.
      unfold W.liveDuplicate at absent
      split at absent
      · next unnamed => exact .inl unnamed
      · exact .inr absent

theorem insertJobs_avoids :
    Avoids BreaksIndex (x.insertJobs jobs onConflict) pre :=
  avoids_mapM (fun _ _ _ => insertOne_avoids) pre

theorem retryHistory_avoids {params : JobRetryParams} : Avoids BreaksIndex (x.retryHistory params) pre := by
  refine avoids_get_bind ?_
  split
  · exact avoids_throw (not_breaks (by simp [Failure.notFound])) _
  · dsimp only
    split
    · exact avoids_throw (not_breaks (by simp [Failure.uniqueConflict])) _
    · next free =>
      refine avoids_bind (insertRow_avoids ((Bool.not_eq_true _).mp free)) fun _ _ _ => ?_
      refine avoids_bind (avoids_modify _ _) fun _ _ _ => ?_
      split
      · exact avoids_pure _ _
      · exact avoids_return (avoids_modify _ _)

/-! The index of running ordering keys. -/

theorem orderingClash_eq_false {rows : List LiveJob} (distinct : rows.Nodup)
    (serial : ∀ first ∈ rows, ∀ second ∈ rows, first.state = .running → second.state = .running →
      first.queue = second.queue → first.orderingKey = second.orderingKey →
      first.orderingKey ≠ none → first = second) : Store.orderingClash rows = false := by
  induction rows with
  | nil => rfl
  | cons row rows ih =>
    rw [nodup_cons] at distinct
    have rest := ih distinct.2 fun first firstMem second secondMem =>
      serial first (mem_cons_of_mem _ firstMem) second (mem_cons_of_mem _ secondMem)
    unfold Store.orderingClash
    rw [rest, Bool.or_false, Bool.eq_false_iff]
    intro clash
    simp only [Bool.and_eq_true, decide_eq_true_eq, Option.isSome_iff_ne_none, any_eq_true] at clash
    obtain ⟨⟨running, keyed⟩, other, mem, ⟨otherRunning, queue⟩, key⟩ := clash
    have same := serial row mem_cons_self other (mem_cons_of_mem _ mem) running otherRunning queue.symm key.symm keyed
    exact distinct.1 (same ▸ mem)

theorem startRows_avoids {owner : Option Int} {condition : LiveJob → Bool} (sound : Sound engine pre)
    (serial : Serial (roster pre))
    (startable : ∀ row ∈ pre.jobs, condition row = true → (roster pre).Startable row) :
    Avoids BreaksIndex (x.startRows owner condition) pre := by
  refine avoids_get_bind ?_
  dsimp only
  rw [if_neg]
  · exact avoids_set _ _
  · have post : Serial (roster (x.startedStore owner condition pre)) :=
      serial.of_origin sound.identity (forall_mem_started (x.key_started_if owner condition)
        (fun row mem selected _ => ⟨row, mem, .inr (startable row mem selected), started_kept x owner row⟩)
        fun row mem _ running => ⟨row, mem, .inl running, .refl row⟩)
    rw [orderingClash_eq_false (List.Nodup.of_map _ (x.startedStore owner condition pre).jobs.distinct) post]
    simp

theorem claim_avoids {clientID limit partition : Int} (sound : Sound engine pre)
    (serial : Serial (roster pre)) : Avoids BreaksIndex (x.claim queue clientID limit partition) pre := by
  unfold W.claim
  dsimp only
  split
  · exact avoids_pure _ _
  · refine avoids_inOperation (avoids_get_bind (avoids_bind ?_ fun _ _ _ =>
      avoids_get_bind (avoids_pure _ _)))
    refine startRows_avoids sound serial fun row mem selected => ?_
    rw [decide_eq_true_eq] at selected
    exact claimEligible_startable (mem_claimable (claimed_mem_claimable sound mem selected)).2

theorem jobClaim_avoids {params : JobClaimParams} (sound : Sound engine pre) (serial : Serial (roster pre)) :
    Avoids BreaksIndex (x.jobClaim params) pre := by
  have claims (limit partition : Int) : Avoids BreaksIndex (do
        let jobs ← x.claim params.queue params.clientID limit partition
        pure { jobs := jobs : JobClaimResult }) pre :=
    avoids_return (claim_avoids sound serial)
  unfold W.jobClaim
  split
  · exact avoids_pure _ _
  · split
    · refine avoids_get_bind ?_
      split
      · exact claims _ _
      · dsimp only
        split
        · split
          · exact avoids_pure _ _
          · exact claims _ _
        · split
          · exact avoids_pure _ _
          · exact avoids_bind (claim_avoids sound serial) fun _ _ _ =>
              avoids_return (avoids_modify _ _)
    · exact claims _ _

theorem refuseClaimByID_fails {params : JobClaimByIDParams} {row : LiveJob} {failure : Failure}
    (refused : x.refuseClaimByID pre params row = .error failure) : ¬BreaksIndex failure := by
  apply not_breaks
  intro index same
  unfold W.refuseClaimByID at refused
  -- Every check fails with a cause of its own.
  repeat' split at refused
  all_goals cases refused <;> cases same

theorem jobClaimByID_avoids {params : JobClaimByIDParams} (sound : Sound engine pre)
    (serial : Serial (roster pre)) : Avoids BreaksIndex (x.jobClaimByID params) pre := by
  unfold W.jobClaimByID
  split
  · exact avoids_throw (not_breaks_refused _) _
  · refine avoids_inOperationUnless (avoids_get_bind (avoids_bind (avoids_ensure fun failure refused => ?_)
      fun row middle ensured => ?_))
    · unfold W.claimableByID at refused
      split at refused
      · split at refused <;> cases refused <;> exact not_breaks (by simp [Failure.jobNotClaimable, Failure.notFound])
      · next found held =>
        cases checked : x.refuseClaimByID pre params found with
        | error =>
          simp only [checked, bind, Except.bind, Except.error.injEq] at refused
          exact refused ▸ refuseClaimByID_fails checked
        | ok => simp [checked, bind, Except.bind, pure, Except.pure] at refused
    · obtain ⟨accepted, rfl⟩ := yields_ensure.mp ensured
      obtain ⟨mem, keyed, startable⟩ := claimableByID_ok sound accepted
      refine avoids_bind (startRows_avoids sound serial fun other otherMem selected => ?_) fun _ _ _ =>
        avoids_get_bind (avoids_return (avoids_set _ _))
      rw [Bool.and_eq_true, decide_eq_true_eq] at selected
      rw [Table.eq_of_key otherMem mem (selected.1.trans keyed.symm)]
      exact startable

/-! The operations. -/

theorem jobInsertMany_avoids {opts : JobInsertOpts} :
    Avoids BreaksIndex (x.jobInsertMany params opts) pre := by
  unfold W.jobInsertMany
  split
  · exact avoids_pure _ _
  · refine avoids_bind (avoids_refuses (refuses_mapM encodeInsert_refuses _)) fun jobs _ _ =>
      avoids_inOperation (avoids_bind insertJobs_avoids fun _ _ _ => ?_)
    split
    · exact avoids_return (avoids_modify _ _)
    · exact avoids_pure _ _

theorem jobFinalizeMany_avoids {params : JobFinalizeParams} : Avoids BreaksIndex (x.jobFinalizeMany params) pre := by
  unfold W.jobFinalizeMany
  split
  · exact avoids_pure _ _
  · refine avoids_bind (avoids_refuses (checkResults_refuses params)) fun results _ _ =>
      avoids_get_bind (avoids_bind (avoids_set _ _) fun _ _ _ => ?_)
    split
    · exact avoids_pure _ _
    · exact avoids_return (avoids_inOperation tailCascaded_avoids)

theorem jobRecordProgress_avoids {params : JobRecordProgressParams} : Avoids BreaksIndex (x.jobRecordProgress params) pre := by
  refine avoids_get_bind ?_
  split
  · exact avoids_pure _ _
  · exact avoids_return (avoids_modify _ _)

theorem jobLeaseRenew_avoids {params : JobLeaseRenewParams} : Avoids BreaksIndex (x.jobLeaseRenew params) pre := by
  have fenced : ¬BreaksIndex .jobFenced := not_breaks (by simp [Failure.jobFenced])
  refine avoids_get_bind ?_
  split
  · exact avoids_throw fenced _
  · split
    · exact avoids_return (avoids_set _ _)
    · exact avoids_throw fenced _

theorem jobExpireLeases_avoids {params : JobExpireLeasesParams} : Avoids BreaksIndex (x.jobExpireLeases params) pre :=
  avoids_inOperation (avoids_get_bind (avoids_bind (avoids_set _ _) fun _ _ _ =>
    avoids_return tailCascaded_avoids))

theorem jobDiscardExpired_avoids : Avoids BreaksIndex (x.jobDiscardExpired limit) pre :=
  avoids_inOperation (avoids_get_bind (avoids_bind (avoids_modify _ _) fun _ _ _ =>
    avoids_return tailCascaded_avoids))

theorem cancelWaiting_avoids {row : LiveJob} {archive : Bool} : Avoids BreaksIndex (x.cancelWaiting row archive) pre :=
  avoids_bind (avoids_modify _ _) fun _ _ _ => avoids_return tail_avoids

theorem not_breaks_notFound : ¬BreaksIndex .notFound :=
  not_breaks (by simp [Failure.notFound])

theorem not_breaks_jobRunning : ¬BreaksIndex .jobRunning :=
  not_breaks (by simp [Failure.jobRunning])

theorem jobCancel_avoids : Avoids BreaksIndex (x.jobCancel id) pre := by
  refine avoids_inOperationUnless (avoids_get_bind ?_)
  split
  · refine avoids_ensure fun failure failed => ?_
    unfold W.jobGet at failed
    split at failed
    · cases failed
    · split at failed
      · cases failed
      · cases failed
        exact not_breaks_notFound
  · split
    · exact avoids_bind (avoids_modify _ _) fun _ _ _ =>
        avoids_return (avoids_modify _ _)
    · exact cancelWaiting_avoids

theorem jobDelete_avoids : Avoids BreaksIndex (x.jobDelete id) pre := by
  refine avoids_inOperationUnless (avoids_get_bind ?_)
  split
  · split
    · exact avoids_throw not_breaks_notFound _
    · exact avoids_return (avoids_set _ _)
  · split
    · exact avoids_throw not_breaks_jobRunning _
    · exact cancelWaiting_avoids

theorem jobRetry_avoids {params : JobRetryParams} : Avoids BreaksIndex (x.jobRetry params) pre := by
  refine avoids_inOperationUnless (avoids_get_bind ?_)
  split
  · exact retryHistory_avoids
  · split
    · exact avoids_throw not_breaks_jobRunning _
    · exact avoids_return (avoids_modify _ _)

theorem insertBatch_avoids {total : Int} {batch : BatchEncoded}
    {edges : Option (List JobEdge)} {steps : List (JobID × String)} {reads : Bool} :
    Avoids BreaksIndex (x.insertBatch id name total batch edges steps reads) pre := by
  refine avoids_get_bind ?_
  dsimp only
  split
  · refine avoids_throw ?_ _
    rintro (breaks | breaks) <;> simp [BreaksUnique, BreaksOrdering, Failure.constraint] at breaks
  · exact avoids_set _ _

theorem batchInsert_avoids {params : BatchInsertParams} : Avoids BreaksIndex (x.batchInsert params) pre :=
  avoids_bind (avoids_refuses (encodeBatch_refuses _ _ _ _)) fun _ _ _ => avoids_inOperation (avoids_bind mint_avoids fun _ _ _ =>
      avoids_return insertBatch_avoids)

theorem batchSettle_avoids {params : BatchSettleParams} : Avoids BreaksIndex (W.batchSettle params) pre := by
  unfold W.batchSettle
  split
  · exact avoids_pure _ _
  · exact avoids_get_bind (avoids_set _ _)

theorem encodeSteps_unnamed {pending : List Bool}
    (encoded : W.encodeSteps params pending = .ok jobs) : ∀ job ∈ jobs, job.uniqueKey = "" := by
  intro job mem
  obtain ⟨given, _, plain, waits, unnamed, inserted, rfl⟩ := W.encodeSteps_mem encoded mem
  rw [encodeInsert_ok inserted]
  exact unnamed

theorem workflowInsert_avoids {params : WorkflowInsertParams} : Avoids BreaksIndex (x.workflowInsert params) pre := by
  unfold W.workflowInsert
  split
  · exact avoids_throw (not_breaks_refused _) _
  · refine avoids_bind (avoids_inOperation (avoids_refuses (checkDependencies_refuses _ _))) fun pending _ _ => ?_
    refine avoids_bind (avoids_refuses (encodeSteps_refuses _ _)) fun jobs _ encoded => ?_
    refine avoids_bind (avoids_refuses (encodeBatch_refuses _ _ _ _)) fun batch _ _ => avoids_inOperation ?_
    refine avoids_bind (avoids_mapM (fun _ _ store => mint_avoids) _) fun ids _ _ => ?_
    refine avoids_bind (avoids_refuses (stepsJSON_refuses _ _)) fun steps _ _ => ?_
    refine avoids_bind mint_avoids fun id _ _ => ?_
    refine avoids_bind (avoids_inOperation insertBatch_avoids) fun _ _ _ => ?_
    have unnamed := encodeSteps_unnamed (yields_ensure.mp encoded).1
    refine avoids_bind (avoids_mapM (fun step mem store => ?_) _) fun results _ _ => ?_
    · exact avoids_return (avoids_inOperation (insertJobAs_avoids (.inl (unnamed step.1 (of_mem_zip mem).1))))
    · refine avoids_bind (avoids_modify _ _) fun _ _ _ => ?_
      split
      · exact avoids_return (avoids_modify _ _)
      · exact avoids_pure _ _

theorem workflowPromoteReady_avoids {params : WorkflowPromoteParams} : Avoids BreaksIndex (x.workflowPromoteReady params) pre := by
  unfold W.workflowPromoteReady
  split
  · exact avoids_pure _ _
  · refine avoids_get_bind ?_
    dsimp only
    split
    · exact avoids_pure _ _
    · refine avoids_inOperation (avoids_bind (avoids_mapM (fun row _ store => ?_) _) fun _ _ _ =>
        avoids_return (avoids_mapM (fun row _ store => ?_) _))
      · exact avoids_get_bind (avoids_return (avoids_set _ _))
      · refine avoids_get_bind ?_
        split
        · exact avoids_pure _ _
        · exact avoids_bind (avoids_modify _ _) fun _ _ _ =>
            avoids_return tail_avoids

theorem periodicInsert_avoids {params : PeriodicInsertParams} : Avoids BreaksIndex (x.periodicInsert params) pre := by
  refine avoids_bind (avoids_refuses (encodeInsert_refuses _)) fun job _ _ =>
    avoids_inOperation (avoids_get_bind ?_)
  split
  · exact avoids_pure _ _
  · exact avoids_bind (avoids_set _ _) fun _ _ _ => avoids_bind insertOne_avoids fun _ _ _ =>
      avoids_return (avoids_modify _ _)

theorem messagePublish_avoids {params : MessagePublishParams} : Avoids BreaksIndex (x.messagePublish params) pre := by
  refine avoids_bind (avoids_refuses (smallint_refuses _ _)) fun priority _ _ =>
    avoids_inOperation (avoids_get_bind (avoids_bind mint_avoids fun message _ _ =>
      avoids_bind insertJobs_avoids fun _ _ _ => ?_))
  split
  · exact avoids_return (avoids_modify _ _)
  · exact avoids_pure _ _

theorem streamAppend_avoids {params : StreamAppendParams} : Avoids BreaksIndex (x.streamAppend params) pre := by
  refine avoids_bind mint_avoids fun _ _ _ => avoids_get_bind (avoids_bind (avoids_set _ _) fun _ _ _ => ?_)
  split
  · exact avoids_return (avoids_modify _ _)
  · exact avoids_pure _ _

theorem streamPump_avoids : Avoids BreaksIndex (x.streamPump name limit) pre := by
  refine avoids_inOperationUnless (avoids_get_bind ?_)
  split
  · exact avoids_throw not_breaks_notFound _
  · refine avoids_bind (avoids_forM (fun event _ store => ?_) _) fun _ _ _ =>
      avoids_bind (avoids_modify _ _) fun _ _ _ => ?_
    · exact avoids_return (insertJobAs_avoids (.inl rfl))
    · split
      · exact avoids_return (avoids_modify _ _)
      · exact avoids_pure _ _

theorem clientRegister_avoids {ttl : Int} : Avoids BreaksIndex (x.clientRegister ttl) pre := by
  refine avoids_get_bind ?_
  dsimp only
  split
  · refine avoids_throw ?_ _
    rintro (breaks | breaks) <;> simp [BreaksUnique, BreaksOrdering, Failure.constraint] at breaks
  · exact avoids_return (avoids_set _ _)

theorem subscriptionUpsert_avoids {rows : List Driver.SubscriptionRow} : Avoids BreaksIndex (W.subscriptionUpsert rows) pre :=
  avoids_bind (avoids_refuses (refuses_mapM (fun _ => refuses_bind (positiveAttempts_refuses _)
    fun _ => refuses_ok _) _)) fun _ _ _ => avoids_modify _ _

theorem streamConsumerUpsert_avoids {rows : List Driver.StreamConsumerRow} : Avoids BreaksIndex (W.streamConsumerUpsert rows) pre :=
  avoids_get_bind (avoids_bind (avoids_refuses (refuses_mapM (fun _ => refuses_bind (positiveAttempts_refuses _)
    fun _ => refuses_ok _) _)) fun _ _ _ => avoids_set _ _)

theorem jobAge_avoids {span : Int} : Avoids BreaksIndex (x.jobAge queue span) pre := by
  unfold W.jobAge
  split
  · exact avoids_pure _ _
  · exact avoids_get_bind (avoids_return (avoids_set _ _))

end

theorem run_avoids {rules : Rules} {engine : Engine} {store : Store} (reached : Reached rules engine store)
    (x : W) (operation : Operation) : Avoids BreaksIndex (operation.run x) store := by
  have sound := reached.sound
  have serial := reached.orderly.serial
  cases operation with
  | jobInsertMany => exact avoids_map jobInsertMany_avoids
  | jobClaim => exact avoids_map (jobClaim_avoids sound serial)
  | jobClaimByID => exact avoids_map (jobClaimByID_avoids sound serial)
  | jobFinalizeMany => exact avoids_map jobFinalizeMany_avoids
  | jobRecordProgress => exact avoids_map jobRecordProgress_avoids
  | jobLeaseRenew => exact avoids_map jobLeaseRenew_avoids
  | jobExpireLeases => exact avoids_map jobExpireLeases_avoids
  | jobCancel => exact avoids_map jobCancel_avoids
  | jobDelete => exact avoids_map jobDelete_avoids
  | jobRetry => exact avoids_map jobRetry_avoids
  | jobRetryOrderingKey | clientRenew | clientPruneExpired =>
    exact avoids_map (avoids_get_bind (avoids_return (avoids_set _ _)))
  | jobDiscardExpired => exact avoids_map jobDiscardExpired_avoids
  | jobAge => exact avoids_map jobAge_avoids
  | batchInsert => exact avoids_map batchInsert_avoids
  | batchSettle => exact batchSettle_avoids
  | workflowInsert => exact avoids_map workflowInsert_avoids
  | workflowPromoteReady => exact avoids_map workflowPromoteReady_avoids
  | clientRegister => exact avoids_map clientRegister_avoids
  | clientDelete | queueEnsure | historyMaintain | notify => exact avoids_modify _ _
  | setPaused | queueSetLimits => exact avoids_bind (avoids_modify _ _) fun _ _ _ => avoids_modify _ _
  | periodicInsert => exact avoids_map periodicInsert_avoids
  | subscriptionUpsert => exact subscriptionUpsert_avoids
  | messagePublish => exact avoids_map messagePublish_avoids
  | streamAppend => exact avoids_map streamAppend_avoids
  | streamConsumerUpsert => exact streamConsumerUpsert_avoids
  | streamPump => exact avoids_map streamPump_avoids

end Hopper.Guarantees
