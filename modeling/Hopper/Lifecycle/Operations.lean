import Hopper.Lifecycle.Ending

/-! Every operation is a sequence of acts, if its callers keep their promises. -/

namespace Hopper.Lifecycle

open List Kernel Driver Sqlite

section
variable {rules : Rules} {engine : Engine} {pre post : Store}
variable {row : LiveJob} {x : W} {queue : String} {partition : Int} {limit : Nat} {old new : LiveJob} {id : JobID}
variable {params : JobRetryOrderingKeyParams} {job : JobInsert} {name : String}

/-! Claims. -/

theorem startable_of_orderingAllows (waits : row.state.waiting = true) (allowed : pre.orderingAllows row = true) :
    (roster pre).Startable row := by
  have free (keyed : row.orderingKey ≠ none) : pre.keyRunning row.queue row.orderingKey = false ∧
        some row.seq = pre.oldestWaiting row.queue row.orderingKey := by
    unfold Store.orderingAllows at allowed
    simpa [keyed] using allowed
  refine ⟨waits, fun other mem keyed queue key running => ?_, fun other mem keyed queue key otherWaits => ?_⟩
  · have none := any_eq_false.mp (free keyed).1 other mem
    exact none (decide_eq_true ⟨queue, key, running⟩)
  · have least := (min?_eq_some_iff.mp (free keyed).2.symm).2
    refine least other.seq (mem_map_of_mem (mem_filter.mpr ⟨mem, ?_⟩))
    simp [queue, key, otherWaits]

theorem mem_claimable (taken : row ∈ x.claimable pre queue limit partition) :
    row ∈ pre.jobs ∧ pre.claimEligible x.now queue row = true := by
  have ranked : row ∈ x.eligible pre queue := by
    unfold W.claimable at taken
    dsimp only at taken
    split at taken
    · exact mem_of_mem_filter (mem_of_mem_take taken)
    · exact mem_of_mem_take taken
  exact mem_filter.mp ((mem_insertionSort _).mp ranked)

theorem claimEligible_startable {now : Int} (eligible : pre.claimEligible now queue row = true) :
    (roster pre).Startable row := by
  unfold Store.claimEligible at eligible
  simp only [Bool.and_eq_true] at eligible
  exact startable_of_orderingAllows eligible.1.1.1.2 eligible.2

theorem claimed_mem_claimable (sound : Sound engine pre) (mem : row ∈ pre.jobs)
    (selected : row.seq ∈ (x.claimable pre queue limit partition).map fun taken => taken.seq) :
    row ∈ x.claimable pre queue limit partition := by
  obtain ⟨taken, takenMember, same⟩ := mem_map.mp selected
  rw [← sound.identity.seq_injective taken (mem_claimable takenMember).1 row mem same]
  exact takenMember

theorem claim_performs {clientID limit : Int} (positive : 0 < clientID) (starts : rules.starts (roster pre)) :
    Within (Performs rules x.engine) (x.claim queue clientID limit partition) pre := by
  unfold W.claim
  dsimp only
  split
  · exact within_pure Performs.refl _ _
  · refine within_describing (within_get_bind ?_)
    refine within_bind Performs.trans (fun done post started => ?_) fun _ middle _ =>
      within_get_bind (within_pure Performs.refl _ _)
    rw [W.yields_startRows started]
    refine .act fun sound => .quiet [] (.start positive (fun row mem selected => ?_) starts)
    rw [decide_eq_true_eq] at selected
    exact claimEligible_startable (mem_claimable (claimed_mem_claimable sound mem selected)).2

theorem jobClaim_performs {params : JobClaimParams} (positive : 0 < params.clientID)
    (starts : rules.starts (roster pre)) : Within (Performs rules x.engine) (x.jobClaim params) pre := by
  have claims (limit partition : Int) : Within (Performs rules x.engine) (do
        let jobs ← x.claim params.queue params.clientID limit partition
        pure { jobs := jobs : JobClaimResult }) pre :=
    within_return (claim_performs positive starts)
  unfold W.jobClaim
  split
  · exact within_pure Performs.refl _ _
  · split
    · refine within_get_bind ?_
      split
      · exact claims _ _
      · dsimp only
        split
        · split
          · exact within_pure Performs.refl _ _
          · exact claims _ _
        · split
          · exact within_pure Performs.refl _ _
          · refine within_bind Performs.trans (claim_performs positive starts) fun _ middle _ => ?_
            refine within_return (within_modify ?_)
            exact .steady (.aside rfl rfl rfl rfl le_rfl)
    · exact claims _ _

theorem claimableByID_ok {params : JobClaimByIDParams} (sound : Sound engine pre)
    (accepted : x.claimableByID pre params = .ok row) :
    row ∈ pre.jobs ∧ row.id = params.id ∧ (roster pre).Startable row := by
  unfold W.claimableByID at accepted
  split at accepted
  · split at accepted <;> cases accepted
  · next found held =>
    cases refused : x.refuseClaimByID pre params found with
    | error => simp [refused, bind, Except.bind] at accepted
    | ok =>
      have same : found = row := by
        simpa [refused, bind, Except.bind, pure, Except.pure] using accepted
      subst same
      obtain ⟨_, idle, released, _, allowed⟩ := W.refuseClaimByID_ok refused
      have mem : found ∈ pre.jobs := Table.mem_of_find? held
      refine ⟨mem, Table.key_of_find? held, startable_of_orderingAllows ?_ allowed⟩
      have live := sound.owned.live found mem
      cases state : found.state <;> simp_all [JobState.waiting, JobState.terminal]

theorem jobClaimByID_performs {params : JobClaimByIDParams} (starts : rules.starts (roster pre)) :
    Within (Performs rules x.engine) (x.jobClaimByID params) pre := by
  intro reply post claimed sound
  obtain ⟨row, accepted, _, lease, id, fence, rfl⟩ := W.yields_jobClaimByID claimed
  obtain ⟨mem, keyed, startable⟩ := claimableByID_ok sound accepted
  refine .single (.quiet [] (.lease (fun other otherMem => ?_) mem startable (id.trans keyed.symm) fence starts))
  rw [Bool.and_eq_true, decide_eq_true_eq]
  constructor
  · exact fun selected => Table.eq_of_key otherMem mem (selected.1.trans keyed.symm)
  · rintro rfl
    exact ⟨keyed, startable.waits⟩

/-! Writes to single jobs and to waiting jobs. -/

theorem touched_of_state (kept : Kept old new) (fence : new.fence = old.fence)
    (attempt : new.attempt = old.attempt) (owner : new.attemptedBy = old.attemptedBy)
    (budget : new.maxAttempts = old.maxAttempts) (state : new.state = old.state)
    (mark : new.wakeRequestedAt = old.wakeRequestedAt ∨ rules.wakes)
    (claim : new.attemptedAt = old.attemptedAt ∧ new.snoozeReason = old.snoozeReason) (edits : rules.edits) : Touched rules old new where
  toKept := kept
  fence := fence
  attempt := attempt
  owner := owner
  running := by rw [state]
  live := by rw [state]; exact fun live => live
  budget := .inl budget
  settled := .inr (.inr (.inl edits))
  mark := mark.imp_right .inr
  claim := fun _ => claim

theorem touched_of_available (kept : Kept old new) (fence : new.fence = old.fence)
    (attempt : new.attempt = old.attempt) (owner : new.attemptedBy = old.attemptedBy)
    (budget : new.maxAttempts = old.maxAttempts) (idle : old.state ≠ .running)
    (state : new.state = .available) (mark : new.wakeRequestedAt = none) (edits : rules.edits) : Touched rules old new where
  toKept := kept
  fence := fence
  attempt := attempt
  owner := owner
  running := by
    rw [state]
    exact ⟨nofun, fun running => absurd running idle⟩
  live := by
    rw [state]
    exact fun _ => rfl
  budget := .inl budget
  settled := .inr (.inr (.inl edits))
  mark := .inr (.inl ⟨by rw [state]; nofun, mark⟩)
  claim := by
    rw [state]
    exact nofun

theorem jobAge_performs {queue : String} {span : Int} (edits : rules.edits) : Within (Performs rules engine) (x.jobAge queue span) pre := by
  unfold W.jobAge
  split
  · exact within_pure Performs.refl _ _
  · refine within_get_bind (within_return (within_set (.steady ?_)))
    refine .touch _ fun row _ => ?_
    split
    · exact touched_of_state ⟨rfl, rfl, rfl, rfl, rfl, rfl, rfl, rfl⟩ rfl rfl rfl rfl rfl (.inl rfl) ⟨rfl, rfl⟩ edits
    · exact .refl rules row

theorem jobRecordProgress_performs {params : JobRecordProgressParams} (edits : rules.edits) :
    Within (Performs rules engine) (x.jobRecordProgress params) pre := by
  refine within_get_bind ?_
  split
  · exact within_pure Performs.refl _ _
  · refine within_return (within_modify (.steady ?_))
    exact .updateJob fun row _ _ =>
      touched_of_state ⟨rfl, rfl, rfl, rfl, rfl, rfl, rfl, rfl⟩ rfl rfl rfl rfl rfl (.inl rfl) ⟨rfl, rfl⟩ edits

theorem jobLeaseRenew_performs {params : JobLeaseRenewParams} : Within (Performs rules engine) (x.jobLeaseRenew params) pre := by
  refine within_get_bind ?_
  split
  · exact within_throw _ _
  · split
    · refine within_return (within_set (.steady (.renew _ fun lease => ?_)))
      split <;> rfl
    · exact within_throw _ _

theorem jobCancel_performs (edits : rules.edits) : Within (Performs rules x.engine) (x.jobCancel id) pre := by
  refine within_describing (within_get_bind ?_)
  split
  · exact within_ensure Performs.refl
  · next row found =>
    split
    · refine within_bind Performs.trans (within_modify (.steady ?_)) fun _ middle _ => ?_
      · exact .updateJob fun row _ _ =>
          touched_of_state ⟨rfl, rfl, rfl, rfl, rfl, rfl, rfl, rfl⟩ rfl rfl rfl rfl rfl (.inl rfl) ⟨rfl, rfl⟩ edits
      · exact within_return (within_modify (.steady (.notify x _ _ middle)))
    · next idle => exact cancelWaiting_performs (Table.mem_of_find? found) idle

theorem jobDelete_performs : Within (Performs rules x.engine) (x.jobDelete id) pre := by
  refine within_describing (within_get_bind ?_)
  split
  · split
    · exact within_throw _ _
    · exact within_return (within_set (.steady (.forget filter_sublist)))
  · next row found =>
    split
    · exact within_throw _ _
    · next idle => exact cancelWaiting_performs (Table.mem_of_find? found) idle

theorem jobRetry_performs {params : JobRetryParams} (edits : rules.edits)
    (revives : ∀ row ∈ pre.history, row.id = params.id → rules.revives pre row) :
    Within (Performs rules engine) (x.jobRetry params) pre := by
  refine within_describing (within_get_bind ?_)
  split
  · exact fun job post retried => .act fun _ => .retry x params revives retried edits
  · next row found =>
    split
    · exact within_throw _ _
    · next idle =>
      refine within_return (within_modify (.steady ?_))
      refine .updateJob fun other mem same => ?_
      have equal : other = row :=
        Table.eq_of_key mem (Table.mem_of_find? found) (same.trans (Table.key_of_find? found).symm)
      exact touched_of_available ⟨rfl, rfl, rfl, rfl, rfl, rfl, rfl, rfl⟩ rfl rfl rfl rfl (equal ▸ idle) rfl rfl edits

theorem mem_wakes (sound : Sound engine pre) (mem : row ∈ pre.jobs)
    (woken : row.seq ∈ x.wakes pre params) : row.state = .scheduled ∨ row.state = .retryable := by
  obtain ⟨other, selected, same⟩ := mem_map.mp ((mem_insertionSort _).mp (mem_of_mem_take woken))
  obtain ⟨otherMem, waits⟩ := mem_filter.mp selected
  rw [← sound.identity.seq_injective other otherMem row mem same]
  simp only [Bool.and_eq_true, decide_eq_true_eq] at waits
  exact waits.1.2.2

theorem jobRetryOrderingKey_performs (wakes : rules.wakes) (edits : rules.edits) :
    Within (Performs rules engine) (x.jobRetryOrderingKey params) pre := by
  refine within_get_bind (within_return (within_set (.act fun sound => .quiet [] ?_)))
  refine .touch _ fun row mem => ?_
  split
  · exact touched_of_state ⟨rfl, rfl, rfl, rfl, rfl, rfl, rfl, rfl⟩ rfl rfl rfl rfl rfl (.inr wakes) ⟨rfl, rfl⟩ edits
  · split
    · next woken =>
      refine touched_of_available ⟨rfl, rfl, rfl, rfl, rfl, rfl, rfl, rfl⟩ rfl rfl rfl rfl (fun running => ?_) rfl rfl edits
      rcases mem_wakes sound mem woken with waits | waits <;> rw [running] at waits <;> cases waits
    · exact .refl rules row

/-! Batches and workflows. -/

theorem batchInsert_performs {params : BatchInsertParams} : Within (Performs rules x.engine) (x.batchInsert params) pre := by
  refine within_ensure_bind fun batch _ => within_describing ?_
  refine within_bind Performs.trans ((mint_inserts x pre).mono fun _ inserts => inserts.performs) fun id middle _ => ?_
  refine within_return (fun done post opened => ?_)
  obtain ⟨free, rfl⟩ := W.yields_insertBatch opened
  exact .act fun _ => .batch _ middle free rfl rfl rfl

theorem batchSettle_performs {params : BatchSettleParams} : Within (Performs rules engine) (W.batchSettle params) pre := by
  unfold W.batchSettle
  split
  · exact within_pure Performs.refl _ _
  · refine within_get_bind (within_set (.act fun _ => .sweep pre _ fun row _ swept => ?_))
    rw [decide_eq_true_eq] at swept
    exact (mem_filter.mp (mem_of_mem_take swept)).2

theorem cancelExhausted_performs : Within (Performs rules x.engine) (x.cancelExhausted id) pre := by
  refine within_get_bind ?_
  split
  · exact within_pure Performs.refl _ _
  · next row found =>
    obtain ⟨held, exhausted⟩ := Option.filter_eq_some_iff.mp found
    rw [Bool.and_eq_true, decide_eq_true_eq] at exhausted
    intro count post canceled _
    simp only [yields_bind, yields_modify, yields_pure] at canceled
    obtain ⟨_, _, rfl, all, _, drawn, _, rfl⟩ := canceled
    exact .tail (.single (.exhaust x row pre (Table.mem_of_find? held) exhausted.1)) (.tail x rfl _ drawn)

theorem workflowPromoteReady_performs {params : WorkflowPromoteParams} :
    Within (Performs rules x.engine) (x.workflowPromoteReady params) pre := by
  unfold W.workflowPromoteReady
  split
  · exact within_pure Performs.refl _ _
  · refine within_get_bind ?_
    dsimp only
    split
    · exact within_pure Performs.refl _ _
    · refine within_describing (within_bind Performs.trans (within_mapM Performs.refl Performs.trans
        (fun row _ store => ?_) pre) fun _ middle _ => ?_)
      · exact within_get_bind (within_return (within_set (.act fun _ => .promote x store row.id)))
      · exact within_return (within_mapM Performs.refl Performs.trans (fun _ _ _ => cancelExhausted_performs) middle)

/-! Inserts, and operations apart from jobs. -/

theorem Performs.aside (same : roster post = roster pre) (deps : post.deps = pre.deps)
    (results : post.results = pre.results) (batches : post.batches = pre.batches)
    (drawn : pre.drawn ≤ post.drawn) : Performs rules engine pre post :=
  .steady (.aside same deps results batches drawn)

theorem encodeInsert_mints {params : JobInsertParams} (accepted : encodeInsert params = .ok job) : job.id = 0 := by
  rw [encodeInsert_ok accepted]

theorem jobInsertMany_performs {params : List JobInsertParams} {opts : JobInsertOpts}
    (welcome : ∀ given ∈ params, ∀ job, encodeInsert given = .ok job → ∀ middle, Grows pre middle →
      Welcome rules x opts.onConflict job middle) :
    Within (Performs rules x.engine) (x.jobInsertMany params opts) pre := by
  unfold W.jobInsertMany
  split
  · exact within_pure Performs.refl _ _
  · refine within_ensure_bind fun jobs encoded => within_describing ?_
    refine within_bind Performs.trans ((insertJobs_inserts (fun job mem => ?_)
      fun job mem => ?_).mono fun _ inserts => inserts.performs) fun _ middle _ => ?_
    · obtain ⟨given, _, accepted⟩ := mapM_ok_mem encoded mem
      exact encodeInsert_mints accepted
    · obtain ⟨given, givenMem, accepted⟩ := mapM_ok_mem encoded mem
      exact welcome given givenMem job accepted
    · split
      · exact within_return (within_modify (.steady (.notify x _ _ middle)))
      · exact within_pure Performs.refl _ _

theorem welcome_plain (x : W) (unbatched : job.batchID = 0)
    (attempts : rules.attempts job.maxAttempts) (store : Store) : Welcome rules x .skip job store where
  replaces := nofun
  joins := fun named => absurd unbatched named
  attempts := attempts

theorem periodicInsert_performs {params : PeriodicInsertParams}
    (welcome : ∀ job, encodeInsert params.job = .ok job → ∀ middle, Grows pre middle →
      Welcome rules x .skip job middle) : Within (Performs rules x.engine) (x.periodicInsert params) pre := by
  refine within_ensure_bind fun job encoded => within_describing (within_get_bind ?_)
  split
  · exact within_pure Performs.refl _ _
  · next advanced moved =>
    have aside : Performs rules x.engine pre advanced ∧ Grows pre advanced := by
      unfold W.advanceSlot at moved
      split at moved
      · cases moved
      · cases moved
        exact ⟨.aside rfl rfl rfl rfl le_rfl, .of_tables rfl fun _ held => held⟩
    refine within_bind Performs.trans (within_set aside.1) fun _ middle set => ?_
    rw [yields_set.mp set]
    refine within_bind Performs.trans ((insertOne_inserts (encodeInsert_mints encoded) fun last grows => ?_).mono
      fun _ inserts => inserts.performs) fun _ inserted _ => ?_
    · exact welcome job encoded last (aside.2.trans grows)
    · exact within_return (within_modify (.steady (.notify x _ _ inserted)))

theorem messagePublish_performs {params : MessagePublishParams} (attempts : ∀ row ∈ pre.subscriptions, rules.attempts
      (W.deliveryAttempts row.maxAttempts (params.orderingKey ≠ ""))) :
    Within (Performs rules x.engine) (x.messagePublish params) pre := by
  refine within_ensure_bind fun priority _ => within_describing (within_get_bind ?_)
  refine within_bind Performs.trans ((mint_inserts x pre).mono fun _ inserts => inserts.performs) fun message middle _ => ?_
  refine within_bind Performs.trans ((insertJobs_inserts (fun job mem => ?_)
    fun job mem store _ => ?_).mono fun _ inserts => inserts.performs) fun _ inserted _ => ?_
  · obtain ⟨row, _, rfl⟩ := mem_map.mp mem
    rfl
  · obtain ⟨row, sorted, rfl⟩ := mem_map.mp mem
    have matching := mem_filter.mp ((mem_insertionSort _).mp sorted)
    exact welcome_plain x rfl (attempts row matching.1) store
  · split
    · exact within_return (within_modify (.steady (.notify x _ _ inserted)))
    · exact within_pure Performs.refl _ _

theorem streamAppend_performs {params : StreamAppendParams} : Within (Performs rules x.engine) (x.streamAppend params) pre := by
  refine within_bind Performs.trans ((mint_inserts x pre).mono fun _ inserts => inserts.performs)
    fun message middle _ => within_get_bind ?_
  refine within_bind Performs.trans (within_set (.aside rfl rfl rfl rfl le_rfl)) fun _ appended _ => ?_
  split
  · exact within_return (within_modify (.steady (.notify x _ _ appended)))
  · exact within_pure Performs.refl _ _

theorem streamPump_performs {limit : Int}
    (attempts : ∀ row ∈ pre.consumers, ∀ ordered, rules.attempts (W.deliveryAttempts row.maxAttempts ordered)) :
    Within (Performs rules x.engine) (x.streamPump name limit) pre := by
  refine within_describing (within_get_bind ?_)
  split
  · exact within_throw _ _
  · next consumer found =>
    refine within_bind Performs.trans (within_forM Performs.refl Performs.trans (fun event _ store => ?_) pre)
      fun _ pumped _ => ?_
    · refine within_return ((insertJob_inserts rfl (fun named => absurd rfl named) ?_).mono fun _ inserts => inserts.performs)
      exact attempts consumer (Table.mem_of_find? found) _
    · refine within_bind Performs.trans (within_modify (.aside rfl rfl rfl rfl le_rfl)) fun _ moved _ => ?_
      split
      · exact within_return (within_modify (.steady (.notify x _ _ moved)))
      · exact within_pure Performs.refl _ _

theorem foldl_performs {Item : Type} {step : Store → Item → Store}
    (each : ∀ store item, Performs rules engine store (step store item)) {items : List Item} {store : Store} :
    Performs rules engine store (items.foldl step store) := by
  induction items generalizing store with
  | nil => exact .refl store
  | cons item items ih => exact .trans _ _ _ (each store item) ih

theorem clientRegister_performs {ttl : Int} : Within (Performs rules engine) (x.clientRegister ttl) pre := by
  refine within_get_bind ?_
  dsimp only
  split
  · exact within_throw _ _
  · exact within_return (within_set (.aside rfl rfl rfl rfl le_rfl))

theorem clientRenew_performs {clientID ttl : Int} : Within (Performs rules engine) (x.clientRenew clientID ttl) pre :=
  within_get_bind (within_return (within_set (.aside rfl rfl rfl rfl le_rfl)))

theorem clientPruneExpired_performs : Within (Performs rules engine) x.clientPruneExpired pre :=
  within_get_bind (within_return (within_set (.aside rfl rfl rfl rfl le_rfl)))

theorem setPaused_performs {paused : Bool} : Within (Performs rules engine) (x.setPaused name paused) pre :=
  within_bind Performs.trans (within_modify (.aside rfl rfl rfl rfl le_rfl))
    fun _ middle _ => within_modify (.steady (.notify x _ _ middle))

theorem queueSetLimits_performs {limits : QueueLimits} : Within (Performs rules engine) (x.queueSetLimits limits) pre :=
  within_bind Performs.trans (within_modify (.aside rfl rfl rfl rfl le_rfl))
    fun _ middle _ => within_modify (.steady (.notify x _ _ middle))

theorem historyMaintain_performs {params : HistoryMaintainParams} :
    Within (Performs rules engine) (x.historyMaintain params) pre := by
  have retained : (x.retainedHistory params pre.history).Sublist pre.history := by
    unfold W.retainedHistory
    dsimp only
    split
    · refine (W.pruneFirst_sublist _ _ _).trans ?_
      split
      · exact W.pruneFirst_sublist _ _ _
      · exact List.Sublist.refl _
    · split
      · exact W.pruneFirst_sublist _ _ _
      · exact List.Sublist.refl _
  refine within_modify (.trans pre { pre with events := x.retainedEvents params pre.events } _ ?_ ?_)
  · exact .aside rfl rfl rfl rfl le_rfl
  · exact .steady (.forget retained)

theorem subscriptionUpsert_performs {rows : List Driver.SubscriptionRow} :
    Within (Performs rules engine) (W.subscriptionUpsert rows) pre := by
  refine within_ensure_bind fun encoded _ => within_modify (foldl_performs (fun _ _ => ?_))
  exact .aside rfl rfl rfl rfl le_rfl

theorem streamConsumerUpsert_performs {rows : List Driver.StreamConsumerRow} :
    Within (Performs rules engine) (W.streamConsumerUpsert rows) pre := by
  refine within_get_bind (within_ensure_bind fun encoded _ =>
    within_set (foldl_performs (fun _ _ => ?_)))
  exact .aside rfl rfl rfl rfl le_rfl

theorem queueEnsure_performs {names : List String} : Within (Performs rules engine) (x.queueEnsure names) pre := by
  refine within_modify (foldl_performs (fun _ _ => ?_))
  exact .aside rfl rfl rfl rfl le_rfl

end

/-- What the callers of an operation promise under the rules. -/
def Obeys (rules : Rules) (x : W) (store : Store) : Operation → Prop
  | .jobInsertMany params opts => ∀ given ∈ params, ∀ job, encodeInsert given = .ok job →
      ∀ middle, Grows store middle → Welcome rules x opts.onConflict job middle
  | .periodicInsert params => ∀ job, encodeInsert params.job = .ok job →
      ∀ middle, Grows store middle → Welcome rules x .skip job middle
  | .workflowInsert params => ∀ given ∈ params.jobs, rules.attempts given.maxAttempts
  | .messagePublish params => ∀ row ∈ store.subscriptions,
      rules.attempts (W.deliveryAttempts row.maxAttempts (params.orderingKey ≠ ""))
  | .streamPump _ _ => ∀ row ∈ store.consumers, ∀ ordered,
      rules.attempts (W.deliveryAttempts row.maxAttempts ordered)
  | .jobClaim params => 0 < params.clientID ∧ rules.starts (roster store)
  | .jobClaimByID _ => rules.starts (roster store)
  | .jobFinalizeMany params =>
    (∀ result ∈ params.jobs, Leaves rules x (keepLogs params.keepLogs) (encodeResult result) store) ∧
    (params.noBatches = true → ∀ row ∈ store.jobs,
      (∃ result ∈ params.jobs, result.id = row.id) → rules.drops row)
  | .jobExpireLeases _ => ∀ row ∈ store.jobs, row.attempt < row.maxAttempts →
      rules.resumes row (x.leaseRetried row)
  | .jobAge _ _ | .jobRecordProgress _ | .jobCancel _ => rules.edits
  | .jobRetryOrderingKey _ => rules.wakes ∧ rules.edits
  | .jobRetry params => rules.edits ∧
    (∀ row ∈ store.history, row.id = params.id → rules.revives store row)
  | _ => True

variable {rules : Rules} {pre : Store} {operation : Operation}

theorem run_performs {x : W} (obeys : Obeys rules x pre operation) :
    Within (Performs rules x.engine) (operation.run x) pre := by
  cases operation with
  | jobInsertMany => exact within_map (jobInsertMany_performs obeys)
  | jobClaim => exact within_map (jobClaim_performs obeys.1 obeys.2)
  | jobClaimByID => exact within_map (jobClaimByID_performs obeys)
  | jobFinalizeMany => exact within_map (jobFinalizeMany_performs obeys.1 obeys.2)
  | jobRecordProgress => exact within_map (jobRecordProgress_performs obeys)
  | jobLeaseRenew => exact within_map jobLeaseRenew_performs
  | jobExpireLeases => exact within_map (jobExpireLeases_performs obeys)
  | jobCancel => exact within_map (jobCancel_performs obeys)
  | jobDelete => exact within_map jobDelete_performs
  | jobRetry => exact within_map (jobRetry_performs obeys.1 obeys.2)
  | jobRetryOrderingKey => exact within_map (jobRetryOrderingKey_performs obeys.1 obeys.2)
  | jobDiscardExpired limit => exact within_map (jobDiscardExpired_performs x limit pre)
  | jobAge => exact within_map (jobAge_performs obeys)
  | batchInsert => exact within_map batchInsert_performs
  | batchSettle => exact batchSettle_performs
  | workflowInsert => exact within_map fun _ _ inserted => .act fun _ => .workflow x rfl _ obeys inserted
  | workflowPromoteReady => exact within_map workflowPromoteReady_performs
  | clientRegister => exact within_map clientRegister_performs
  | clientRenew => exact within_map clientRenew_performs
  | clientDelete => exact within_modify (.aside rfl rfl rfl rfl le_rfl)
  | clientPruneExpired => exact within_map clientPruneExpired_performs
  | queueEnsure => exact queueEnsure_performs
  | setPaused => exact setPaused_performs
  | queueSetLimits => exact queueSetLimits_performs
  | periodicInsert => exact within_map (periodicInsert_performs obeys)
  | historyMaintain => exact historyMaintain_performs
  | subscriptionUpsert => exact subscriptionUpsert_performs
  | messagePublish => exact within_map (messagePublish_performs obeys)
  | streamAppend => exact within_map streamAppend_performs
  | streamConsumerUpsert => exact streamConsumerUpsert_performs
  | streamPump => exact within_map (streamPump_performs obeys)
  | notify channel payloads => exact within_modify (.steady (.notify x channel payloads pre))

theorem apply_performs {engine : Engine} {now : Int}
    (obeys : Obeys rules ⟨engine, now⟩ pre operation) :
    Performs rules engine pre (operation.apply engine now pre) :=
  (run_performs obeys).committed Performs.refl

end Hopper.Lifecycle
