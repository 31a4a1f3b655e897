import Hopper.Lifecycle.Inserting

/-! The ends of attempts as acts: results, expired leases, and jobs that finish
without running. -/

namespace Hopper.Lifecycle

open List Kernel Driver Sqlite

section
variable {rules : Rules} {engine : Engine} {pre post : Store}
variable {result : JobFinalize} {params : JobFinalizeParams} {results : List Result} {row : LiveJob} {x : W}
variable {expiring : W.Expiring} {keep : Nat} {start : Store} {applying : Applying}

theorem checkFinalize_state (accepted : checkFinalize result = .ok ()) :
    result.state.terminal = true ∨ result.state.waiting = true := by
  unfold checkFinalize at accepted
  cases state : result.state <;> simp [state, JobState.terminal, JobState.waiting] at accepted ⊢

theorem checkResults_ok (accepted : W.checkResults params = .ok results) :
    results = params.jobs.map encodeResult ∧ ∀ result ∈ params.jobs, checkFinalize result = .ok () := by
  unfold W.checkResults at accepted
  cases checked : params.jobs.forM checkFinalize with
  | error => simp [checked, bind, Except.bind] at accepted
  | ok =>
    refine ⟨?_, forM_ok checked⟩
    simp only [checked, bind, Except.bind] at accepted
    split at accepted
    · cases accepted
    · split at accepted
      · cases accepted
      · exact (Except.ok.inj accepted).symm

theorem owns_released (sound : Sound engine pre) (mem : row ∈ pre.jobs)
    (owns : pre.owns row result = true) : row.state = .running ∧
      Released row pre.leases (W.endClaim row result.lease.isSome pre).leases := by
  unfold Store.owns at owns
  cases leased : result.lease with
  | some =>
    simp only [leased, Store.leaseOwns, Bool.and_eq_true, decide_eq_true_eq] at owns
    obtain ⟨⟨⟨running, unowned⟩, _⟩, _⟩ := owns
    refine ⟨running, fun other => ?_⟩
    have free : row.attemptedBy = none := by
      cases owner : row.attemptedBy with
      | none => rfl
      | some client =>
        have positive := sound.owned.positive row mem running client owner
        rw [owner, Option.getD_some] at unowned
        omega
    simp [W.endClaim, Store.releaseLease, free]
  | none =>
    simp only [leased, Bool.and_eq_true, decide_eq_true_eq] at owns
    obtain ⟨⟨⟨running, owned⟩, _⟩, _⟩ := owns
    refine ⟨running, fun other => ?_⟩
    have held : row.attemptedBy ≠ none := by
      intro none
      rw [none] at owned
      exact owned rfl
    simp [W.endClaim, held]

theorem owns_fence (owns : pre.owns row (encodeResult result).toJobFinalize = true) :
    row.fence = (encodeResult result).fence := by
  unfold Store.owns at owns
  cases leased : result.lease with
  | some =>
    simp only [encodeResult, leased, Store.leaseOwns, Bool.and_eq_true, decide_eq_true_eq] at owns ⊢
    exact owns.1.2
  | none =>
    simp only [encodeResult, leased, Bool.and_eq_true, decide_eq_true_eq] at owns ⊢
    exact owns.2

theorem resumed_resumed {result : Result} (waits : result.state.waiting = true)
    (resumes : rules.resumes row (x.resumed result keep row)) : Resumed rules row (x.resumed result keep row) where
  toKept := ⟨rfl, rfl, rfl, rfl, rfl, rfl, rfl, rfl⟩
  fence := rfl
  owner := rfl
  waits := waits
  mark := rfl
  resumes := resumes

structure Applied (rules : Rules) (engine : Engine) (start : Store) (results : List Result)
    (applying : Applying) : Prop where
  acts : Acts rules engine ⟨start, []⟩ ⟨applying.store, applying.finished⟩
  running : ∀ row ∈ applying.store.jobs, row.state = .running → row ∈ start.jobs
  finished : ∀ finished ∈ applying.finished, finished.row ∈ start.jobs ∧
    ∃ result ∈ results, result.id = finished.row.id

/-- What the callers of a finalize promise of a result that leaves its job
waiting. -/
def Leaves (rules : Rules) (x : W) (keep : Nat) (result : Result) (store : Store) : Prop :=
  ∀ row ∈ store.jobs, row.state = .running → row.id = result.id → row.fence = result.fence →
    result.state.waiting = true → rules.resumes row (x.resumed result keep row)

theorem applyResult_applied (sound : Sound x.engine start)
    (applied : Applied rules x.engine start results applying) (checked : checkFinalize result = .ok ())
    (among : encodeResult result ∈ results) (leaves : Leaves rules x keep (encodeResult result) start) :
    Applied rules x.engine start results (x.applyResult keep applying (encodeResult result)) := by
  unfold W.applyResult
  split
  · exact applied
  · next row found =>
    split
    · next owns =>
      have mem : row ∈ applying.store.jobs := Table.mem_of_find? found
      have keyed : row.id = result.id := Table.key_of_find? found
      obtain ⟨running, released⟩ := owns_released (applied.acts.moves sound).2 mem owns
      have started := applied.running row mem running
      dsimp only
      split
      · next terminal =>
        refine ⟨applied.acts.tail ?_, ?_, ?_⟩
        · exact .conclude x (x.resultFinished (encodeResult result) keep row) _ _ _ mem running terminal released
        · intro other otherMem
          rw [jobs_finish] at otherMem
          exact applied.running other (Table.mem_delete.mp otherMem).1
        · intro finished finishedMember
          rcases List.mem_append.mp finishedMember with earlier | new
          · exact applied.finished finished earlier
          · rw [mem_singleton.mp new]
            exact ⟨started, encodeResult result, among, keyed.symm⟩
      · next terminal =>
        have waits : (encodeResult result).state.waiting = true :=
          (checkFinalize_state checked).resolve_left terminal
        have resumes := leaves row started running keyed (owns_fence owns) waits
        refine ⟨applied.acts.tail ?_, ?_, applied.finished⟩
        · exact .quiet _ (.resume mem keyed running (resumed_resumed waits resumes) released)
        · intro other otherMem otherRunning
          rcases W.mem_updateJob.mp otherMem with ⟨old, _⟩ | ⟨old, oldMem, _, rfl⟩
          · exact applied.running other old otherRunning
          · exact absurd otherRunning (JobState.waiting_ne_running waits)
    · exact applied

theorem applyResults_applied (sound : Sound x.engine start) (list : List JobFinalize)
    (checked : ∀ result ∈ list, checkFinalize result = .ok ())
    (among : ∀ result ∈ list, encodeResult result ∈ results)
    (leaves : ∀ result ∈ list, Leaves rules x keep (encodeResult result) start)
    (applied : Applied rules x.engine start results applying) :
    Applied rules x.engine start results ((list.map encodeResult).foldl (x.applyResult keep) applying) := by
  induction list generalizing applying with
  | nil => exact applied
  | cons result list ih =>
    refine ih (fun other mem => checked other (mem_cons_of_mem _ mem))
      (fun other mem => among other (mem_cons_of_mem _ mem))
      (fun other mem => leaves other (mem_cons_of_mem _ mem)) ?_
    exact applyResult_applied sound applied (checked result mem_cons_self)
      (among result mem_cons_self) (leaves result mem_cons_self)

section
variable (leaves : ∀ result ∈ params.jobs, Leaves rules x (keepLogs params.keepLogs) (encodeResult result) pre)
include leaves

theorem applied_of_checked (sound : Sound x.engine pre) (accepted : W.checkResults params = .ok results) :
    Applied rules x.engine pre results (x.applyResults params.keepLogs results pre) := by
  obtain ⟨rfl, checked⟩ := checkResults_ok accepted
  refine applyResults_applied sound params.jobs checked (fun result => mem_map_of_mem) leaves ?_
  exact ⟨.refl, fun row mem _ => mem, forall_mem_nil _⟩

theorem jobFinalizeMany_performs (drops : params.noBatches = true → ∀ row ∈ pre.jobs,
      (∃ result ∈ params.jobs, result.id = row.id) → rules.drops row) :
    Within (Performs rules x.engine) (x.jobFinalizeMany params) pre := by
  intro reply post finalized sound
  rcases W.yields_jobFinalizeMany.mp finalized with ⟨_, _, rfl⟩ | ⟨_, results, accepted, reported⟩
  · exact .refl
  have applied := applied_of_checked leaves sound accepted
  rcases W.yields_reportResults.mp reported with ⟨noBatches, _, rfl⟩ | ⟨_, all, drawn, _⟩
  · refine applied.acts.tail (.drop _ _ fun finished mem => ?_)
    obtain ⟨live, result, among, same⟩ := applied.finished finished mem
    rw [(checkResults_ok accepted).1] at among
    obtain ⟨given, givenMem, rfl⟩ := mem_map.mp among
    exact drops noBatches finished.row live ⟨given, givenMem, same⟩
  · exact applied.acts.tail (.tail x rfl _ drawn)

end

/-! Jobs that finish without running. -/

theorem cancelWaiting_performs {archive : Bool} (mem : row ∈ pre.jobs) (idle : row.state ≠ .running) :
    Within (Performs rules x.engine) (x.cancelWaiting row archive) pre := by
  intro reply post canceled _
  simp only [W.cancelWaiting, yields_bind, yields_modify, yields_pure] at canceled
  obtain ⟨_, _, rfl, all, _, drawn, _, rfl⟩ := canceled
  exact .tail (.single (.finish x _ pre [] mem idle rfl)) (.tail x rfl _ drawn)

theorem finishAll_acts (list : List Finished) (due : List Finished) (distinct : (list.map fun finished => finished.row.id).Nodup)
    (finishes : ∀ finished ∈ list, finished.row ∈ pre.jobs ∧ finished.row.state ≠ .running ∧
      finished.state.terminal = true) : Acts rules engine ⟨pre, due⟩ ⟨x.finishAll list pre, due ++ list⟩ := by
  induction list generalizing pre due with
  | nil =>
    rw [append_nil]
    exact .refl
  | cons finished list ih =>
    obtain ⟨mem, idle, terminal⟩ := finishes finished mem_cons_self
    rw [map_cons, nodup_cons] at distinct
    have remaining : ∀ other ∈ list, other.row ∈ (x.finish finished pre).jobs ∧
        other.row.state ≠ .running ∧ other.state.terminal = true := by
      intro other otherMem
      obtain ⟨otherIn, facts⟩ := finishes other (mem_cons_of_mem _ otherMem)
      refine ⟨?_, facts⟩
      rw [jobs_finish, Table.mem_delete, decide_eq_false_iff_not]
      exact ⟨otherIn, fun same => distinct.1 (same ▸ mem_map_of_mem otherMem)⟩
    have rest := ih (due ++ [finished]) distinct.2 remaining
    rw [append_assoc, singleton_append] at rest
    exact .head (.finish x finished pre due mem idle terminal) rest

theorem jobDiscardExpired_performs (x : W) (limit : Int) (pre : Store) :
    Within (Performs rules x.engine) (x.jobDiscardExpired limit) pre := by
  intro reply post discarded _
  simp only [W.jobDiscardExpired, yields_describing, yields_bind, yields_get, yields_modify,
    W.yields_tailCascaded, yields_pure] at discarded
  obtain ⟨_, store, ⟨rfl, rfl⟩, _, _, rfl, _, _, ⟨all, drawn, _⟩, _, rfl⟩ := discarded
  refine .tail (finishAll_acts _ [] ?_ fun finished mem => ?_) (.tail x rfl _ drawn)
  · rw [map_map]
    have sorted := (perm_insertionSort (fun left right : LiveJob =>
      nullsFirst left.expiresAt right.expiresAt = true) (store.jobs.rows.filter x.expired)).map fun row => row.id
    refine List.Nodup.sublist ((take_sublist _ _).map _) (sorted.nodup_iff.mpr ?_)
    exact store.jobs.distinct.sublist (filter_sublist.map _)
  · obtain ⟨row, taken, rfl⟩ := mem_map.mp mem
    have selected := mem_filter.mp (mem_insertionSort _ |>.mp (mem_of_mem_take taken))
    have waits : row.state.waiting = true := by
      have expired := selected.2
      rw [W.expired, Bool.and_eq_true] at expired
      exact expired.1
    exact ⟨selected.1, JobState.waiting_ne_running waits, rfl⟩

/-! Expired leases. -/

theorem mem_dueJobs {params : JobExpireLeasesParams} (due : row ∈ x.dueJobs pre params) :
    row ∈ pre.jobs ∧ row.state = .running ∧ row.attemptedBy = none := by
  unfold W.dueJobs at due
  split at due
  · obtain ⟨lease, _, found⟩ := mem_filterMap.mp (mem_of_mem_take due)
    obtain ⟨held, runs⟩ := Option.filter_eq_some_iff.mp found
    rw [decide_eq_true_eq] at runs
    exact ⟨Table.mem_of_find? held, runs.1, runs.2.1⟩
  · cases due

private theorem filterMap_ids_sublist {select : LeaseRow → Option LiveJob}
    (same : ∀ lease row, select lease = some row → row.id = lease.id) (leases : List LeaseRow) :
    ((leases.filterMap select).map fun row => row.id).Sublist (leases.map LeaseRow.id) := by
  induction leases with
  | nil => exact List.Sublist.refl _
  | cons lease leases ih =>
    cases found : select lease with
    | none =>
      rw [filterMap_cons_none found]
      exact ih.cons _
    | some row =>
      rw [filterMap_cons_some found, map_cons, map_cons, same lease row found]
      exact ih.cons_cons _

theorem dueJobs_distinct (x : W) (params : JobExpireLeasesParams) (store : Store) :
    ((x.dueJobs store params).map fun row => row.id).Nodup := by
  unfold W.dueJobs
  split
  · have sorted := (perm_insertionSort (fun left right : LeaseRow => left.expiresAt ≤ right.expiresAt)
      (store.leases.rows.filter (x.leaseDue store params.grace))).map LeaseRow.id
    refine List.Nodup.sublist ((take_sublist _ _).map _)
      (List.Nodup.sublist (filterMap_ids_sublist (fun lease row found => ?_) _) (sorted.nodup_iff.mpr ?_))
    · exact Table.key_of_find? (Option.filter_eq_some_iff.mp found).1
    · exact store.leases.distinct.sublist (filter_sublist.map _)
  · exact nodup_nil

theorem leased_released (unowned : row.attemptedBy = none) : Released row pre.leases (W.endClaim row true pre).leases := by
  intro lease
  simp [W.endClaim, Store.releaseLease, unowned]

theorem leaseRetried_resumed (unowned : row.attemptedBy = none) (resumes : rules.resumes row (x.leaseRetried row)) :
    Resumed rules row (x.leaseRetried row) where
  toKept := ⟨rfl, rfl, rfl, rfl, rfl, rfl, rfl, rfl⟩
  fence := rfl
  owner := unowned
  waits := rfl
  mark := rfl
  resumes := resumes

theorem expireLease_others {other : LiveJob} (mem : other ∈ expiring.store.jobs) (different : other.id ≠ row.id) :
    other ∈ (x.expireLease expiring row).store.jobs := by
  unfold W.expireLease
  dsimp only
  split
  · exact W.mem_updateJob.mpr (.inl ⟨mem, different⟩)
  · rw [jobs_finish, Table.mem_delete, decide_eq_false_iff_not]
    exact ⟨mem, different⟩

theorem expireLease_acts (mem : row ∈ expiring.store.jobs) (running : row.state = .running) (unowned : row.attemptedBy = none)
    (resumes : row.attempt < row.maxAttempts → rules.resumes row (x.leaseRetried row)) :
    Act rules engine ⟨expiring.store, expiring.finished⟩
      ⟨(x.expireLease expiring row).store, (x.expireLease expiring row).finished⟩ := by
  unfold W.expireLease
  dsimp only
  split
  · next retries =>
    exact .quiet _ (.resume mem rfl running (leaseRetried_resumed unowned (resumes retries.1)) (leased_released unowned))
  · refine .conclude x (x.leaseFinished row) true _ _ mem running ?_ (leased_released unowned)
    simp only [W.leaseFinished]
    split <;> rfl

theorem expireLeases_acts (rows : List LiveJob) (distinct : (rows.map fun row => row.id).Nodup)
    (runs : ∀ row ∈ rows, row.state = .running ∧ row.attemptedBy = none ∧
      (row.attempt < row.maxAttempts → rules.resumes row (x.leaseRetried row)))
    (members : ∀ row ∈ rows, row ∈ expiring.store.jobs) : Acts rules engine ⟨expiring.store, expiring.finished⟩
      ⟨(rows.foldl x.expireLease expiring).store, (rows.foldl x.expireLease expiring).finished⟩ := by
  induction rows generalizing expiring with
  | nil => exact .refl
  | cons row rows ih =>
    rw [map_cons, nodup_cons] at distinct
    obtain ⟨running, unowned, resumes⟩ := runs row mem_cons_self
    have remaining : ∀ other ∈ rows, other ∈ (x.expireLease expiring row).store.jobs :=
      fun other otherMem => expireLease_others (members other (mem_cons_of_mem _ otherMem))
        fun same => distinct.1 (same ▸ mem_map_of_mem otherMem)
    exact .head (expireLease_acts (members row mem_cons_self) running unowned resumes)
      (ih distinct.2 (fun other otherMem => runs other (mem_cons_of_mem _ otherMem)) remaining)

theorem jobExpireLeases_performs {params : JobExpireLeasesParams}
    (resumes : ∀ row ∈ pre.jobs, row.attempt < row.maxAttempts → rules.resumes row (x.leaseRetried row)) :
    Within (Performs rules x.engine) (x.jobExpireLeases params) pre := by
  intro reply post expired _
  simp only [W.jobExpireLeases, yields_describing, yields_bind, yields_get, yields_set,
    W.yields_tailCascaded, yields_pure] at expired
  obtain ⟨_, store, ⟨rfl, rfl⟩, _, _, rfl, _, _, ⟨all, drawn, _⟩, _, rfl⟩ := expired
  have members : ∀ row ∈ x.dueJobs store params, row ∈ (W.Expiring.mk store [] []).store.jobs :=
    fun row due => (mem_dueJobs due).1
  refine .tail (expireLeases_acts (x.dueJobs store params) (dueJobs_distinct x params store)
    (fun row due => ?_) members) (.tail x rfl _ drawn)
  obtain ⟨mem, running, unowned⟩ := mem_dueJobs due
  exact ⟨running, unowned, resumes row mem⟩

end

end Hopper.Lifecycle
