import Hopper.Lifecycle.Journal

/-! Fencing: claims of a job never share a fence, and what a claim writes
counts only while it is the one the job runs in. -/

namespace Hopper.Guarantees

open List Kernel Driver Sqlite Lifecycle

section
variable {engine : Engine} {store : Store} {row : LiveJob} {result : JobFinalize} {params : JobFinalizeParams}
variable {now : Int} {post : Store} {reply : List JobFinalized}

def RunsUnder (store : Store) (lease : LeaseFence) (row : LiveJob) : Prop :=
  row.attemptedBy = none ∧ row.fence = lease.fence ∧
    ∃ held ∈ store.leases, held.id = row.id ∧ held.token = lease.token ∧ held.fence = lease.fence

/-- The row is a running job in the claim a result names, by its client and
fence or by its lease. -/
def RunsIn (store : Store) (result : JobFinalize) (row : LiveJob) : Prop :=
  row ∈ store.jobs ∧ row.id = result.id ∧ row.state = .running ∧
    match result.lease with
    | some lease => RunsUnder store lease row
    | none => row.attemptedBy = some result.attemptedBy ∧ row.fence = result.fence

/-- The row is a running job in the claim and attempt a progress write names. -/
def ProgressesIn (store : Store) (params : JobRecordProgressParams) (row : LiveJob) : Prop :=
  row ∈ store.jobs ∧ row.id = params.id ∧ row.state = .running ∧
    match params.lease with
    | some lease => RunsUnder store lease row
    | none => row.attemptedBy = some params.attemptedBy ∧ row.fence = params.fence ∧
        row.attempt = params.attempt

theorem unowned_iff (sound : Sound engine store) (mem : row ∈ store.jobs)
    (running : row.state = .running) : row.attemptedBy.getD 0 = 0 ↔ row.attemptedBy = none := by
  cases owner : row.attemptedBy with
  | none => simp
  | some client =>
    have positive := sound.owned.positive row mem running client owner
    simp only [Option.getD_some, reduceCtorEq, iff_false]
    omega

theorem owns_iff (sound : Sound engine store) (found : store.jobs.find? result.id = some row) :
    store.owns row (encodeResult result).toJobFinalize = true ↔ RunsIn store result row := by
  have mem : row ∈ store.jobs := Table.mem_of_find? found
  have keyed : row.id = result.id := Table.key_of_find? found
  unfold Store.owns RunsIn RunsUnder
  cases leased : result.lease with
  | some =>
    simp only [encodeResult, leased, Store.leaseOwns, Bool.and_eq_true, decide_eq_true_eq, any_eq_true, mem, keyed, true_and]
    constructor
    · rintro ⟨⟨⟨running, unowned⟩, fence⟩, held, heldMem, facts⟩
      exact ⟨running, (unowned_iff sound mem running).mp unowned, fence, held, heldMem, facts⟩
    · rintro ⟨running, unowned, fence, held, heldMem, facts⟩
      exact ⟨⟨⟨running, (unowned_iff sound mem running).mpr unowned⟩, fence⟩, held, heldMem, facts⟩
  | none =>
    simp only [encodeResult, leased, Bool.and_eq_true, decide_eq_true_eq, mem, keyed, true_and]
    constructor
    · rintro ⟨⟨⟨running, owned⟩, client⟩, fence⟩
      refine ⟨running, ?_, fence⟩
      cases owner : row.attemptedBy with
      | none => exact absurd (by rw [owner, Option.getD_none]) owned
      | some =>
        rw [owner, Option.getD_some] at client
        rw [client]
    · rintro ⟨running, owner, fence⟩
      have owned : ¬row.attemptedBy.getD 0 = 0 := by
        rw [unowned_iff sound mem running, owner]
        simp
      exact ⟨⟨⟨running, owned⟩, by rw [owner]; rfl⟩, fence⟩

/-- What a finalize has reported of the results it was given so far. -/
structure Reports (start : Store) (list : List JobFinalize) (applying : Applying) : Prop where
  running : ∀ row ∈ applying.store.jobs, row.state = .running → row ∈ start.jobs
  leases : ∀ lease ∈ applying.store.leases, lease ∈ start.leases
  endings : applying.store.journal.filterMap ending? =
    (applying.applied.map fun entry => (entry.id, entry.fence)).reverse ++ start.journal.filterMap ending?
  applied : ∀ entry ∈ applying.applied, entry.cascaded = false ∧
    ∃ result ∈ list, ∃ row, RunsIn start result row ∧ entry.id = row.id ∧ entry.fence = row.fence

namespace Reports

variable {start : Store} {list : List JobFinalize} {applying : Applying}
variable {row : LiveJob} {result : JobFinalize}

theorem begin (start : Store) (list : List JobFinalize) : Reports start list { store := start } where
  running := fun _ mem _ => mem
  leases := fun _ mem => mem
  endings := rfl
  applied := forall_mem_nil _

theorem runsUnder_start (reports : Reports start list applying) {lease : LeaseFence}
    (runs : RunsUnder applying.store lease row) : RunsUnder start lease row := by
  obtain ⟨unowned, fence, held, heldMem, facts⟩ := runs
  exact ⟨unowned, fence, held, reports.leases held heldMem, facts⟩

theorem runsIn_start (reports : Reports start list applying)
    (runs : RunsIn applying.store result row) : RunsIn start result row := by
  obtain ⟨mem, keyed, running, claim⟩ := runs
  refine ⟨reports.running row mem running, keyed, running, ?_⟩
  cases leased : result.lease with
  | some =>
    rw [leased] at claim
    exact reports.runsUnder_start claim
  | none =>
    rw [leased] at claim
    exact claim

theorem endClaim_leases {leased : Bool} {lease : LeaseRow} {store : Store}
    (mem : lease ∈ (W.endClaim row leased store).leases) : lease ∈ store.leases := by
  cases leased with
  | true => exact (Table.mem_delete.mp mem).1
  | false => exact mem

private theorem endings_step (reports : Reports start list applying) (row : LiveJob) (entry : JobFinalized)
    (id : entry.id = row.id) (fence : entry.fence = row.fence) {journal : List Event}
    (ends : journal.filterMap ending? = (row.id, row.fence) :: applying.store.journal.filterMap ending?) :
    journal.filterMap ending? = ((applying.applied ++ [entry]).map fun entry => (entry.id, entry.fence)).reverse ++
        start.journal.filterMap ending? := by
  rw [ends, reports.endings, map_append, reverse_append]
  simp [id, fence]

theorem step (reports : Reports start list applying) (sound : Sound engine applying.store) (x : W)
    (keep : Nat) (among : result ∈ list)
    (checked : checkFinalize result = .ok ()) :
    Reports start list (x.applyResult keep applying (encodeResult result)) := by
  unfold W.applyResult
  split
  · exact reports
  · next row found =>
    split
    · next owns =>
      have held : applying.store.jobs.find? result.id = some row := found
      have runs := (owns_iff sound held).mp owns
      have keyed := runs.2.1
      have fence := (owns_fence owns).symm
      have applied : ∀ entry ∈ applying.applied ++ [{ id := result.id, fence := (encodeResult result).fence }], entry.cascaded = false ∧
            ∃ result ∈ list, ∃ row, RunsIn start result row ∧ entry.id = row.id ∧ entry.fence = row.fence :=
        forall_mem_append.mpr ⟨reports.applied,
          forall_mem_singleton.mpr ⟨rfl, result, among, row, reports.runsIn_start runs, keyed.symm, fence⟩⟩
      dsimp only
      split
      · refine ⟨?_, ?_, ?_, applied⟩
        · intro other mem
          rw [jobs_finish] at mem
          exact reports.running other (Table.mem_delete.mp mem).1
        · intro lease mem
          rw [leases_finish] at mem
          exact reports.leases lease (endClaim_leases mem)
        · refine endings_step reports row _ keyed.symm fence ?_
          rw [journal_finish]
          rfl
      · next terminal =>
        have waits := (checkFinalize_state checked).resolve_left terminal
        refine ⟨?_, ?_, endings_step reports row _ keyed.symm fence rfl, applied⟩
        · intro other mem running
          rcases W.mem_updateJob.mp mem with ⟨old, _⟩ | ⟨old, oldMem, _, rfl⟩
          · exact reports.running other old running
          · exact absurd running (JobState.waiting_ne_running waits)
        · exact fun lease mem => reports.leases lease (endClaim_leases mem)
    · exact reports

end Reports

theorem checkResults_eq_ok {results : List Result} : W.checkResults params = .ok results ↔
      results = params.jobs.map encodeResult ∧ (∀ result ∈ params.jobs, checkFinalize result = .ok ()) ∧
        ∃ leased, (leased && params.skipLocked) = false ∧ ∀ result ∈ params.jobs, result.lease.isSome = leased := by
  constructor
  · intro accepted
    obtain ⟨same, checked⟩ := checkResults_ok accepted
    refine ⟨same, checked, params.jobs.head?.any fun result => result.lease.isSome, ?_⟩
    unfold W.checkResults at accepted
    rw [forM_ok_of_forall checked] at accepted
    simp only [bind, Except.bind] at accepted
    split at accepted
    · cases accepted
    · next unlocked =>
      split at accepted
      · cases accepted
      · next alike =>
        refine ⟨by simpa using unlocked, fun result mem => ?_⟩
        by_contra different
        exact alike (any_eq_true.mpr ⟨result, mem, by simpa using different⟩)
  · rintro ⟨rfl, checked, leased, unlocked, alike⟩
    have head : params.jobs = [] ∨ (params.jobs.head?.any fun result => result.lease.isSome) = leased := by
      cases jobs : params.jobs with
      | nil => exact .inl rfl
      | cons first => exact .inr (alike first (by simp [jobs]))
    unfold W.checkResults
    rw [forM_ok_of_forall checked]
    simp only [bind, Except.bind]
    rcases head with none | same
    · simp [none, pure, Except.pure]
    · rw [same, if_neg (by simp [unlocked]), if_neg]
      · rfl
      · simpa using alike

section
variable {start : Store}

theorem applyResult_stale (x : W) (keep : Nat) {list : List JobFinalize} {applying : Applying} (sound : Sound engine applying.store)
    (reports : Reports start list applying) {result : JobFinalize} (stale : ∀ row, ¬RunsIn start result row) :
    x.applyResult keep applying (encodeResult result) = applying := by
  unfold W.applyResult
  split
  · rfl
  · next row found =>
    have held : applying.store.jobs.find? result.id = some row := found
    rw [if_neg]
    exact fun owns => stale row (reports.runsIn_start ((owns_iff sound held).mp owns))

theorem reports_applyResults (x : W) (keep : Int) (sound : Sound x.engine start) (all list : List JobFinalize)
    (among : ∀ result ∈ list, result ∈ all) (checked : ∀ result ∈ list, checkFinalize result = .ok ()) :
    Sound x.engine (x.applyResults keep (list.map encodeResult) start).store ∧
      Reports start all (x.applyResults keep (list.map encodeResult) start) := by
  have applied {applying : Applying}
      (pre : Applied Rules.none x.engine start (all.map encodeResult) applying ∧ Reports start all applying) :
      Applied Rules.none x.engine start (all.map encodeResult)
          ((list.map encodeResult).foldl (x.applyResult (keepLogs keep)) applying) ∧
        Reports start all ((list.map encodeResult).foldl (x.applyResult (keepLogs keep)) applying) := by
    induction list generalizing applying with
    | nil => exact pre
    | cons result list ih =>
      refine ih (fun other mem => among other (mem_cons_of_mem _ mem))
        (fun other mem => checked other (mem_cons_of_mem _ mem)) ⟨?_, ?_⟩
      · exact applyResult_applied sound pre.1 (checked result mem_cons_self)
          (mem_map_of_mem (among result mem_cons_self)) fun _ _ _ _ _ _ => trivial
      · exact pre.2.step (pre.1.acts.moves sound).2 x _ (among result mem_cons_self) (checked result mem_cons_self)
  have both := applied ⟨⟨.refl, fun _ mem _ => mem, forall_mem_nil _⟩, .begin start all⟩
  exact ⟨(both.1.acts.moves sound).2, both.2⟩

end

theorem stale_result_dropped {earlier later : List JobFinalize} (sound : Sound engine store)
    (list : params.jobs = earlier ++ result :: later) (stale : ∀ row, ¬RunsIn store result row)
    (finalized : Yields (W.jobFinalizeMany ⟨engine, now⟩ params) store reply post) :
    Yields (W.jobFinalizeMany ⟨engine, now⟩ { params with jobs := earlier ++ later }) store reply post := by
  rcases W.yields_jobFinalizeMany.mp finalized with ⟨empty, _⟩ | ⟨_, results, accepted, reported⟩
  · simp [list] at empty
  obtain ⟨rfl, checked, leased, unlocked, alike⟩ := checkResults_eq_ok.mp accepted
  have among : ∀ other ∈ earlier ++ later, other ∈ params.jobs := by
    intro other mem
    rw [list]
    rcases List.mem_append.mp mem with first | last
    · exact mem_append_left _ first
    · exact mem_append_right _ (mem_cons_of_mem _ last)
  -- The result finds the store its predecessors left, in which it is as stale as before.
  have same : W.applyResults ⟨engine, now⟩ params.keepLogs (params.jobs.map encodeResult) store =
      W.applyResults ⟨engine, now⟩ params.keepLogs ((earlier ++ later).map encodeResult) store := by
    have reached := reports_applyResults ⟨engine, now⟩ params.keepLogs sound params.jobs earlier
      (fun other mem => among other (mem_append_left _ mem))
      (fun other mem => checked other (among other (mem_append_left _ mem)))
    have passed := applyResult_stale ⟨engine, now⟩ (keepLogs params.keepLogs) reached.1 reached.2 stale
    rw [W.applyResults] at passed
    rw [W.applyResults, W.applyResults, list, map_append, map_append, map_cons,
      foldl_append, foldl_append, foldl_cons, passed]
  rw [same] at reported
  refine W.yields_jobFinalizeMany.mpr ?_
  by_cases empty : earlier ++ later = []
  · refine .inl ⟨empty, ?_⟩
    rw [empty] at reported
    rcases W.yields_reportResults.mp reported with ⟨_, rfl, rfl⟩ | ⟨_, all, drawn, rfl⟩
    · exact ⟨rfl, rfl⟩
    · simp only [W.applyResults, map_nil, foldl_nil, W.tail, if_true, yields_pure] at drawn
      obtain ⟨rfl, rfl⟩ := drawn
      exact ⟨rfl, rfl⟩
  · refine .inr ⟨empty, _, checkResults_eq_ok.mpr ⟨rfl, ?_, leased, unlocked, ?_⟩, reported⟩
    · exact fun other mem => checked other (among other mem)
    · exact fun other mem => alike other (among other mem)

theorem applied_entries {applied : List JobFinalized} (cascaded : List JobID) (plain : ∀ entry ∈ applied, entry.cascaded = false) :
    (applied ++ cascaded.map fun id => ({ id := id, cascaded := true } : JobFinalized)).filter
      (fun entry => !entry.cascaded) = applied := by
  have none : (cascaded.map fun id => ({ id := id, cascaded := true } : JobFinalized)).filter (fun entry => !entry.cascaded) = [] := by
    simp [filter_map]
  rw [filter_append, none, append_nil, filter_eq_self]
  exact fun entry mem => by rw [plain entry mem]; rfl

theorem finalize_reports
    (sound : Sound engine store)
    (finalized : Yields (W.jobFinalizeMany ⟨engine, now⟩ params) store reply post) :
    post.journal.filterMap ending? = ((reply.filter fun entry => !entry.cascaded).map fun entry => (entry.id, entry.fence)).reverse ++
          store.journal.filterMap ending? ∧
      ∀ entry ∈ reply, entry.cascaded = false →
        ∃ result ∈ params.jobs, ∃ row, RunsIn store result row ∧ entry.id = row.id ∧ entry.fence = row.fence := by
  rcases W.yields_jobFinalizeMany.mp finalized with ⟨_, rfl, rfl⟩ | ⟨_, results, accepted, reported⟩
  · exact ⟨rfl, forall_mem_nil _⟩
  obtain ⟨rfl, checked⟩ := checkResults_ok accepted
  have reports := (reports_applyResults ⟨engine, now⟩ params.keepLogs sound params.jobs params.jobs (fun _ mem => mem) checked).2
  have plain := fun entry mem => (reports.applied entry mem).1
  rcases W.yields_reportResults.mp reported with ⟨_, rfl, rfl⟩ | ⟨_, all, drawn, rfl⟩
  · refine ⟨?_, fun entry mem _ => (reports.applied entry mem).2⟩
    have same := applied_entries [] plain
    rw [map_nil, append_nil] at same
    rw [same, reports.endings]
  · refine ⟨?_, fun entry mem direct => ?_⟩
    · rw [applied_entries _ plain, (tail_logs _ _ _ _ _ drawn).filterMap_eq, ← reports.endings]
      intro event is
      cases event <;> first | rfl | cases is
    · rcases List.mem_append.mp mem with applied | cascaded
      · exact (reports.applied entry applied).2
      · obtain ⟨id, _, rfl⟩ := mem_map.mp cascaded
        cases direct

theorem stale_progress_dropped {params : JobRecordProgressParams} (stale : ∀ row, ¬ProgressesIn store params row) :
    Operation.apply engine now (.jobRecordProgress params) store = store := by
  have none : (store.jobs.find? params.id).filter (W.ownsProgress store params) = none := by
    rw [Option.filter_eq_none_iff]
    intro row found owns
    refine stale row ⟨Table.mem_of_find? found, Table.key_of_find? found, ?_⟩
    unfold W.ownsProgress at owns
    unfold RunsUnder
    cases leased : params.lease with
    | some =>
      simp only [leased, Bool.and_eq_true, decide_eq_true_eq, any_eq_true] at owns
      obtain ⟨⟨running, unowned, fence⟩, held, heldMem, facts⟩ := owns
      exact ⟨running, unowned, fence, held, heldMem, facts⟩
    | none =>
      simp only [leased, decide_eq_true_eq] at owns
      exact owns
  have unchanged : Yields (W.jobRecordProgress ⟨engine, now⟩ params) store Option.none store := by
    rw [W.jobRecordProgress, yields_get_bind]
    simp [none]
  exact Yields.committed_eq (yields_map.mpr ⟨_, unchanged, rfl⟩)

/-- Fencing. Whatever operations ran, no two claims share a job and a fence,
and a claim ends at most once. A finalize ends just the claims it reports,
each named by one of its results and the one its job runs in; its other
results, and a progress write of another claim, change nothing. -/
theorem claims_fenced (reachable : Reachable engine (fun _ operation => operation.PositiveClient) store) :
    (store.journal.filterMap claim?).Nodup ∧ (store.journal.filterMap ending?).Nodup ∧
      (∀ ending ∈ store.journal.filterMap ending?, ending ∈ store.journal.filterMap claim?) ∧
      (∀ now params reply after, Yields (W.jobFinalizeMany ⟨engine, now⟩ params) store reply after → after.journal.filterMap ending? =
            ((reply.filter fun entry => !entry.cascaded).map fun entry => (entry.id, entry.fence)).reverse ++
              store.journal.filterMap ending? ∧
          ∀ entry ∈ reply, entry.cascaded = false →
            ∃ result ∈ params.jobs, ∃ row, RunsIn store result row ∧ entry.id = row.id ∧ entry.fence = row.fence) ∧
      (∀ now (params : JobFinalizeParams) earlier result later reply after,
        params.jobs = earlier ++ result :: later → (∀ row, ¬RunsIn store result row) →
        Yields (W.jobFinalizeMany ⟨engine, now⟩ params) store reply after →
        Yields (W.jobFinalizeMany ⟨engine, now⟩ { params with jobs := earlier ++ later }) store reply after) ∧
      ∀ now params, (∀ row, ¬ProgressesIn store params row) → Operation.apply engine now (.jobRecordProgress params) store = store := by
  have reached := positive_reached reachable
  have fenced := reached.orderly.fenced
  refine ⟨fenced.claims_distinct, fenced.endings_distinct, ?_, ?_, ?_, ?_⟩
  · exact fun ending member => fenced.ended_claimed ending.1 ending.2 member
  · exact fun now params reply after finalized => finalize_reports reached.sound finalized
  · exact fun now params earlier result later reply after list stale finalized =>
      stale_result_dropped reached.sound list stale finalized
  · exact fun now params stale => stale_progress_dropped stale

/-- A job inserted, claimed, retried by its result and claimed again. -/
def claimedTwice : List (Int × Operation) :=
  [(30, .jobClaim { queue := "default", clientID := 1, limit := 5 }),
   (20, .jobFinalizeMany { jobs := [{ id := 1, attemptedBy := 1, fence := 1, state := .retryable }] }),
   (10, .jobClaim { queue := "default", clientID := 1, limit := 5 }),
   (0, .jobInsertMany [{ kind := "mail", queue := "default", priority := 2, maxAttempts := 3 }] {})]

theorem claims_fenced_twice : (Operation.after .counting claimedTwice).journal.filterMap claim? = [(1, 2), (1, 1)] ∧
      ((Operation.after .counting claimedTwice).journal.filterMap claim?).Nodup := by
  refine ⟨by decide +kernel, (claims_fenced (Operation.AllAllowed.reachable ?_)).1⟩
  exact ⟨Int.zero_lt_one, trivial, Int.zero_lt_one, trivial, trivial⟩

end

end Hopper.Guarantees
