import Hopper.Sqlite.Control

/-! Job leases. A job claimed by ID runs with no owning client, and a row of
`hopper_job_leases` owns it: the token of its claim, the claim's fence and the
lease's expiry. -/

namespace Hopper.Sqlite

open Kernel Driver

namespace W

def queuePaused (store : Store) (queue : String) : Bool :=
  (store.queues.find? queue).any fun row => row.pausedAt.isSome

/-- The failures of a claim of a live job by ID, the first that applies. -/
def refuseClaimByID (x : W) (store : Store) (params : JobClaimByIDParams) (row : LiveJob) :
    Except Failure Unit :=
  if row.fence ≠ params.fence then
    .error (.jobFencedBy ("its fence is " ++ toString row.fence ++ ", not " ++ toString params.fence))
  else if row.state = .running then
    .error .jobRunning
  else if row.state = .pending then
    .error (.jobNotClaimable "it is pending")
  else if !Store.notExpired x.now row then
    .error (.jobNotClaimable "its TTL has passed")
  else if queuePaused store row.queue then
    .error (.jobNotClaimable ("queue \"" ++ row.queue ++ "\" is paused"))
  else if !store.orderingAllows row then
    .error (.jobNotClaimable "its ordering key holds it back")
  else
    .ok ()

variable {store : Store} {params : JobClaimByIDParams}

theorem refuseClaimByID_ok {x : W} {row : LiveJob}
    (accepted : x.refuseClaimByID store params row = .ok ()) :
    row.fence = params.fence ∧ row.state ≠ .running ∧ row.state ≠ .pending ∧
      Store.notExpired x.now row = true ∧ store.orderingAllows row = true := by
  unfold refuseClaimByID at accepted
  split at accepted
  · cases accepted
  · next fence =>
    split at accepted
    · cases accepted
    · next idle =>
      split at accepted
      · cases accepted
      · next released =>
        split at accepted
        · cases accepted
        · next fresh =>
          split at accepted
          · cases accepted
          · split at accepted
            · cases accepted
            · next allowed => exact ⟨by simpa using fence, idle, released, by simpa using fresh, by simpa using allowed⟩

def claimableByID (x : W) (store : Store) (params : JobClaimByIDParams) : Except Failure LiveJob := do
  match store.jobs.find? params.id with
  | none =>
    if store.history.any fun row => decide (row.id = params.id) then
      throw (.jobNotClaimable "it has finished")
    else
      throw .notFound
  | some row => do
      x.refuseClaimByID store params row
      pure row

/-- The lease row of a claim by ID, put in place of any the job had. -/
def upsertLease (lease : LeaseRow) (store : Store) : Store :=
  { store with
    leases := store.leases.upsert lease
      (fun row => { lease with id := row.id })
      fun _ => rfl
    drawn := store.drawn + 1 }

theorem mem_upsertLease {lease other : LeaseRow} : other ∈ (upsertLease lease store).leases ↔
      other = lease ∨ (other ∈ store.leases ∧ other.id ≠ lease.id) := by
  have same : ∀ row : LeaseRow, Keyed.key { lease with id := row.id } = Keyed.key row := fun _ => rfl
  refine (Table.mem_upsert same).trans ⟨?_, ?_⟩
  · rintro (kept | ⟨old, oldMem, keyed, rfl⟩ | ⟨_, rfl⟩)
    · exact .inr kept
    · have sameID : old.id = lease.id := keyed
      rw [sameID]
      exact .inl rfl
    · exact .inl rfl
  · rintro (rfl | kept)
    · by_cases held : ∃ old ∈ store.leases, old.id = other.id
      · obtain ⟨old, oldMem, keyed⟩ := held
        exact .inr (.inl ⟨old, oldMem, keyed, by rw [keyed]⟩)
      · exact .inr (.inr ⟨fun old oldMem keyed => held ⟨old, oldMem, keyed⟩, rfl⟩)
    · exact .inl kept

def jobClaimByID (x : W) (params : JobClaimByIDParams) : Tx JobLeaseRow := do
  if params.ttl < 1000 then
    throw (.refused "hopper: claim job by ID: the lease TTL must be at least a microsecond")
  else
    describing (.inOperationUnless [.notFound, .jobRunning, .jobFenced, .jobNotClaimable]
        "hopper: claim job by ID: ") do
      let store ← get
      let row ← ensure (x.claimableByID store params)
      x.startRows none fun row => decide (row.id = params.id) && row.state.waiting
      let after ← get
      let lease : LeaseRow :=
        { id := params.id, token := x.engine.token after.drawn, fence := row.fence + 1,
          ttl := params.ttl / 1000, renewedAt := x.now, expiresAt := x.after params.ttl }
      set (upsertLease lease after)
      pure { job := readClaimed after (x.started none row),
             lease := { token := lease.token, fence := lease.fence }, expiresAt := lease.expiresAt }

theorem yields_jobClaimByID {x : W} {pre post : Store} {reply : JobLeaseRow}
    (claimed : Yields (x.jobClaimByID params) pre reply post) :
    let started := x.startedStore none (fun row => decide (row.id = params.id) && row.state.waiting) pre
    ∃ row, x.claimableByID pre params = .ok row ∧ reply.job = readClaimed started (x.started none row) ∧
      ∃ lease, lease.id = params.id ∧ lease.fence = row.fence + 1 ∧ post = upsertLease lease started := by
  unfold jobClaimByID at claimed
  split at claimed
  · simp at claimed
  · simp only [yields_describing, yields_bind, yields_get, yields_ensure, yields_set, yields_pure] at claimed
    obtain ⟨_, _, ⟨rfl, rfl⟩, row, _, ⟨accepted, rfl⟩, _, _, started, _, _, ⟨rfl, rfl⟩, _, _, rfl, rfl, rfl⟩ := claimed
    rw [yields_startRows started]
    exact ⟨row, accepted, rfl, _, rfl, rfl, rfl⟩

def leaseRuns (store : Store) (id : JobID) (lease : LeaseFence) : Bool :=
  (store.jobs.find? id).any fun row =>
    ownsProgress store { id := id, lease := some lease } row

def jobLeaseRenew (x : W) (params : JobLeaseRenewParams) : Tx JobLeaseStatus := do
  let store ← get
  match store.leases.find? params.id with
  | none => throw .jobFenced
  | some held =>
    if held.token = params.lease.token ∧ held.fence = params.lease.fence ∧
        leaseRuns store params.id params.lease then do
      set { store with
        leases := store.leases.modify params.id
          (fun row => { row with renewedAt := x.now, expiresAt := x.now + row.ttl })
          fun _ => rfl }
      pure { expiresAt := x.now + held.ttl,
             cancelRequested := (store.jobs.find? params.id).any fun row => row.cancelRequestedAt.isSome }
    else
      throw .jobFenced

/-- The first start, after a lease was last renewed and not later than now, of
a client whose own lease is live. -/
def firstStart (x : W) (store : Store) (lease : LeaseRow) : Option Int :=
  ((store.clients.rows.filter fun client =>
    decide (lease.renewedAt < client.startedAt ∧ client.startedAt ≤ x.now ∧
      x.now < client.expiresAt)).map ClientRow.startedAt).min?

/-- Whether a lease is due, with the grace a client's start gives it. -/
def leaseDue (x : W) (store : Store) (grace : Int) (lease : LeaseRow) : Bool :=
  decide (lease.expiresAt ≤ x.now) &&
    decide (((x.firstStart store lease).map fun start =>
      start + max lease.ttl (max grace 0 / 1000)).getD lease.expiresAt ≤ x.now)

/-- The jobs whose leases are due, by the expiry of their leases. -/
def dueJobs (x : W) (store : Store) (params : JobExpireLeasesParams) : List LiveJob :=
  if x.clientLive store (some params.clientID) then
    (((store.leases.rows.filter (x.leaseDue store params.grace)).insertionSort
      fun left right => left.expiresAt ≤ right.expiresAt).filterMap fun lease =>
        (store.jobs.find? lease.id).filter fun row =>
          decide (row.state = .running ∧ row.attemptedBy = none ∧ row.fence = lease.fence)).take
            (max params.limit 1).toNat
  else
    []

def leaseErrors (x : W) (row : LiveJob) : List AttemptError :=
  withErrorAt row.errors
    { attempt := row.attempt, fence := row.fence, error := "hopper: job lease expired",
      rescue := some .leaseExpired } x.now

def leaseRetried (x : W) (row : LiveJob) : LiveJob :=
  { row with
    state := .retryable, scheduledAt := x.now, errors := x.leaseErrors row, wakeRequestedAt := none }

/-- A job whose lease expired on its last attempt, or with a cancel asked for. -/
def leaseFinished (x : W) (row : LiveJob) : Finished :=
  { row := row
    state := if row.cancelRequestedAt.isSome then .canceled else .discarded
    errors := x.leaseErrors row, logs := row.logs, archive := true }

/-- Lease expiries being applied: the store, what finished, and the jobs as
they are afterwards. -/
structure Expiring where
  store : Store
  finished : List Finished := []
  jobs : List JobRow := []

def expireLease (x : W) (expiring : Expiring) (row : LiveJob) : Expiring :=
  let ended := endClaim row true expiring.store
  if row.attempt < row.maxAttempts ∧ row.cancelRequestedAt = none then
    { expiring with
      store := updateJob row.id x.leaseRetried (fun _ => rfl) ended
      jobs := expiring.jobs ++ [scanJob (x.leaseRetried row)] }
  else
    let finished := x.leaseFinished row
    { store := x.finish finished ended
      finished := expiring.finished ++ [finished]
      jobs := expiring.jobs ++ [finished.jobRow x.now] }

def jobExpireLeases (x : W) (params : JobExpireLeasesParams) : Tx (List JobRow × List JobID) :=
  describing (.inOperation "hopper: expire job leases: ") do
    let store ← get
    let expiring := (x.dueJobs store params).foldl x.expireLease { store := store }
    set expiring.store
    let cascaded ← x.tailCascaded expiring.finished
    pure (expiring.jobs, cascaded)

end W

end Hopper.Sqlite
