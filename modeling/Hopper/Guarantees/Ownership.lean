import Hopper.Lifecycle.Runs
import Mathlib.Order.Bounds.Basic

/-! Every running job has one owner, a client or its lease, and the two looks
for jobs whose owner is gone find each of them once. -/

namespace Hopper.Guarantees

open List Kernel Driver Sqlite Lifecycle

section
variable {engine : Engine} {store : Store}
variable {x : W} {row : LiveJob} {lease : LeaseRow}

def ClientGone (now : Int) (store : Store) (row : LiveJob) : Prop :=
  ∃ client, row.attemptedBy = some client ∧
    ∀ registered ∈ store.clients, registered.id = client → registered.expiresAt ≤ now

/-- The starts that put off the expiry of a lease: those of live clients since
it was last renewed. -/
def Starts (now : Int) (store : Store) (lease : LeaseRow) : Set Int :=
  { start | ∃ client ∈ store.clients, client.startedAt = start ∧ lease.renewedAt < start ∧ start ≤ now ∧
    now < client.expiresAt }

/-- A lease is due at its expiry, or at the first start of a live client since
its renewal plus the larger of its TTL and the grace, if that is later. -/
def LeaseDue (now grace : Int) (store : Store) (lease : LeaseRow) : Prop :=
  lease.expiresAt ≤ now ∧
    ∀ start, IsLeast (Starts now store lease) start → start + max lease.ttl (max grace 0 / 1000) ≤ now

def LeaseGone (now grace : Int) (store : Store) (row : LiveJob) : Prop :=
  row.attemptedBy = none ∧ ∃ lease ∈ store.leases, lease.id = row.id ∧ LeaseDue now grace store lease

def Rescued (x : W) (params : JobRescueParams) (store : Store) (row : LiveJob) : Prop :=
  ∃ candidate ∈ x.jobRescueCandidates params store, candidate.job.id = row.id

theorem firstStart_eq_some {start : Int} :
    x.firstStart store lease = some start ↔ IsLeast (Starts x.now store lease) start := by
  have mem {value : Int} : value ∈ (store.clients.rows.filter fun client =>
      decide (lease.renewedAt < client.startedAt ∧ client.startedAt ≤ x.now ∧
        x.now < client.expiresAt)).map ClientRow.startedAt ↔ value ∈ Starts x.now store lease := by
    simp only [mem_map, mem_filter, decide_eq_true_eq, Starts, Set.mem_ofPred_eq]
    constructor
    · rintro ⟨client, ⟨member, facts⟩, rfl⟩
      exact ⟨client, member, rfl, facts⟩
    · rintro ⟨client, member, rfl, facts⟩
      exact ⟨client, ⟨member, facts⟩, rfl⟩
  unfold W.firstStart
  rw [min?_eq_some_iff, mem]
  exact and_congr_right fun _ => forall_congr' fun other => imp_congr_left mem

theorem leaseDue_iff {grace : Int} : x.leaseDue store grace lease = true ↔ LeaseDue x.now grace store lease := by
  unfold W.leaseDue LeaseDue
  rw [Bool.and_eq_true, decide_eq_true_eq, decide_eq_true_eq]
  refine and_congr_right fun expired => ?_
  cases first : x.firstStart store lease with
  | none =>
    simp only [Option.map_none, Option.getD_none, expired, true_iff]
    intro start least
    rw [firstStart_eq_some.mpr least] at first
    cases first
  | some start =>
    have least := firstStart_eq_some.mp first
    simp only [Option.map_some, Option.getD_some]
    exact ⟨fun due other otherLeast => otherLeast.unique least ▸ due, fun due => due start least⟩

theorem limited_eq {Row : Type} {limit : Int} {rows : List Row} (large : (rows.length : Int) ≤ limit) : limited limit rows = rows := by
  unfold limited
  split
  · rfl
  · exact take_of_length_le (by omega)

theorem rescued_of_clientGone {params : JobRescueParams} (large : (store.jobs.rows.length : Int) ≤ params.limit)
    (mem : row ∈ store.jobs) (running : row.state = .running) (gone : ClientGone x.now store row) :
    Rescued x params store row := by
  obtain ⟨client, owner, expired⟩ := gone
  have unleased : x.clientLive store row.attemptedBy = false := by
    rw [W.clientLive, any_eq_false]
    intro registered registeredMember live
    rw [decide_eq_true_eq, owner, Option.some.injEq] at live
    have := expired registered registeredMember live.1
    omega
  refine ⟨{ job := scanJob row, stuck := x.stuck params row }, ?_, rfl⟩
  unfold W.jobRescueCandidates
  rw [limited_eq]
  · refine mem_map.mpr ⟨row, (mem_insertionSort _).mpr (mem_filter.mpr ⟨mem, ?_⟩), rfl⟩
    rw [owner] at unleased
    simp [running, owner, unleased]
  · rw [length_map, length_insertionSort]
    exact (Int.ofNat_le.mpr (length_filter_le _ _)).trans large

theorem due_of_leaseGone {params : JobExpireLeasesParams} (owned : Owned (roster store))
    (live : x.clientLive store (some params.clientID) = true)
    (large : (store.leases.rows.length : Int) ≤ params.limit) (mem : row ∈ store.jobs)
    (gone : LeaseGone x.now params.grace store row) : row ∈ x.dueJobs store params := by
  obtain ⟨unowned, lease, leaseMem, keyed, due⟩ := gone
  obtain ⟨owner, ownerMember, ownerKeyed, running, _, fence⟩ := owned.owning lease leaseMem
  have same : owner = row := Table.eq_of_key ownerMember mem (ownerKeyed.trans keyed)
  subst same
  unfold W.dueJobs
  rw [if_pos live, take_of_length_le]
  · refine mem_filterMap.mpr ⟨lease, (mem_insertionSort _).mpr (mem_filter.mpr ⟨leaseMem, leaseDue_iff.mpr due⟩), ?_⟩
    have found := Table.find?_eq_some.mpr ⟨mem, keyed.symm⟩
    rw [found, Option.filter_some, if_pos]
    exact decide_eq_true ⟨running, unowned, fence⟩
  · have bound := (length_filterMap_le (fun lease : LeaseRow =>
      (store.jobs.find? lease.id).filter fun row =>
        decide (row.state = .running ∧ row.attemptedBy = none ∧ row.fence = lease.fence))
      ((store.leases.rows.filter (x.leaseDue store params.grace)).insertionSort fun left right => left.expiresAt ≤ right.expiresAt))
    rw [length_insertionSort] at bound
    have filtered := length_filter_le (x.leaseDue store params.grace) store.leases.rows
    omega

theorem not_rescued_and_due {rescue : JobRescueParams} {expire : JobExpireLeasesParams}
    (rescued : Rescued x rescue store row) (due : row ∈ x.dueJobs store expire) : False := by
  obtain ⟨mem, _, unowned⟩ := mem_dueJobs due
  obtain ⟨candidate, listed, keyed⟩ := rescued
  obtain ⟨other, otherMem, _, owned, read⟩ := W.mem_jobRescueCandidates listed
  rw [read] at keyed
  rw [Table.eq_of_key otherMem mem keyed, unowned] at owned
  cases owned

/-- Whatever operations ran, a running job is owned by a client or by one lease
of its current fence, and a lease owns a running job. A job whose owner is
gone is found by the look for jobs to rescue or among the leases that are
due, and no job by both. -/
theorem running_jobs_owned (reachable : Reachable engine (fun _ operation => operation.PositiveClient) store) :
    (∀ row ∈ store.jobs, row.state = .running ∧ row.attemptedBy = none ↔
      ∃ lease ∈ store.leases, lease.id = row.id ∧ lease.fence = row.fence) ∧
      (∀ row ∈ store.jobs, row.state = .running → row.attemptedBy ≠ none → ∃ client, 0 < client ∧ row.attemptedBy = some client) ∧
      (∀ lease ∈ store.leases, ∃ row ∈ store.jobs, row.id = lease.id ∧ row.state = .running) ∧
      (∀ now (rescue : JobRescueParams) (expire : JobExpireLeasesParams),
        (store.jobs.rows.length : Int) ≤ rescue.limit → (store.leases.rows.length : Int) ≤ expire.limit →
        (∃ client ∈ store.clients, client.id = expire.clientID ∧ now < client.expiresAt) →
        ∀ row ∈ store.jobs, row.state = .running → ClientGone now store row ∨ LeaseGone now expire.grace store row →
          Rescued ⟨engine, now⟩ rescue store row ∨ row ∈ W.dueJobs ⟨engine, now⟩ store expire) ∧
      ∀ now rescue expire row, ¬(Rescued ⟨engine, now⟩ rescue store row ∧ row ∈ W.dueJobs ⟨engine, now⟩ store expire) := by
  have owned := (positive_reached reachable).sound.owned
  refine ⟨fun row member => ⟨?_, ?_⟩, ?_, ?_, ?_, ?_⟩
  · exact fun runs => owned.leased row member runs.1 runs.2
  · rintro ⟨lease, leaseMember, keyed, _⟩
    obtain ⟨owner, ownerMember, ownerKeyed, running, unowned, _⟩ := owned.owning lease leaseMember
    rw [Table.eq_of_key member ownerMember (keyed.symm.trans ownerKeyed.symm)]
    exact ⟨running, unowned⟩
  · intro row member running held
    obtain ⟨client, owner⟩ := Option.ne_none_iff_exists'.mp held
    exact ⟨client, owned.positive row member running client owner, owner⟩
  · intro lease member
    obtain ⟨owner, ownerMember, keyed, running, _⟩ := owned.owning lease member
    exact ⟨owner, ownerMember, keyed, running⟩
  · rintro now rescue expire rescueLarge expireLarge ⟨client, clientMember, keyed, live⟩ row member running gone
    rcases gone with clientGone | leaseGone
    · exact .inl (rescued_of_clientGone rescueLarge member running clientGone)
    · refine .inr (due_of_leaseGone owned ?_ expireLarge member leaseGone)
      rw [W.clientLive, any_eq_true]
      exact ⟨client, clientMember, decide_eq_true ⟨congrArg some keyed, live⟩⟩
  · exact fun now rescue expire row both => not_rescued_and_due both.1 both.2

/-- A job claimed by its ID, and another by a client that is not registered. -/
def claimedBothWays : List (Int × Operation) :=
  [(30, .jobClaimByID { id := 2, fence := 0, ttl := 5000 }),
   (20, .jobClaim { queue := "default", clientID := 9, limit := 1 }),
   (10, .clientRegister 1000000),
   (0, .jobInsertMany [{ kind := "mail", queue := "default", priority := 1, maxAttempts := 3 },
     { kind := "mail", queue := "default", priority := 2, maxAttempts := 3 }] {})]

theorem running_jobs_owned_both_ways :
    (∃ row ∈ (Operation.after .counting claimedBothWays).jobs, row.state = .running ∧ row.attemptedBy = none) ∧
      ∀ lease ∈ (Operation.after .counting claimedBothWays).leases,
        ∃ row ∈ (Operation.after .counting claimedBothWays).jobs, row.id = lease.id ∧ row.state = .running := by
  refine ⟨?_, (running_jobs_owned (Operation.AllAllowed.reachable ?_)).2.2.1⟩
  · exact of_decide_eq_true (p := ∃ row ∈ (Operation.after .counting claimedBothWays).jobs.rows,
      row.state = .running ∧ row.attemptedBy = none) (by decide +kernel)
  · exact ⟨trivial, (by decide : (0 : Int) < 9), trivial, trivial, trivial⟩

end

end Hopper.Guarantees
