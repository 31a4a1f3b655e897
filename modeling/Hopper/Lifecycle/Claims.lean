import Hopper.Lifecycle.Identity

/-! Claims: who owns a running job, how fences number the claims of a job, and
how ordering keys serialize them. -/

namespace Hopper.Lifecycle

open List Kernel Driver Sqlite

variable {rules : Rules} {pre post : Roster} {row : LiveJob}

theorem forall_mem_started {jobs : Table LiveJob} {x : W} {owner : Option Int} {condition : LiveJob → Bool}
    (same : ∀ row, Keyed.key (if condition row then x.started owner row else row) = Keyed.key row) {holds : LiveJob → Prop}
    (started : ∀ row ∈ jobs, condition row = true → holds (x.started owner row))
    (others : ∀ row ∈ jobs, ¬condition row = true → holds row) :
    ∀ row ∈ jobs.update (fun row => if condition row then x.started owner row else row) same, holds row := by
  refine (Table.forall_mem_update same).mpr fun row mem => ?_
  split
  · next selected => exact started row mem selected
  · next unselected => exact others row mem unselected

/-- Every running job has one owner, a client or the lease of its claim, and
every lease owns a running job. -/
structure Owned (roster : Roster) : Prop where
  live : ∀ row ∈ roster.jobs, row.state.terminal = false
  positive : ∀ row ∈ roster.jobs, row.state = .running → ∀ client, row.attemptedBy = some client →
    0 < client
  leased : ∀ row ∈ roster.jobs, row.state = .running → row.attemptedBy = none →
    ∃ lease ∈ roster.leases, lease.id = row.id ∧ lease.fence = row.fence
  owning : ∀ lease ∈ roster.leases, ∃ row ∈ roster.jobs, row.id = lease.id ∧
    row.state = .running ∧ row.attemptedBy = none ∧ row.fence = lease.fence

namespace Owned

theorem empty : Owned (roster {}) where
  live := Table.forall_mem_empty
  positive := Table.forall_mem_empty
  leased := Table.forall_mem_empty
  owning := Table.forall_mem_empty

theorem congr (owned : Owned pre) (jobs : post.jobs = pre.jobs) (leases : post.leases = pre.leases) : Owned post where
  live := jobs ▸ owned.live
  positive := jobs ▸ owned.positive
  leased := jobs ▸ leases ▸ owned.leased
  owning := jobs ▸ leases ▸ owned.owning

variable {row : LiveJob}

private theorem append (owned : Owned pre)
    (free : pre.jobs.has row.id = false) (live : row.state.terminal = false)
    (idle : row.state ≠ .running) (jobs : post.jobs = pre.jobs.append row free)
    (leases : post.leases = pre.leases) : Owned post where
  live := by
    rw [jobs]
    exact (Table.forall_mem_append free).mpr ⟨owned.live, live⟩
  positive := by
    rw [jobs]
    exact (Table.forall_mem_append free).mpr ⟨owned.positive, fun running => absurd running idle⟩
  leased := by
    rw [jobs, leases]
    exact (Table.forall_mem_append free).mpr ⟨owned.leased, fun running => absurd running idle⟩
  owning := by
    intro lease mem
    rw [leases] at mem
    obtain ⟨held, heldMem, facts⟩ := owned.owning lease mem
    rw [jobs]
    exact ⟨held, (Table.mem_append free).mpr (.inl heldMem), facts⟩

private theorem touch (owned : Owned pre) {change : LiveJob → LiveJob} (same : ∀ row, Keyed.key (change row) = Keyed.key row)
    (touched : ∀ row ∈ pre.jobs, Touched rules row (change row)) :
    Owned { pre with jobs := pre.jobs.update change same } where
  live := (Table.forall_mem_update same).mpr fun row mem => (touched row mem).live (owned.live row mem)
  positive := (Table.forall_mem_update same).mpr fun row mem running client owner =>
    owned.positive row mem ((touched row mem).running.mp running) client ((touched row mem).owner ▸ owner)
  leased := by
    refine (Table.forall_mem_update same).mpr fun row mem running unowned => ?_
    have touch := touched row mem
    rw [touch.id, touch.fence]
    exact owned.leased row mem (touch.running.mp running) (touch.owner ▸ unowned)
  owning := by
    intro lease mem
    obtain ⟨held, heldMem, id, running, unowned, fence⟩ := owned.owning lease mem
    have touch := touched held heldMem
    exact ⟨change held, (Table.mem_update same).mpr ⟨held, heldMem, rfl⟩, touch.id.trans id,
      touch.running.mpr running, touch.owner.trans unowned, touch.fence.trans fence⟩

variable {condition : LiveJob → Bool}

variable (owned : Owned pre)
include owned

private theorem start {x : W} {client : Int}
    (same : ∀ row, Keyed.key (if condition row then x.started (some client) row else row) = Keyed.key row)
    (positive : 0 < client)
    (startable : ∀ row ∈ pre.jobs, condition row = true → pre.Startable row)
    (jobs : post.jobs = pre.jobs.update (fun row => if condition row then x.started (some client) row else row) same)
    (leases : post.leases = pre.leases) : Owned post where
  live := by
    rw [jobs]
    exact forall_mem_started same (fun _ _ _ => rfl) fun row mem _ => owned.live row mem
  positive := by
    rw [jobs]
    refine forall_mem_started same (fun row _ _ => ?_) fun row mem _ => owned.positive row mem
    rintro _ _ ⟨⟩
    exact positive
  leased := by
    rw [jobs, leases]
    refine forall_mem_started same (fun row _ _ => ?_) fun row mem _ => owned.leased row mem
    rintro _ ⟨⟩
  owning := by
    intro lease mem
    rw [leases] at mem
    obtain ⟨held, heldMem, id, running, facts⟩ := owned.owning lease mem
    have unselected : condition held = false := by
      by_contra selected
      rw [Bool.not_eq_false] at selected
      exact JobState.waiting_ne_running (startable held heldMem selected).waits running
    rw [jobs]
    exact ⟨held, (Table.mem_update same).mpr ⟨held, heldMem, by simp [unselected]⟩, id, running, facts⟩

private theorem lease {x : W}
    (same : ∀ row, Keyed.key (if condition row then x.started none row else row) = Keyed.key row)
    {lease : LeaseRow} (only : ∀ other ∈ pre.jobs, condition other = true ↔ other = row)
    (mem : row ∈ pre.jobs) (waits : row.state.waiting = true)
    (id : lease.id = row.id) (fence : lease.fence = row.fence + 1)
    (jobs : post.jobs = pre.jobs.update (fun row => if condition row then x.started none row else row) same)
    (upserted : ∀ other, other ∈ post.leases ↔ other = lease ∨ (other ∈ pre.leases ∧ other.id ≠ lease.id)) : Owned post where
  live := by
    rw [jobs]
    exact forall_mem_started same (fun _ _ _ => rfl) fun other otherMem _ => owned.live other otherMem
  positive := by
    rw [jobs]
    refine forall_mem_started same (fun other _ _ => ?_) fun other otherMem _ => owned.positive other otherMem
    rintro _ _ ⟨⟩
  leased := by
    rw [jobs]
    refine forall_mem_started same (fun other otherMem selected _ _ => ?_) fun other otherMem unselected running unowned => ?_
    · rw [(only other otherMem).mp selected]
      exact ⟨lease, (upserted lease).mpr (.inl rfl), id, fence⟩
    · obtain ⟨held, heldMem, heldID, heldFence⟩ := owned.leased other otherMem running unowned
      refine ⟨held, (upserted held).mpr (.inr ⟨heldMem, ?_⟩), heldID, heldFence⟩
      intro sameID
      rw [heldID, id] at sameID
      exact unselected ((only other otherMem).mpr (Table.eq_of_key otherMem mem sameID))
  owning := by
    intro held heldMem
    rw [jobs]
    rcases (upserted held).mp heldMem with rfl | ⟨old, other⟩
    · exact ⟨x.started none row, (Table.mem_update same).mpr ⟨row, mem, by simp [(only row mem).mpr rfl]⟩,
        id.symm, rfl, rfl, fence.symm⟩
    · obtain ⟨owner, ownerMember, ownerID, running, facts⟩ := owned.owning held old
      have unselected : condition owner = false := by
        by_contra selected
        rw [Bool.not_eq_false, only owner ownerMember] at selected
        rw [selected] at running
        exact JobState.waiting_ne_running waits running
      exact ⟨owner, (Table.mem_update same).mpr ⟨owner, ownerMember, by simp [unselected]⟩, ownerID, running, facts⟩

private theorem endClaim (mem : row ∈ pre.jobs)
    (released : Released row pre.leases post.leases)
    (ended : ∀ other ∈ post.jobs, other ∈ pre.jobs ∧ other.id ≠ row.id ∨ other.state.waiting = true)
    (others : ∀ other ∈ pre.jobs, other.id ≠ row.id → other ∈ post.jobs) : Owned post where
  live := by
    intro other otherMem
    rcases ended other otherMem with ⟨old, _⟩ | waits
    · exact owned.live other old
    · exact JobState.waiting_not_terminal waits
  positive := by
    intro other otherMem otherRunning
    rcases ended other otherMem with ⟨old, _⟩ | waits
    · exact owned.positive other old otherRunning
    · exact absurd otherRunning (JobState.waiting_ne_running waits)
  leased := by
    intro other otherMem otherRunning unowned
    rcases ended other otherMem with ⟨old, different⟩ | waits
    · obtain ⟨held, heldMem, heldID, heldFence⟩ := owned.leased other old otherRunning unowned
      exact ⟨held, (released held).mpr ⟨heldMem, fun _ => heldID ▸ different⟩, heldID, heldFence⟩
    · exact absurd otherRunning (JobState.waiting_ne_running waits)
  owning := by
    intro held heldMem
    obtain ⟨old, different⟩ := (released held).mp heldMem
    obtain ⟨owner, ownerMember, ownerID, ownerRunning, unowned, fence⟩ := owned.owning held old
    refine ⟨owner, others owner ownerMember ?_, ownerID, ownerRunning, unowned, fence⟩
    intro same
    have equal : owner = row := Table.eq_of_key ownerMember mem same
    rw [equal] at unowned ownerID
    exact different unowned ownerID.symm

theorem step (change : Change rules pre post) : Owned post := by
  cases change with
  | book | forget => exact owned.congr rfl rfl
  | insert row event free birth unknown fresh =>
    exact owned.append free fresh.live fresh.idle rfl rfl
  | touch change same touched => exact owned.touch same touched
  | start x client condition same positive startable =>
    exact owned.start same positive startable rfl rfl
  | lease x row condition same lease leases only mem startable id fence upserted =>
    exact owned.lease same only mem startable.waits id fence rfl upserted
  | resume row change same leases mem running resumed released =>
    refine owned.endClaim mem released ?_ ?_
    · intro other otherMem
      rcases (Table.mem_modify same).mp otherMem with kept | ⟨old, oldMem, keyed, rfl⟩
      · exact .inl kept
      · rw [Table.eq_of_key oldMem mem keyed]
        exact .inr resumed.waits
    · intro other otherMem different
      exact (Table.mem_modify same).mpr (.inl ⟨otherMem, different⟩)
  | finish x finished mem waits =>
    refine { live := ?_, positive := ?_, leased := ?_, owning := ?_ }
    · exact fun row rowMem => owned.live row (Table.mem_delete.mp rowMem).1
    · exact fun row rowMem => owned.positive row (Table.mem_delete.mp rowMem).1
    · exact fun row rowMem => owned.leased row (Table.mem_delete.mp rowMem).1
    · intro lease leaseMem
      obtain ⟨owner, ownerMember, id, running, facts⟩ := owned.owning lease leaseMem
      refine ⟨owner, Table.mem_delete.mpr ⟨ownerMember, ?_⟩, id, running, facts⟩
      rw [decide_eq_false_iff_not]
      intro same
      exact waits (Table.eq_of_key ownerMember mem same ▸ running)
  | conclude x finished leases mem running terminal released =>
    refine owned.endClaim mem released ?_ ?_
    · intro other otherMem
      exact .inl (by simpa using otherMem)
    · intro other otherMem different
      exact Table.mem_delete.mpr ⟨otherMem, by simpa using different⟩
  | retry old row free mem revived =>
    exact owned.append free (by rw [revived.state]; rfl) (by rw [revived.state]; simp) rfl rfl
  | renew change same fence =>
    refine { live := owned.live, positive := owned.positive, leased := ?_, owning := ?_ }
    · intro row mem running unowned
      obtain ⟨lease, leaseMem, id, leaseFence⟩ := owned.leased row mem running unowned
      exact ⟨change lease, (Table.mem_update same).mpr ⟨lease, leaseMem, rfl⟩,
        (same lease).trans id, (fence lease).trans leaseFence⟩
    · intro lease mem
      obtain ⟨old, oldMem, rfl⟩ := (Table.mem_update same).mp mem
      obtain ⟨owner, ownerMember, id, running, unowned, ownerFence⟩ := owned.owning old oldMem
      exact ⟨owner, ownerMember, id.trans (same old).symm, running, unowned, ownerFence.trans (fence old).symm⟩

end Owned

def Serial (roster : Roster) : Prop :=
  ∀ first ∈ roster.jobs, ∀ second ∈ roster.jobs, first.state = .running → second.state = .running →
    first.queue = second.queue → first.orderingKey = second.orderingKey →
    first.orderingKey ≠ none → first = second

namespace Serial

theorem empty : Serial (roster {}) :=
  Table.forall_mem_empty

theorem of_origin (serial : Serial pre) (identity : Identity pre) (origin : ∀ row ∈ post.jobs, row.state = .running →
      ∃ old ∈ pre.jobs, (old.state = .running ∨ pre.Startable old) ∧ Kept old row) : Serial post := by
  intro first firstMem second secondMem firstRunning secondRunning queue key keyed
  obtain ⟨firstOld, firstHeld, firstRan, firstKept⟩ := origin first firstMem firstRunning
  obtain ⟨secondOld, secondHeld, secondRan, secondKept⟩ := origin second secondMem secondRunning
  rw [firstKept.queue, secondKept.queue] at queue
  rw [firstKept.orderingKey] at key keyed
  rw [secondKept.orderingKey] at key
  have same : firstOld = secondOld := by
    rcases firstRan with firstRan | firstStart <;> rcases secondRan with secondRan | secondStart
    · exact serial firstOld firstHeld secondOld secondHeld firstRan secondRan queue key keyed
    · exact absurd firstRan (secondStart.idle firstOld firstHeld (key ▸ keyed) queue key)
    · exact absurd secondRan (firstStart.idle secondOld secondHeld keyed queue.symm key.symm)
    · have forward := firstStart.oldest secondOld secondHeld keyed queue.symm key.symm secondStart.waits
      have backward := secondStart.oldest firstOld firstHeld (key ▸ keyed) queue key firstStart.waits
      exact identity.seq_injective firstOld firstHeld secondOld secondHeld (Nat.le_antisymm forward backward)
  exact Table.eq_of_key firstMem secondMem (by simp only [key_liveJob]; rw [firstKept.id, secondKept.id, same])

theorem step (serial : Serial pre) (identity : Identity pre) (change : Change rules pre post) : Serial post := by
  refine serial.of_origin identity fun row mem running => ?_
  rcases change.origin mem with ⟨old, held, goes⟩ | arrives
  · refine ⟨old, held, ?_, goes.kept⟩
    cases goes with
    | touched touched => exact .inl (touched.running.mp running)
    | started starts => exact .inr starts.startable
    | resumed _ resumed => exact absurd running (JobState.waiting_ne_running resumed.waits)
  · exact absurd running arrives.unmarked.1

end Serial

/-- Fences number the claims of a job: no two claims of it share one, a claim
ends at most once, and the job's fence is that of its latest claim. -/
structure Fenced (roster : Roster) : Prop where
  claims_distinct : (roster.journal.filterMap claim?).Nodup
  endings_distinct : (roster.journal.filterMap ending?).Nodup
  claimed_known : ∀ id fence, roster.Claimed id fence → roster.Known id
  ended_claimed : ∀ id fence, roster.Ended id fence → roster.Claimed id fence
  live_latest : ∀ row ∈ roster.jobs, ∀ fence, roster.Claimed row.id fence → fence ≤ row.fence
  history_latest : ∀ row ∈ roster.history, ∀ fence, roster.Claimed row.id fence → fence ≤ row.fence
  running_claimed : ∀ row ∈ roster.jobs, row.state = .running → roster.Claimed row.id row.fence
  running_open : ∀ row ∈ roster.jobs, row.state = .running → ¬roster.Ended row.id row.fence

namespace Fenced

theorem empty : Fenced (roster {}) where
  claims_distinct := nodup_nil
  endings_distinct := nodup_nil
  claimed_known := fun _ _ claimed => absurd claimed not_mem_nil
  ended_claimed := fun _ _ ended => absurd ended not_mem_nil
  live_latest := Table.forall_mem_empty
  history_latest := forall_mem_nil _
  running_claimed := Table.forall_mem_empty
  running_open := Table.forall_mem_empty

section
variable {events : List Event} {id : JobID} {fence : Int} (enters : Change.Enters rules pre post events)
include enters

private theorem claimed_cases (claimed : post.Claimed id fence) : pre.Claimed id fence ∨
    ∃ row ∈ post.jobs, row.id = id ∧ row.fence = fence ∧ ∃ old ∈ pre.jobs, Change.Starts rules pre post old row := by
  rw [Roster.Claimed, enters.journal, filterMap_append, List.mem_append] at claimed
  rcases claimed with new | old
  · obtain ⟨event, mem, claim⟩ := mem_filterMap.mp new
    cases event with
    | claimed row =>
      obtain ⟨held, starts⟩ := enters.claims row mem
      cases claim
      exact .inr ⟨row, held, rfl, rfl, starts⟩
    | _ => cases claim
  · exact .inl old

private theorem ended_cases (ended : post.Ended id fence) : pre.Ended id fence ∨
    ∃ row ∈ pre.jobs, (id, fence) = (row.id, row.fence) ∧ row.state = .running ∧
      ∀ other ∈ post.jobs, other.id = row.id → other.state ≠ .running := by
  rw [Roster.Ended, enters.journal, filterMap_append, List.mem_append] at ended
  exact ended.symm.imp_right (enters.ends _)

end

theorem step (fenced : Fenced pre) (identity : Identity pre) (change : Change rules pre post) : Fenced post := by
  obtain ⟨events, enters⟩ := change.enters
  have later := identity.step change
  have claimed_mono {id : JobID} {fence : Int} (claimed : pre.Claimed id fence) : post.Claimed id fence :=
    (change.journal_suffix.filterMap claim?).subset claimed
  exact {
    claims_distinct := by
      rw [enters.journal, filterMap_append, nodup_append]
      refine ⟨enters.claimsOnce, fenced.claims_distinct, ?_⟩
      rintro claim new _ old rfl
      obtain ⟨event, mem, claim⟩ := mem_filterMap.mp new
      cases event with
      | claimed row =>
        obtain ⟨_, before, held, starts⟩ := enters.claims row mem
        cases claim
        have latest := fenced.live_latest before held row.fence (starts.kept.id ▸ old)
        rw [starts.fence] at latest
        omega
      | _ => cases claim
    endings_distinct := by
      rw [enters.journal, filterMap_append, nodup_append]
      refine ⟨enters.endsOnce, fenced.endings_distinct, ?_⟩
      rintro ending new _ old rfl
      obtain ⟨row, held, rfl, running, _⟩ := enters.ends ending new
      exact fenced.running_open row held running old
    claimed_known := by
      intro id fence claimed
      rcases claimed_cases enters claimed with old | ⟨row, held, rfl, _⟩
      · exact change.known_mono (fenced.claimed_known id fence old)
      · exact later.jobs_known row held
    ended_claimed := by
      intro id fence ended
      rcases ended_cases enters ended with old | ⟨row, held, same, running, _⟩
      · exact claimed_mono (fenced.ended_claimed id fence old)
      · cases same
        exact claimed_mono (fenced.running_claimed row held running)
    live_latest := by
      intro row mem fence claimed
      rcases claimed_cases enters claimed with old | ⟨new, held, id, rfl, _⟩
      · rcases change.origin mem with ⟨before, held, goes⟩ | arrives
        · have latest := fenced.live_latest before held fence (goes.kept.id ▸ old)
          cases goes with
          | touched touched => rwa [touched.fence]
          | started starts =>
            rw [starts.fence]
            omega
          | resumed _ resumed => rwa [resumed.fence]
        · cases arrives.arrival with
          | born _ _ _ unknown => exact absurd (fenced.claimed_known row.id fence old) unknown
          | revived past there revived =>
            rw [revived.fence]
            exact fenced.history_latest past there fence (revived.id ▸ old)
      · rw [Table.eq_of_key held mem id]
    history_latest := by
      intro past mem fence claimed
      rcases claimed_cases enters claimed with old | ⟨row, held, id, _⟩
      · rcases change.history_cases with sublist | ⟨finished, now, archives⟩
        · exact fenced.history_latest past (sublist.subset mem) fence old
        · rw [archives.history] at mem
          rcases List.mem_append.mp mem with there | new
          · exact fenced.history_latest past there fence old
          · rw [mem_singleton.mp new] at old ⊢
            exact fenced.live_latest finished.row archives.member fence old
      · exact absurd id.symm (later.apart past mem row held)
    running_claimed := by
      intro row mem running
      rcases change.origin mem with ⟨old, held, goes⟩ | arrives
      · cases goes with
        | touched touched =>
          rw [touched.id, touched.fence]
          exact claimed_mono (fenced.running_claimed old held (touched.running.mp running))
        | started starts => exact mem_filterMap.mpr ⟨_, starts.entered, rfl⟩
        | resumed _ resumed => exact absurd running (JobState.waiting_ne_running resumed.waits)
      · exact absurd running arrives.unmarked.1
    running_open := by
      intro row mem running ended
      rcases ended_cases enters ended with earlier | ⟨_, _, same, _, idle⟩
      · rcases change.origin mem with ⟨old, held, goes⟩ | arrives
        · cases goes with
          | touched touched =>
            rw [touched.id, touched.fence] at earlier
            exact fenced.running_open old held (touched.running.mp running) earlier
          | started starts =>
            rw [starts.kept.id, starts.fence] at earlier
            have latest := fenced.live_latest old held _ (fenced.ended_claimed _ _ earlier)
            omega
          | resumed _ resumed => exact absurd running (JobState.waiting_ne_running resumed.waits)
        · exact absurd running arrives.unmarked.1
      · exact idle row mem (Prod.mk.inj same).1 running }

end Fenced

end Hopper.Lifecycle
