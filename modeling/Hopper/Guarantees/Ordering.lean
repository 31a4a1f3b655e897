import Hopper.Guarantees.Indexes
import Hopper.Lifecycle.Journal

/-! Ordering keys serialize: at most one job of a key runs, and a job starts
only once no older job of its key is left that could. -/

namespace Hopper.Guarantees

open List Kernel Driver Sqlite Lifecycle

/-- Sequence numbers follow the order of birth, and a job keeps its own until
it is brought back from history. -/
structure Seniority (roster : Roster) : Prop where
  births : roster.journal.Pairwise fun later earlier =>
    ∀ young old, birth? later = some young → birth? earlier = some old → old.seq < young.seq
  bounded : ∀ event ∈ roster.journal, ∀ born, birth? event = some born → born.seq ≤ roster.seq
  since : ∀ event ∈ roster.journal, ∀ born, birth? event = some born →
    ∀ row ∈ roster.jobs, row.id = born.id → born.seq ≤ row.seq
  unretried : ∀ event ∈ roster.journal, ∀ born, birth? event = some born →
    ∀ row ∈ roster.jobs, row.id = born.id → (∀ again, .retried again ∈ roster.journal → again.id ≠ row.id) →
      row.seq = born.seq

namespace Seniority

variable {rules : Rules} {pre post : Roster}

theorem empty : Seniority (roster {}) where
  births := .nil
  bounded := forall_mem_nil _
  since := forall_mem_nil _
  unretried := forall_mem_nil _

private theorem birth_cases (change : Change rules pre post) {event : Event} {born : LiveJob}
    (mem : event ∈ post.journal) (birth : birth? event = some born) :
    event ∈ pre.journal ∨ (born ∈ post.jobs ∧ ¬pre.Known born.id ∧ born.seq = pre.seq + 1 ∧ post.seq = pre.seq + 1) := by
  rcases change.births with ⟨events, journal, barren⟩ | ⟨arrival, row, new⟩
  · rw [journal] at mem
    rcases List.mem_append.mp mem with new | old
    · rw [barren event new] at birth
      cases birth
    · exact .inl old
  · rw [new.journal] at mem
    rcases mem_cons.mp mem with rfl | old
    · cases birth.symm.trans new.birth
      exact .inr ⟨new.member, new.unknown, new.seq, new.next⟩
    · exact .inl old

theorem step (seniority : Seniority pre) (change : Change rules pre post) : Seniority post where
  births := by
    rcases change.births with ⟨events, journal, barren⟩ | ⟨arrival, row, new⟩
    · rw [journal, pairwise_append]
      refine ⟨?_, seniority.births, ?_⟩
      · refine pairwise_of_forall_mem_list fun later laterMem earlier _ young old born _ => ?_
        rw [barren later laterMem] at born
        cases born
      · intro later laterMem earlier _ young old born _
        rw [barren later laterMem] at born
        cases born
    · rw [new.journal, pairwise_cons]
      refine ⟨fun earlier earlierMember young old born earlierBorn => ?_, seniority.births⟩
      cases new.birth.symm.trans born
      have bound := seniority.bounded earlier earlierMember old earlierBorn
      rw [new.seq]
      omega
  bounded := by
    intro event mem born birth
    rcases birth_cases change mem birth with old | ⟨_, _, seq, next⟩
    · exact (seniority.bounded event old born birth).trans change.seq_le
    · rw [seq, next]
  since := by
    intro event mem born birth row rowMem keyed
    rcases birth_cases change mem birth with old | ⟨bornMember, _, _, _⟩
    · rcases change.origin rowMem with ⟨past, pastMem, goes⟩ | arrives
      · rw [goes.kept.seq]
        exact seniority.since event old born birth past pastMem (goes.kept.id.symm.trans keyed)
      · have bound := seniority.bounded event old born birth
        rw [arrives.seq]
        omega
    · rw [Table.eq_of_key rowMem bornMember keyed]
  unretried := by
    intro event mem born birth row rowMem keyed unretried
    rcases birth_cases change mem birth with old | ⟨bornMember, _, _, _⟩
    · rcases change.origin rowMem with ⟨past, pastMem, goes⟩ | arrives
      · refine goes.kept.seq.trans (seniority.unretried event old born birth past pastMem
          (goes.kept.id.symm.trans keyed) fun again earlier => ?_)
        rw [← goes.kept.id]
        exact unretried again (change.journal_suffix.subset earlier)
      · cases arrives.arrival with
        | born _ _ _ unknown => exact absurd ⟨event, old, born, birth, keyed.symm⟩ unknown
        | revived _ _ _ _ journal => exact absurd rfl (unretried row (journal ▸ mem_cons_self))
    · rw [Table.eq_of_key rowMem bornMember keyed]

end Seniority

def Starting (rules : Rules) (row : LiveJob) : Prop :=
  ∃ middle last old, old ∈ middle.jobs ∧ Change.Starts rules middle last old row

theorem changes_claims {rules : Rules} {first last : Roster} (changes : Changes rules first last) :
    ∃ events, last.journal = events ++ first.journal ∧ ∀ row, .claimed row ∈ events → Starting rules row := by
  induction changes with
  | refl => exact ⟨[], rfl, fun _ mem => absurd mem not_mem_nil⟩
  | @tail middle last _ change ih =>
    obtain ⟨events, journal, claims⟩ := ih
    obtain ⟨added, enters⟩ := change.enters
    refine ⟨added ++ events, by rw [enters.journal, journal, append_assoc], fun row mem => ?_⟩
    rcases List.mem_append.mp mem with new | old
    · obtain ⟨_, old, held, starts⟩ := enters.claims row new
      exact ⟨middle, last, old, held, starts⟩
    · exact claims row old

section
variable {engine : Engine} {store : Store}

theorem claimed_startable (sound : Sound engine store) {now : Int} {operation : Operation}
    (positive : operation.PositiveClient) {events : List Event} {row : LiveJob}
    (journal : (operation.apply engine now store).journal = events ++ store.journal)
    (claimed : .claimed row ∈ events) :
    ∃ old ∈ store.jobs, (roster store).Startable old ∧ ∃ (x : W) (owner : Option Int), row = x.started owner old := by
  have obeys : Obeys (Rules.starting fun there => there = roster store) ⟨engine, now⟩ store operation :=
    obeys_starting positive fun _ => rfl
  obtain ⟨added, appended, claims⟩ := changes_claims ((apply_performs obeys sound).moves sound).1
  have same : events = added := append_cancel_right (journal.symm.trans appended)
  subst same
  obtain ⟨middle, _, old, held, starts⟩ := claims row claimed
  have there : middle = roster store := starts.allowed
  subst there
  exact ⟨old, held, starts.startable, starts.started⟩

def InsertedBefore (journal : List Event) (first second : JobID) : Prop :=
  ∃ later earlier young old, [later, earlier].Sublist journal ∧ birth? later = some young ∧ young.id = second ∧
    birth? earlier = some old ∧ old.id = first

/-- At most one job of an ordering key runs, and no operation fails on the
index that says so. When a job of a key is claimed, the jobs of the key with
smaller sequence numbers wait for their dependencies. So does one that was
inserted earlier, unless it has been retried from history. -/
theorem ordering_keys_serialize (reachable : Reachable engine (fun _ operation => operation.PositiveClient) store) :
    (∀ first ∈ store.jobs, ∀ second ∈ store.jobs, first.state = .running → second.state = .running →
      first.queue = second.queue → first.orderingKey = second.orderingKey → first.orderingKey ≠ none →
      first = second) ∧
    ∀ now (operation : Operation), operation.PositiveClient →
      (∀ failure, Fails (operation.run ⟨engine, now⟩) store failure → ¬BreaksOrdering failure) ∧
      ∀ events row, (operation.apply engine now store).journal = events ++ store.journal →
        .claimed row ∈ events → row.orderingKey ≠ none →
        ∀ other ∈ store.jobs, other.id ≠ row.id → other.queue = row.queue → other.orderingKey = row.orderingKey →
          (other.seq < row.seq → other.state = .pending) ∧
          (InsertedBefore store.journal other.id row.id →
            other.state = .pending ∨ ∃ again, .retried again ∈ store.journal ∧ again.id = other.id) := by
  have reached := positive_reached reachable
  have seniority : Seniority (roster store) :=
    reached.changes.invariant (fun _ _ _ change seniority => seniority.step change) .empty .empty
  refine ⟨reached.orderly.serial, fun now operation positive => ⟨fun failure fails breaks => ?_, ?_⟩⟩
  · exact run_avoids reached ⟨engine, now⟩ operation failure fails (.inr breaks)
  · intro events row journal claimed keyed other otherMember apart queue key
    obtain ⟨old, oldMember, startable, x, owner, rfl⟩ :=
      claimed_startable reached.sound positive journal claimed
    have pending (older : other.seq < old.seq) : other.state = .pending := by
      have live := reached.sound.owned.live other otherMember
      cases state : other.state with
      | pending => rfl
      | running => exact absurd state (startable.idle other otherMember keyed queue key)
      | available | scheduled | retryable =>
        have oldest := startable.oldest other otherMember keyed queue key (by rw [state]; rfl)
        omega
      | completed | canceled | discarded =>
        rw [state] at live
        cases live
    refine ⟨pending, fun ⟨later, earlier, young, elder, order, laterBorn, youngKeyed, earlierBorn, elderKeyed⟩ => ?_⟩
    by_cases retried : ∃ again, .retried again ∈ store.journal ∧ again.id = other.id
    · exact .inr retried
    · refine .inl (pending ?_)
      have elderSeq := seniority.unretried earlier (order.subset (by simp)) elder earlierBorn other otherMember elderKeyed.symm
          fun again member same => retried ⟨again, member, same⟩
      have youngSeq := seniority.since later (order.subset (by simp)) young laterBorn old oldMember youngKeyed.symm
      have births := pairwise_iff_forall_sublist.mp seniority.births order young elder laterBorn earlierBorn
      omega

/-- A workflow whose second step has an ordering key, and a later job of the key. -/
def keyBehindStep : List (Int × Operation) :=
  [(10, .jobInsertMany
      [{ kind := "mail", queue := "default", priority := 1, maxAttempts := 3, orderingKey := "account" }] {}),
   (0, .workflowInsert {
      jobs := [{ kind := "fetch", queue := "default", priority := 2, maxAttempts := 3 },
        { kind := "send", queue := "default", priority := 2, maxAttempts := 3, orderingKey := "account" }],
      deps := [{ job := 1, dependsOn := 0 }] })]

def claimOfMail : Operation :=
  .jobClaim { queue := "default", clientID := 9, limit := 1 }

theorem ordering_keys_serialize_behind_step : ∃ events row other,
      (claimOfMail.apply .counting 20 (Operation.after .counting keyBehindStep)).journal =
        events ++ (Operation.after .counting keyBehindStep).journal ∧
      .claimed row ∈ events ∧ row.orderingKey ≠ none ∧ other ∈ (Operation.after .counting keyBehindStep).jobs ∧
      other.orderingKey = row.orderingKey ∧ other.seq < row.seq ∧ other.state = .pending := by
  have claimed : ∃ row ∈ (claimOfMail.apply .counting 20 (Operation.after .counting keyBehindStep)).jobs.rows,
      .claimed row ∈ (claimOfMail.apply .counting 20 (Operation.after .counting keyBehindStep)).journal.take 1 ∧
      row.orderingKey ≠ none ∧ ∃ other ∈ (Operation.after .counting keyBehindStep).jobs.rows,
        other.id ≠ row.id ∧ other.queue = row.queue ∧ other.orderingKey = row.orderingKey ∧ other.seq < row.seq := by
    decide +kernel
  have grows : (claimOfMail.apply .counting 20 (Operation.after .counting keyBehindStep)).journal =
      (claimOfMail.apply .counting 20 (Operation.after .counting keyBehindStep)).journal.take 1 ++
        (Operation.after .counting keyBehindStep).journal := by
    decide +kernel
  obtain ⟨row, _, entered, keyed, other, member, apart, queue, key, older⟩ := claimed
  have reachable : Reachable .counting (fun _ operation => operation.PositiveClient) (Operation.after .counting keyBehindStep) :=
    Operation.AllAllowed.reachable ⟨trivial, trivial, trivial⟩
  have serialized := (ordering_keys_serialize reachable).2 20 claimOfMail (by decide : (0 : Int) < 9)
  exact ⟨_, row, other, grows, entered, keyed, member, key, older,
    (serialized.2 _ row grows entered keyed other member apart queue key).1 older⟩

end

end Hopper.Guarantees
