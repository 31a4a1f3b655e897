import Hopper.Guarantees.Limits
import Hopper.Lifecycle.Marks

/-! Wakes of ordering keys: one that takes effect while a job of the key runs
makes the job due as soon as that claim ends, and one of an earlier claim never
does. -/

namespace Hopper.Guarantees

open List Option Kernel Driver Sqlite Lifecycle

def WakesKey (operation : Operation) (row : LiveJob) : Prop :=
  match operation with
  | .jobRetryOrderingKey params => row.queue = params.queue ∧ row.orderingKey = some params.orderingKey
  | _ => False

/-- A wake of its ordering key took effect while the job ran at the fence, and
it has run at that fence ever since; the last operation comes first. -/
def WokenDuring (engine : Engine) (id : JobID) (fence : Int) : List (Int × Operation) → Prop
  | [] => False
  | (_, operation) :: earlier =>
    ∃ row, (Operation.after engine earlier).jobs.find? id = some row ∧ row.state = .running ∧ row.fence = fence ∧
      (WakesKey operation row ∨ WokenDuring engine id fence earlier)

def Timed (steps : List (Int × Operation)) : Prop :=
  (steps.map Prod.fst).Pairwise fun later earlier => earlier ≤ later

/-- What a row becomes by an operation: it runs on in its claim, with the mark
of a wake if there is one; it waits on; or it starts. -/
inductive Follows (now : Int) (operation : Operation) (old new : LiveJob) : Prop where
  | runs (before : old.state = .running) (after : new.state = .running) (fence : new.fence = old.fence)
      (attemptedAt : new.attemptedAt = old.attemptedAt) (reason : new.snoozeReason = old.snoozeReason)
      (mark : WakesKey operation old ∧ new.wakeRequestedAt = some now ∨
        ¬WakesKey operation old ∧ new.wakeRequestedAt = old.wakeRequestedAt)
  | waits (before : old.state ≠ .running) (after : new.state ≠ .running)
      (mark : new.wakeRequestedAt = old.wakeRequestedAt)
  | starts (before : old.state ≠ .running) (attemptedAt : new.attemptedAt = some now)
      (reason : new.snoozeReason = none) (mark : new.wakeRequestedAt = old.wakeRequestedAt)

section
variable {engine : Engine} {now : Int} {pre : Store}
variable {after : Store}

theorem Follows.of_sameMark {operation : Operation} {old new : LiveJob} (same : SameMark old new)
    (other : ¬WakesKey operation old) : Follows now operation old new := by
  by_cases running : new.state = .running
  · obtain ⟨fence, attemptedAt, reason⟩ := same.claim running
    exact .runs (same.running.mp running) running fence attemptedAt reason (.inr ⟨other, same.mark⟩)
  · exact .waits (fun was => running (same.running.mpr was)) running same.mark

theorem jobClaim_follows (sound : Sound engine pre) {params : JobClaimParams} {result : JobClaimResult}
    (claimed : Yields (W.jobClaim ⟨engine, now⟩ params) pre result after) :
    ∀ new ∈ after.jobs, ∃ old ∈ pre.jobs, new.id = old.id ∧ Follows now (.jobClaim params) old new := by
  obtain ⟨taken, facts, rows⟩ := yields_jobClaim claimed
  intro new mem
  have listed : new ∈ after.jobs.rows := mem
  rw [rows] at listed
  obtain ⟨old, held, rfl⟩ := mem_map.mp listed
  refine ⟨old, held, ?_⟩
  unfold takes
  split
  · next selected =>
    obtain ⟨other, among, same⟩ := mem_map.mp selected
    have equal := sound.identity.seq_injective other (facts.live other among) old held same
    exact ⟨rfl, .starts (JobState.waiting_ne_running (equal ▸ facts.waits other among)) rfl rfl rfl⟩
  · exact ⟨rfl, .of_sameMark (.refl old) id⟩

theorem jobClaimByID_follows {params : JobClaimByIDParams} {reply : JobLeaseRow}
    (claimed : Yields (W.jobClaimByID ⟨engine, now⟩ params) pre reply after) :
    ∀ new ∈ after.jobs, ∃ old ∈ pre.jobs, new.id = old.id ∧ Follows now (.jobClaimByID params) old new := by
  obtain ⟨row, _, _, lease, _, _, rfl⟩ := W.yields_jobClaimByID claimed
  refine forall_mem_started (W.key_started_if _ none _) (fun old held selected => ?_) fun old held _ => ?_
  · rw [Bool.and_eq_true, decide_eq_true_eq] at selected
    exact ⟨old, held, rfl, .starts (JobState.waiting_ne_running selected.2) rfl rfl rfl⟩
  · exact ⟨old, held, rfl, .of_sameMark (.refl old) id⟩

theorem jobRetryOrderingKey_follows {params : JobRetryOrderingKeyParams} {count : Nat}
    (woke : Yields (W.jobRetryOrderingKey ⟨engine, now⟩ params) pre count after) :
    ∀ new ∈ after.jobs, Unmarked new ∨ ∃ old ∈ pre.jobs, new.id = old.id ∧ Follows now (.jobRetryOrderingKey params) old new := by
  simp only [W.jobRetryOrderingKey, yields_bind, yields_get, yields_set, yields_pure] at woke
  obtain ⟨_, _, ⟨rfl, rfl⟩, _, _, rfl, _, rfl⟩ := woke
  intro new mem
  simp only [Table.mem_update] at mem
  obtain ⟨old, held, rfl⟩ := mem
  split
  · next marked => exact .inr ⟨old, held, rfl, .runs marked.2.2 marked.2.2 rfl rfl rfl (.inl ⟨⟨marked.1, marked.2.1⟩, rfl⟩)⟩
  · next unmarked =>
    split
    · exact .inl ⟨by rintro ⟨⟩, rfl⟩
    · refine .inr ⟨old, held, rfl, ?_⟩
      by_cases running : old.state = .running
      · exact .runs running running rfl rfl rfl (.inr ⟨fun wakes => unmarked ⟨wakes.1, wakes.2, running⟩, rfl⟩)
      · exact .waits running running rfl

theorem apply_follows (sound : Sound engine pre) (operation : Operation) (positive : operation.PositiveClient) :
    ∀ new ∈ (operation.apply engine now pre).jobs, Unmarked new ∨
      ∃ old ∈ pre.jobs, new.id = old.id ∧ Follows now operation old new := by
  have kept (idle : ¬Claiming operation) (silent : ¬Waking operation) (quiet : ∀ row, ¬WakesKey operation row) :
      ∀ new ∈ (operation.apply engine now pre).jobs, Unmarked new ∨
        ∃ old ∈ pre.jobs, new.id = old.id ∧ Follows now operation old new := by
    intro new mem
    rcases apply_marks sound positive idle silent new mem with unmarked | ⟨old, held, same⟩
    · exact .inl unmarked
    · exact .inr ⟨old, held, same.id, .of_sameMark same (quiet old)⟩
  have stays (quiet : ∀ row, ¬WakesKey operation row) : ∀ new ∈ pre.jobs, Unmarked new ∨
        ∃ old ∈ pre.jobs, new.id = old.id ∧ Follows now operation old new :=
    fun new mem => .inr ⟨new, mem, rfl, .of_sameMark (.refl new) (quiet new)⟩
  cases operation with
  | jobClaim params =>
    rcases committed_cases (Operation.run ⟨engine, now⟩ (.jobClaim params)) pre with ⟨_, done⟩ | same
    · obtain ⟨result, claimed, _⟩ := yields_map.mp done
      exact fun new mem => .inr (jobClaim_follows sound claimed new mem)
    · rw [Operation.apply, same]
      exact stays fun _ => id
  | jobClaimByID params =>
    rcases committed_cases (Operation.run ⟨engine, now⟩ (.jobClaimByID params)) pre with ⟨_, done⟩ | same
    · obtain ⟨result, claimed, _⟩ := yields_map.mp done
      exact fun new mem => .inr (jobClaimByID_follows claimed new mem)
    · rw [Operation.apply, same]
      exact stays fun _ => id
  | jobRetryOrderingKey params =>
    exact jobRetryOrderingKey_follows (show Yields (W.jobRetryOrderingKey ⟨engine, now⟩ params) pre _ _ from rfl)
  | _ => exact kept id id fun _ => id

end

/-- What the mark of a running job tells: whether it was woken during its
claim, at a time not before its start. -/
structure Marked (engine : Engine) (steps : List (Int × Operation)) (row : LiveJob) : Prop where
  started : ∃ attempted ∈ steps.map Prod.fst, row.attemptedAt = some attempted ∧
    ∀ wake, row.wakeRequestedAt = some wake → attempted ≤ wake
  reason : row.snoozeReason = none
  woken : row.wakeRequestedAt ≠ none ↔ WokenDuring engine row.id row.fence steps

variable {engine : Engine} {row : LiveJob}

theorem wokenDuring_cons {now : Int} {operation : Operation} {earlier : List (Int × Operation)}
    (held : row ∈ (Operation.after engine earlier).jobs) {fence : Int} :
    WokenDuring engine row.id fence ((now, operation) :: earlier) ↔ row.state = .running ∧ row.fence = fence ∧
      (WakesKey operation row ∨ WokenDuring engine row.id fence earlier) := by
  have found : (Operation.after engine earlier).jobs.find? row.id = some row := Table.find?_eq_some.mpr ⟨held, rfl⟩
  simp only [WokenDuring, found, some.injEq, exists_eq_left']

variable {steps : List (Int × Operation)}

theorem run_marked (timed : Timed steps)
    (allowed : Operation.AllAllowed engine (fun _ operation => operation.PositiveClient) steps) :
    ∀ row ∈ (Operation.after engine steps).jobs,
      (row.state = .running → Marked engine steps row) ∧ (row.state ≠ .running → row.wakeRequestedAt = none) := by
  induction steps with
  | nil => exact Table.forall_mem_empty
  | cons step earlier ih =>
    obtain ⟨now, operation⟩ := step
    have bound := (pairwise_cons.mp timed).1
    have ih := ih (pairwise_cons.mp timed).2 allowed.2
    have sound := (positive_reached allowed.2.reachable).sound
    intro new mem
    rcases apply_follows sound operation allowed.1 new mem with unmarked | ⟨old, held, id, follows⟩
    · exact ⟨fun running => absurd running unmarked.idle, fun _ => unmarked.mark⟩
    · obtain ⟨marked, idle⟩ := ih old held
      cases follows with
      | runs pre after fence attemptedAt reason mark =>
        refine ⟨fun _ => ?_, fun waits => absurd after waits⟩
        obtain ⟨⟨attempted, among, started, wakes⟩, unreasoned, woken⟩ := marked pre
        refine ⟨⟨attempted, mem_cons_of_mem _ among, attemptedAt.trans started, fun wake marked => ?_⟩,
          reason.trans unreasoned, ?_⟩
        · rcases mark with ⟨_, wake⟩ | ⟨_, same⟩
          · cases wake.symm.trans marked
            exact bound attempted among
          · exact wakes wake (same ▸ marked)
        · rw [id, wokenDuring_cons held, fence]
          rcases mark with ⟨wakes, marked⟩ | ⟨quiet, same⟩
          · simp [pre, wakes, marked]
          · simp [pre, quiet, same, ← woken]
      | waits pre after mark =>
        exact ⟨fun running => absurd running after, fun _ => mark.trans (idle pre)⟩
      | starts pre attemptedAt reason mark =>
        have unmarked := mark.trans (idle pre)
        refine ⟨fun _ => ⟨⟨now, mem_cons_self, attemptedAt, fun wake marked => ?_⟩, reason, ?_⟩, fun _ => unmarked⟩
        · exact absurd (unmarked.symm.trans marked) nofun
        · rw [id, wokenDuring_cons held]
          exact ⟨fun marked => absurd unmarked marked, fun woken => absurd woken.1 pre⟩

/-- The rules of an operation that ends attempts: it leaves the jobs that ran in
one way, and changes no other that does not wait for dependencies. -/
def endRules (leaves : LiveJob → LiveJob → Prop) : Rules :=
  { Rules.none with
    starts := fun _ => False
    edits := False
    replaces := fun _ _ => False
    resumes := leaves }

/-- A job that ran is as it was, as its end left it, or gone. -/
structure LeftBy (leaves : LiveJob → LiveJob → Prop) (row : LiveJob) (roster : Roster) : Prop where
  known : roster.Known row.id
  rows : ∀ new ∈ roster.jobs, new.id = row.id → new = row ∨ leaves row new ∧ new.state.waiting = true

section
variable {leaves : LiveJob → LiveJob → Prop} {pre post : Roster}

theorem LeftBy.step (left : LeftBy leaves row pre) (running : row.state = .running)
    (change : Change (endRules leaves) pre post) : LeftBy leaves row post where
  known := change.known_mono left.known
  rows := by
    intro new mem id
    rcases change.origin mem with ⟨old, held, goes⟩ | arrives
    · have there := left.rows old held (goes.kept.id.symm.trans id)
      cases goes with
      | touched touched =>
        rcases touched.settled with pending | equal | edits | replaces
        · rcases there with rfl | ⟨_, waits⟩
          · cases running.symm.trans pending
          · exact absurd pending (JobState.waiting_ne_pending waits)
        · rwa [equal]
        · exact edits.elim
        · exact replaces.elim
      | started starts => exact starts.allowed.elim
      | resumed runs resumed =>
        rcases there with rfl | ⟨_, waits⟩
        · exact .inr ⟨resumed.resumes, resumed.waits⟩
        · exact absurd runs (JobState.waiting_ne_running waits)
    · cases arrives.arrival with
      | born _ _ _ unknown => exact absurd (id ▸ left.known) unknown
      | revived _ _ _ edits => exact edits.elim

theorem left_of_apply {store : Store} {now : Int} {operation : Operation} (sound : Sound engine store)
    (obeys : Obeys (endRules leaves) ⟨engine, now⟩ store operation) (held : row ∈ store.jobs) (running : row.state = .running)
    {left : LiveJob} (mem : left ∈ (operation.apply engine now store).jobs) (same : left.id = row.id)
    (ended : left.state ≠ .running) : leaves row left := by
  have changes := ((apply_performs obeys sound).moves sound).1
  have fate : LeftBy leaves row (roster (operation.apply engine now store)) :=
    changes.invariant (fun _ _ _ change left => left.step running change) sound.identity
      ⟨sound.identity.jobs_known row held, fun new mem id => .inl (Table.eq_of_key mem held id)⟩
  rcases fate.rows left mem same with rfl | ⟨leaves, _⟩
  · exact absurd running ended
  · exact leaves

end

theorem Marked.woken_iff
    (marked : Marked engine steps row) : W.woken row = true ↔ WokenDuring engine row.id row.fence steps := by
  obtain ⟨attempted, _, started, after⟩ := marked.started
  rw [← marked.woken, W.woken, started]
  cases mark : row.wakeRequestedAt with
  | none => simp
  | some wake => simp [after wake mark]

/-- In every run at times that do not decrease, a result that leaves a running
job waiting makes it due at once, and drops its reason, if a wake of its
ordering key took effect during that claim, and due after the result's own
delay if none did; an expired lease makes it due at once. -/
theorem ordering_wake_honored {engine : Engine} {steps : List (Int × Operation)} {now : Int} {operation : Operation}
    (timed : Timed ((now, operation) :: steps))
    (allowed : Operation.AllAllowed engine (fun _ operation => operation.PositiveClient) ((now, operation) :: steps))
    {row left : LiveJob} (held : row ∈ (Operation.after engine steps).jobs) (running : row.state = .running)
    (member : left ∈ (Operation.after engine ((now, operation) :: steps)).jobs) (same : left.id = row.id)
    (ended : left.state ≠ .running) :
    (∀ params, operation = .jobFinalizeMany params → ∃ result ∈ params.jobs, result.id = row.id ∧
      (encodeResult result).fence = row.fence ∧
      (WokenDuring engine row.id row.fence steps → left.scheduledAt = now ∧ left.snoozeReason = none) ∧
      (¬WokenDuring engine row.id row.fence steps → left.scheduledAt = W.after ⟨engine, now⟩ (max result.delay 0))) ∧
    (∀ params, operation = .jobExpireLeases params → left.scheduledAt = now ∧ left.snoozeReason = none) := by
  have sound := (positive_reached allowed.2.reachable).sound
  have marked := (run_marked (pairwise_cons.mp timed).2 allowed.2 row held).1 running
  constructor
  · rintro params rfl
    have obeys : Obeys (endRules fun old new => ∃ result ∈ params.jobs, result.id = old.id ∧
          (encodeResult result).fence = old.fence ∧
          new = W.resumed ⟨engine, now⟩ (encodeResult result) (keepLogs params.keepLogs) old)
        ⟨engine, now⟩ (Operation.after engine steps) (.jobFinalizeMany params) :=
      ⟨fun result among _ _ _ id fence _ => ⟨result, among, id.symm, fence.symm, rfl⟩, fun _ _ _ _ => trivial⟩
    obtain ⟨result, among, id, fence, rfl⟩ := left_of_apply sound obeys held running member same ended
    refine ⟨result, among, id, fence, fun woken => ?_, fun quiet => ?_⟩
    · have woken := marked.woken_iff.mpr woken
      simp [W.resumed, woken]
    · rw [← marked.woken_iff, Bool.not_eq_true] at quiet
      simp [W.resumed, quiet, encodeResult]
  · rintro params rfl
    have obeys : Obeys (endRules fun old new => new = W.leaseRetried ⟨engine, now⟩ old) ⟨engine, now⟩
        (Operation.after engine steps) (.jobExpireLeases params) := fun _ _ _ => rfl
    obtain rfl := left_of_apply sound obeys held running member same ended
    exact ⟨rfl, marked.reason⟩

/-- A job of an ordering key that is woken while it runs. -/
def wokenWhileRunning : List (Int × Operation) :=
  [(20, .jobRetryOrderingKey { queue := "default", orderingKey := "account", limit := 1 }),
   (10, .jobClaim { queue := "default", clientID := 9, limit := 1 }),
   (0, .jobInsertMany [{ kind := "mail", queue := "default", priority := 2, maxAttempts := 3, orderingKey := "account" }] {})]

def snoozeOfMail : Operation :=
  .jobFinalizeMany { jobs := [{ id := 1, attemptedBy := 9, fence := 1, state := .scheduled, snooze := true,
                                snoozeReason := "busy", delay := 5000000 }] }

theorem ordering_wake_honored_snooze : ∃ left ∈ (Operation.after .counting ((30, snoozeOfMail) :: wokenWhileRunning)).jobs,
      left.state = .scheduled ∧ left.scheduledAt = 30 ∧ left.snoozeReason = none := by
  have rows : ∃ row ∈ (Operation.after .counting wokenWhileRunning).jobs.rows, row.state = .running ∧ row.id = 1 ∧
      row.fence = 1 ∧ ∃ left ∈ (Operation.after .counting ((30, snoozeOfMail) :: wokenWhileRunning)).jobs.rows,
        left.id = 1 ∧ left.state = .scheduled := by
    decide +kernel
  have claimed : ((Operation.after .counting wokenWhileRunning.tail).jobs.find? 1).any fun row => decide
      (row.state = .running ∧ row.fence = 1 ∧ row.queue = "default" ∧ row.orderingKey = some "account") := by
    decide +kernel
  obtain ⟨row, held, running, id, fence, left, member, leftID, state⟩ := rows
  obtain ⟨earlier, found, facts⟩ := (Option.any_eq_true _ _).mp claimed
  obtain ⟨ran, ranFence, queue, key⟩ := of_decide_eq_true facts
  have timed : Timed ((30, snoozeOfMail) :: wokenWhileRunning) := by
    unfold Timed
    decide
  have allowed : Operation.AllAllowed .counting (fun _ operation => operation.PositiveClient)
      ((30, snoozeOfMail) :: wokenWhileRunning) :=
    ⟨trivial, trivial, (by decide : (0 : Int) < 9), trivial, trivial⟩
  have honored := ordering_wake_honored timed allowed held running member (leftID.trans id.symm) (by rw [state]; nofun)
  obtain ⟨result, _, _, _, woken, _⟩ := honored.1 _ rfl
  rw [id, fence] at woken
  exact ⟨left, member, state, woken ⟨earlier, found, ran, ranFence, .inl ⟨queue, key⟩⟩⟩

end Hopper.Guarantees
