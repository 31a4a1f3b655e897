import Hopper.Client.Outcome
import Hopper.Lifecycle.Runs
import Mathlib.Data.List.Pairwise

/-! The attempt budget. No claim checks it: each way an attempt ends, and each
way a job comes to wait, has to leave the job attempts. -/

namespace Hopper.Guarantees

open List Kernel Driver Sqlite Lifecycle Client

/-- A row that a client read of a claim: as the claim returned it, or of the
job while it ran in it. -/
structure ReadIn (store : Store) (read : JobRow) (claim : LiveJob) : Prop where
  claimed : .claimed claim ∈ store.journal
  id : read.id = claim.id
  fence : read.fence = claim.fence
  attempt : read.attempt = claim.attempt
  maxAttempts : read.maxAttempts = claim.maxAttempts

/-- The results clients write: of a worker's return, of a leased attempt, of a
claim in flight as the client stops, and of a rescue. An attempt is replaced
only by a later claim of its job. -/
inductive Computed (store : Store) : JobFinalize → Prop where
  | worked (read : JobRow) (claim : LiveJob) (attempt : Attempt) (output : String) (log : Option AttemptLog)
      (of : ReadIn store read claim)
      (replaced : attempt.replaced = true →
        ∃ later, .claimed later ∈ store.journal ∧ later.id = claim.id ∧ claim.fence < later.fence) :
      Computed store (withOutput (outcome read attempt) output log)
  | leased (read : JobRow) (claim : LiveJob) (attempt : Attempt) (output : String) (token : JobID)
      (of : ReadIn store read claim) (current : attempt.replaced = false) :
      Computed store (leasedResult (withOutput (outcome read attempt) output none) ⟨token, read.fence⟩)
  | interrupted (read : JobRow) (claim : LiveJob) (of : ReadIn store read claim) :
      Computed store (interruptedResult read)
  | rescued (candidate : RescueCandidate) (claim : LiveJob) (of : ReadIn store candidate.job claim) :
      Computed store (rescueResult candidate)

/-- Jobs are inserted with one attempt at least, and the results written are
those clients compute. -/
def Intended (store : Store) : Operation → Prop
  | .jobInsertMany params _ => ∀ given ∈ params, 1 ≤ given.maxAttempts
  | .periodicInsert params => 1 ≤ params.job.maxAttempts
  | .workflowInsert params => ∀ given ∈ params.jobs, 1 ≤ given.maxAttempts
  | .messagePublish params => ∀ row ∈ store.subscriptions,
      1 ≤ W.deliveryAttempts row.maxAttempts (params.orderingKey ≠ "")
  | .streamPump _ _ => ∀ row ∈ store.consumers, ∀ ordered, 1 ≤ W.deliveryAttempts row.maxAttempts ordered
  | .jobClaim params => 0 < params.clientID
  | .jobFinalizeMany params => ∀ result ∈ params.jobs, Computed store result
  | _ => True

/-- A replacing insert allows more attempts than the waiting job it replaces
has used. -/
def ReplacesWithin (store : Store) : Operation → Prop
  | .jobInsertMany params opts => opts.onConflict = .replace → ∀ given ∈ params, ∀ row ∈ store.jobs,
      row.kind = given.kind → row.uniqueKey = some given.uniqueKey → row.state ≠ .running →
      row.attempt < given.maxAttempts
  | _ => True

def budgetRules : Rules :=
  { Rules.none with
    attempts := fun count => 0 < count
    attempts_pos := fun _ positive => positive
    replaces := fun old new => old.state ≠ .running ∧ old.attempt < new.maxAttempts
    resumes := fun _ new => new.attempt < new.maxAttempts }

/-- Jobs that wait have attempts left, and those that run have the attempt
their claim gave them, which is within their budget. -/
structure Budgeted (roster : Roster) : Prop where
  waits : ∀ row ∈ roster.jobs, row.state ≠ .running → row.attempt < row.maxAttempts
  runs : ∀ row ∈ roster.jobs, row.state = .running → ∃ claim, .claimed claim ∈ roster.journal ∧
    claim.id = row.id ∧ claim.fence = row.fence ∧ claim.attempt = row.attempt ∧
    claim.maxAttempts = row.maxAttempts
  claims : ∀ claim, .claimed claim ∈ roster.journal → claim.attempt ≤ claim.maxAttempts

namespace Budgeted

variable {pre post : Roster}

theorem empty : Budgeted (roster {}) where
  waits := Table.forall_mem_empty
  runs := Table.forall_mem_empty
  claims := fun _ mem => absurd mem not_mem_nil

theorem step (budgeted : Budgeted pre) (change : Change budgetRules pre post) : Budgeted post where
  waits := by
    intro row mem idle
    rcases change.origin mem with ⟨old, held, goes⟩ | arrives
    · cases goes with
      | touched touched =>
        rw [touched.attempt]
        rcases touched.budget with same | ⟨_, left⟩
        · rw [same]
          exact budgeted.waits old held fun running => idle (touched.running.mpr running)
        · exact left
      | started starts => exact absurd starts.running idle
      | resumed _ resumed => exact resumed.resumes
    · cases arrives.arrival with
      | born _ _ _ _ fresh attempts =>
        rw [fresh.attempt]
        exact attempts
      | revived _ _ revived => exact revived.budget
  runs := by
    intro row mem running
    rcases change.origin mem with ⟨old, held, goes⟩ | arrives
    · cases goes with
      | touched touched =>
        have ran := touched.running.mp running
        obtain ⟨claim, entered, facts⟩ := budgeted.runs old held ran
        rcases touched.budget with same | ⟨idle, _⟩
        · rw [touched.id, touched.fence, touched.attempt, same]
          exact ⟨claim, change.journal_suffix.subset entered, facts⟩
        · exact absurd ran idle
      | started starts => exact ⟨row, starts.entered, rfl, rfl, rfl, rfl⟩
      | resumed _ resumed => exact absurd running (JobState.waiting_ne_running resumed.waits)
    · exact absurd running arrives.unmarked.1
  claims := by
    intro claim entered
    obtain ⟨events, enters⟩ := change.enters
    rw [enters.journal] at entered
    rcases List.mem_append.mp entered with new | earlier
    · obtain ⟨_, old, held, starts⟩ := enters.claims claim new
      have left := budgeted.waits old held (JobState.waiting_ne_running starts.startable.waits)
      obtain ⟨x, owner, rfl⟩ := starts.started
      dsimp only [W.started]
      omega
    · exact budgeted.claims claim earlier

end Budgeted

section
variable {engine : Engine} {store : Store} {result : JobFinalize} {x : W}

theorem Computed.of_claim (computed : Computed store result) :
    ∃ read claim, ReadIn store read claim ∧ result.id = claim.id ∧ (encodeResult result).fence = claim.fence ∧
      ((∃ later, .claimed later ∈ store.journal ∧ later.id = claim.id ∧ claim.fence < later.fence) ∨ Affords read result) := by
  cases computed with
  | worked read claim attempt output log of replaced =>
    have claimed : OfClaim read (outcome read attempt) := outcome_ofClaim
    refine ⟨read, claim, of, claimed.id.trans of.id, ?_, ?_⟩
    · simp only [encodeResult, withOutput, claimed.lease, Option.map_none, Option.getD_none]
      exact claimed.fence.trans of.fence
    · cases stale : attempt.replaced with
      | true => exact .inl (replaced stale)
      | false => exact .inr (outcome_affords stale)
  | leased read claim attempt output token of current =>
    have claimed : OfClaim read (outcome read attempt) := outcome_ofClaim
    exact ⟨read, claim, of, claimed.id.trans of.id, of.fence, .inr (outcome_affords current)⟩
  | interrupted read claim of =>
    exact ⟨read, claim, of, of.id, of.fence, .inr fun _ => .inr (.inl rfl)⟩
  | rescued candidate claim of =>
    exact ⟨candidate.job, claim, of, of.id, of.fence, .inr (rescueResult_affords candidate)⟩

theorem claim_unique (fenced : Fenced (roster store)) {first second : LiveJob}
    (firstEntered : .claimed first ∈ store.journal) (secondEntered : .claimed second ∈ store.journal)
    (id : first.id = second.id) (fence : first.fence = second.fence) : first = second := by
  by_contra different
  have pairwise := pairwise_filterMap.mp fenced.claims_distinct
  have : Std.Symm fun left right => ∀ claim, claim? left = some claim → ∀ other, claim? right = some other → claim ≠ other :=
    ⟨fun _ _ ne claim claims other others same => ne other others claim claims same.symm⟩
  have apart := pairwise.forall firstEntered secondEntered (by simpa using different)
  exact apart (first.id, first.fence) rfl (second.id, second.fence) rfl (by rw [id, fence])

theorem computed_leaves (budgeted : Budgeted (roster store)) (fenced : Fenced (roster store)) {keep : Nat}
    (computed : Computed store result) :
    Leaves budgetRules x keep (encodeResult result) store := by
  intro row mem running id fence waits
  obtain ⟨claim, entered, claimID, claimFence, attempt, budget⟩ := budgeted.runs row mem running
  obtain ⟨read, own, of, ownID, ownFence, ends⟩ := computed.of_claim
  have same : own = claim := by
    refine claim_unique fenced of.claimed entered ?_ ?_
    · rw [claimID, id]
      exact ownID.symm
    · rw [claimFence, fence]
      exact ownFence.symm
  subst same
  have within := budgeted.claims own entered
  rcases ends with ⟨later, laterEntered, laterID, newer⟩ | affords
  · have latest := fenced.live_latest row mem later.fence
      (mem_filterMap.mpr ⟨_, laterEntered, by simp [claim?, laterID, claimID]⟩)
    omega
  · show (if result.snooze || result.giveBack then row.attempt - 1 else row.attempt) < row.maxAttempts
    rw [← attempt, ← budget]
    split
    · omega
    · next spent =>
      rw [← of.attempt, ← of.maxAttempts]
      rcases affords waits with snoozes | gives | left
      · simp [snoozes] at spent
      · simp [gives] at spent
      · exact left

theorem reached_budgeted (reached : Reached budgetRules engine store) : Budgeted (roster store) :=
  reached.changes.invariant (fun _ _ _ change budgeted => budgeted.step change) .empty .empty

theorem obeys_budget {operation : Operation} (reached : Reached budgetRules engine store)
    (intended : Intended store operation) (replaces : ReplacesWithin store operation) :
    Obeys budgetRules x store operation := by
  cases operation with
  | jobInsertMany =>
    intro given mem job encoded middle grows
    have budget := intended given mem
    rw [encodeInsert_ok encoded]
    refine ⟨fun replacing row rowMem kind key idle => ⟨idle, ?_⟩, fun _ => trivial, ?_⟩
    · show row.attempt < given.maxAttempts
      rcases grows.jobs row rowMem with new | ⟨old, oldMem, attempt, oldKind, oldKey, _, running⟩
      · omega
      · rw [← attempt]
        exact replaces replacing given mem old oldMem (oldKind.trans kind) (oldKey.trans key) fun runs => idle (running.mp runs)
    · exact budget
  | periodicInsert =>
    intro job encoded middle grows
    rw [encodeInsert_ok encoded]
    exact ⟨nofun, fun _ => trivial, intended⟩
  | workflowInsert => exact fun given mem => intended given mem
  | messagePublish => exact fun row mem => intended row mem
  | streamPump => exact fun row mem ordered => intended row mem ordered
  | jobClaim => exact ⟨intended, trivial⟩
  | jobFinalizeMany =>
    refine ⟨fun result mem => ?_, fun _ _ _ _ => trivial⟩
    exact computed_leaves (reached_budgeted reached) reached.orderly.fenced (intended result mem)
  | jobExpireLeases => exact fun row _ left => left
  | jobRetry => exact ⟨trivial, fun _ _ _ => trivial⟩
  | _ => trivial

/-- A row that an earlier store of the run has running is read of a claim, as a
lease or a rescue reads it, and stays so while other operations run. -/
theorem readIn_of_earlier {past : List Store} (run : Run engine (fun store operation =>
      Intended store operation ∧ ReplacesWithin store operation) (store :: past)) :
    ∀ earlier ∈ store :: past, ∀ row ∈ earlier.jobs, row.state = .running → ∃ claim, ReadIn store (scanJob row) claim := by
  have reached (store : Store) (past : List Store) (run : Run engine (fun store operation =>
      Intended store operation ∧ ReplacesWithin store operation) (store :: past)) : Reached budgetRules engine store :=
    reachable_reached (fun _ _ _ reached allowed => obeys_budget reached allowed.1 allowed.2) ⟨past, run⟩
  have own (store : Store) (held : Reached budgetRules engine store) :
      ∀ row ∈ store.jobs, row.state = .running → ∃ claim, ReadIn store (scanJob row) claim := by
    intro row mem running
    obtain ⟨claim, entered, id, fence, attempt, budget⟩ := (reached_budgeted held).runs row mem running
    exact ⟨claim, entered, id.symm, fence.symm, attempt.symm, budget.symm⟩
  generalize equal : store :: past = stores at run ⊢
  induction run generalizing store past with
  | start =>
    cases equal
    intro earlier mem
    rw [mem_singleton.mp mem]
    exact own {} .refl
  | @step old older run now operation allowed ih =>
    cases equal
    have before := reached old older run
    have obeys := obeys_budget (x := ⟨engine, now⟩) before allowed.1 allowed.2
    intro earlier mem row rowMem running
    rcases mem_cons.mp mem with rfl | mem
    · exact own _ (before.step obeys) row rowMem running
    · obtain ⟨claim, of⟩ := ih rfl earlier mem row rowMem running
      have suffix := ((apply_performs obeys before.sound).moves before.sound).1.journal_suffix
      exact ⟨claim, { of with claimed := suffix.subset of.claimed }⟩

/-- What a client writes of a rescue candidate it listed earlier in the run is
computed. -/
theorem rescueResult_computed {past : List Store} {earlier : Store} {params : JobRescueParams} {candidate : RescueCandidate}
    (run : Run engine (fun store operation => Intended store operation ∧ ReplacesWithin store operation) (store :: past))
    (mem : earlier ∈ store :: past) (listed : candidate ∈ x.jobRescueCandidates params earlier) :
    Computed store (rescueResult candidate) := by
  obtain ⟨row, rowMem, running, _, scanned⟩ := W.mem_jobRescueCandidates listed
  obtain ⟨claim, of⟩ := readIn_of_earlier run earlier mem row rowMem running
  exact .rescued candidate claim (scanned ▸ of)

/-- While every replacing insert allows more attempts than the job it replaces
has used, no claim starts an attempt past its job's budget. -/
theorem attempts_within_budget (reachable : Reachable engine (fun store operation =>
      Intended store operation ∧ ReplacesWithin store operation) store) :
    ∀ row, .claimed row ∈ store.journal → row.attempt ≤ row.maxAttempts := by
  have reached := reachable_reached (fun _ _ _ reached allowed => obeys_budget reached allowed.1 allowed.2) reachable
  exact (reached_budgeted reached).claims

/-- The row of a job of 25 attempts as its first claim starts it. -/
def mailClaim : LiveJob :=
  W.started ⟨.counting, 10⟩ (some 9) (W.sequenced {} (W.newRow ⟨.counting, 0⟩
    { kind := "mail", queue := "default", priority := 1, maxAttempts := 25, uniqueKey := "account" } 1))

/-- The job fails its first attempt, an insert of its key replaces it with
other attempts allowed, and it is claimed again. -/
def replacedAfterFailure (maxAttempts : Int) : List (Int × Operation) :=
  [(20000000, .jobClaim { queue := "default", clientID := 9, limit := 1 }),
   (30, .jobInsertMany
      [{ kind := "mail", queue := "default", priority := 1, maxAttempts := maxAttempts, uniqueKey := "account" }]
      { onConflict := .replace }),
   (20, .jobFinalizeMany
      { jobs := [withOutput (outcome (scanJob mailClaim) { err := some { text := "no answer" } }) "" none] }),
   (10, .jobClaim { queue := "default", clientID := 9, limit := 1 }),
   (0, .jobInsertMany
      [{ kind := "mail", queue := "default", priority := 1, maxAttempts := 25, uniqueKey := "account" }] {})]

theorem mailClaim_computed : Computed (Operation.after .counting ((replacedAfterFailure 1).drop 3))
    (withOutput (outcome (scanJob mailClaim) { err := some { text := "no answer" } }) "" none) := by
  refine .worked _ mailClaim _ _ _ ⟨?_, rfl, rfl, rfl, rfl⟩ nofun
  decide +kernel

theorem replacedAfterFailure_intended {maxAttempts : Int} (positive : 1 ≤ maxAttempts) :
    Operation.AllAllowed .counting Intended (replacedAfterFailure maxAttempts) := by
  refine ⟨(by decide : (0 : Int) < 9), fun given mem => ?_, fun result mem => ?_, (by decide : (0 : Int) < 9),
    fun given mem => ?_, trivial⟩
  · rw [mem_singleton.mp mem]
    exact positive
  · rw [mem_singleton.mp mem]
    exact mailClaim_computed
  · rw [mem_singleton.mp mem]
    exact (by decide : (1 : Int) ≤ 25)

/-- A replacing insert that allows one attempt, once one has been used: the
claim after it starts the second. -/
theorem replaced_below_attempts_used : Reachable .counting Intended (Operation.after .counting (replacedAfterFailure 1)) ∧
      ∃ row, .claimed row ∈ (Operation.after .counting (replacedAfterFailure 1)).journal ∧ row.maxAttempts = 1 ∧ row.attempt = 2 := by
  refine ⟨(replacedAfterFailure_intended le_rfl).reachable, ?_⟩
  have claimed : ∃ row ∈ (Operation.after .counting (replacedAfterFailure 1)).jobs.rows,
      .claimed row ∈ (Operation.after .counting (replacedAfterFailure 1)).journal ∧ row.maxAttempts = 1 ∧ row.attempt = 2 := by
    decide +kernel
  obtain ⟨row, _, facts⟩ := claimed
  exact ⟨row, facts⟩

theorem attempts_within_budget_replaced : (Operation.after .counting (replacedAfterFailure 2)).journal.filterMap
        (fun event => match event with | .claimed row => some (row.attempt, row.maxAttempts) | _ => none) = [(2, 2), (1, 25)] ∧
      ∀ row, .claimed row ∈ (Operation.after .counting (replacedAfterFailure 2)).journal → row.attempt ≤ row.maxAttempts := by
  refine ⟨by decide +kernel, attempts_within_budget (Operation.AllAllowed.reachable ?_)⟩
  have intended : Operation.AllAllowed .counting Intended (replacedAfterFailure 2) :=
    replacedAfterFailure_intended (by decide)
  obtain ⟨claims, inserts, finalizes, claimsFirst, insertsFirst, _⟩ := intended
  refine ⟨⟨claims, trivial⟩, ⟨inserts, fun _ given member row rowMember _ _ _ => ?_⟩, ⟨finalizes, trivial⟩,
    ⟨claimsFirst, trivial⟩, ⟨insertsFirst, nofun⟩, trivial⟩
  rw [mem_singleton.mp member]
  have used : ∀ row ∈ (Operation.after .counting ((replacedAfterFailure 2).drop 2)).jobs.rows, row.attempt < 2 := by
    decide +kernel
  exact used row rowMember

end

end Hopper.Guarantees
