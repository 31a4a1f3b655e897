import Hopper.Client.Lease

/-! A client that has lost its lease: what becomes of the jobs it claimed under
the ID it lost. -/

namespace Hopper.Guarantees

open List Option Driver Client Client.Process

/-- When `fence` stores a new ID, no claim that read the old one is in flight,
and no job it returned has yet to read a generation's context. -/
def Drained (process : Process) (event : Event) : Prop :=
  ∀ id newID, event = .storeID → process.fencing = some (.registered id newID) →
    (∀ call ∈ process.claims, call ≠ id) ∧
      ∀ job ∈ process.returned, job.clientID = id → job.attemptsLeft = false

/-- What `fence` has done at its stages. -/
def Staged (process : Process) : Fencing → Prop
  | .entered id => process.clientID = id
  | .canceled id => process.clientID = id ∧ process.genCtx ∈ process.canceled
  | .registered id newID => process.clientID = id ∧ process.genCtx ∈ process.canceled ∧
      id < newID ∧ newID ≤ process.issued
  | .stored id newID => process.clientID = newID ∧ process.genCtx ∈ process.canceled ∧ id < newID

/-- Jobs with attempts left are claimed, returned and run under the client's ID
and its generation, or their context is canceled. -/
structure Leased (process : Process) : Prop where
  issued : process.clientID ≤ process.issued
  earlier : ∀ number, number < process.genCtx → number ∈ process.canceled
  staged : ∀ stage, process.fencing = some stage → Staged process stage
  claims : ∀ call ∈ process.claims, call = process.clientID
  returned : ∀ job ∈ process.returned, job.attemptsLeft = true → job.clientID = process.clientID
  generation : ∀ pair ∈ process.running, pair.1.attemptsLeft = true →
    ∃ number ≤ process.genCtx, pair.2 = .generation number
  running : ∀ pair ∈ process.running, pair.1.attemptsLeft = true → pair.1.clientID ≠ process.clientID →
    process.isCanceled pair.2 = true

variable {pre post : Process}

theorem Staged.mono {stage : Fencing} (staged : Staged pre stage)
    (id : post.clientID = pre.clientID) (genCtx : post.genCtx = pre.genCtx)
    (canceled : ∀ number ∈ pre.canceled, number ∈ post.canceled)
    (issued : pre.issued ≤ post.issued) : Staged post stage := by
  cases stage with
  | entered => exact id.trans staged
  | canceled => exact ⟨id.trans staged.1, genCtx ▸ canceled _ staged.2⟩
  | registered =>
    exact ⟨id.trans staged.1, genCtx ▸ canceled _ staged.2.1, staged.2.2.1, staged.2.2.2.trans issued⟩
  | stored => exact ⟨id.trans staged.1, genCtx ▸ canceled _ staged.2.1, staged.2.2⟩

namespace Leased

variable {pre post : Process} {id newID : Int}

theorem start (id : Int) : Leased (Process.start id) where
  issued := le_rfl
  earlier := fun number less => absurd less (Nat.not_lt_zero number)
  staged := fun _ held => absurd held (Option.some_ne_none _).symm
  claims := forall_mem_nil _
  returned := forall_mem_nil _
  generation := forall_mem_nil _
  running := forall_mem_nil _

section
variable (leased : Leased pre)
include leased

theorem mono (id : post.clientID = pre.clientID) (genCtx : post.genCtx = pre.genCtx)
    (issued : pre.issued ≤ post.issued)
    (canceled : ∀ number ∈ pre.canceled, number ∈ post.canceled)
    (stopped : pre.stopped = true → post.stopped = true)
    (staged : ∀ stage, post.fencing = some stage → pre.fencing = some stage ∨ Staged post stage)
    (claims : ∀ call ∈ post.claims, call ∈ pre.claims ∨ call = pre.clientID)
    (returned : ∀ job ∈ post.returned, job.attemptsLeft = true → job ∈ pre.returned ∨ job.clientID = pre.clientID)
    (running : ∀ pair ∈ post.running, pair.1.attemptsLeft = true → pair ∈ pre.running ∨
      (pair.1.clientID = pre.clientID ∧ pair.2 = .generation pre.genCtx)) : Leased post where
  issued := id ▸ leased.issued.trans issued
  earlier := fun number less => canceled number (leased.earlier number (genCtx ▸ less))
  staged := by
    intro stage held
    rcases staged stage held with old | new
    · exact (leased.staged stage old).mono id genCtx canceled issued
    · exact new
  claims := by
    intro call mem
    rcases claims call mem with old | new
    · exact (leased.claims call old).trans id.symm
    · exact new.trans id.symm
  returned := by
    intro job mem left
    rcases returned job mem left with old | new
    · exact (leased.returned job old left).trans id.symm
    · exact new.trans id.symm
  generation := by
    intro pair mem left
    rw [genCtx]
    rcases running pair mem left with old | new
    · exact leased.generation pair old left
    · exact ⟨pre.genCtx, le_rfl, new.2⟩
  running := by
    intro pair mem left other
    rw [id] at other
    rcases running pair mem left with old | new
    · have was := leased.running pair old left other
      cases context : pair.2 with
      | work =>
        rw [context] at was
        exact stopped was
      | generation number =>
        rw [context] at was
        simp only [isCanceled, Bool.or_eq_true, decide_eq_true_eq] at was ⊢
        exact was.imp stopped (canceled number)
    · exact absurd new.1 other

theorem all_canceled (canceled : pre.genCtx ∈ pre.canceled)
    {pair : ClaimedJob × Context} (mem : pair ∈ pre.running) (left : pair.1.attemptsLeft = true) :
    pre.isCanceled pair.2 = true := by
  obtain ⟨number, bound, context⟩ := leased.generation pair mem left
  have gone : number ∈ pre.canceled := by
    rcases Nat.lt_or_eq_of_le bound with less | rfl
    · exact leased.earlier number less
    · exact canceled
  simp [context, isCanceled, gone]

theorem storeID (held : pre.fencing = some (.registered id newID))
    (claims : ∀ call ∈ pre.claims, call ≠ id)
    (returned : ∀ job ∈ pre.returned, job.clientID = id → job.attemptsLeft = false) :
    Leased { pre with clientID := newID, fencing := some (.stored id newID) } := by
  obtain ⟨same, canceled, less, issued⟩ := leased.staged _ held
  exact {
    issued := issued
    earlier := leased.earlier
    staged := by
      intro stage stored
      cases stored
      exact ⟨rfl, canceled, less⟩
    claims := fun call mem => absurd ((leased.claims call mem).trans same) (claims call mem)
    returned := by
      intro job mem left
      have none := returned job mem ((leased.returned job mem left).trans same)
      rw [none] at left
      cases left
    generation := leased.generation
    running := fun pair mem left _ => leased.all_canceled canceled mem left }

theorem newGeneration (held : pre.fencing = some (.stored id newID)) :
    Leased { pre with genCtx := pre.genCtx + 1, fencing := none } := by
  obtain ⟨_, canceled, _⟩ := leased.staged _ held
  exact {
    issued := leased.issued
    earlier := by
      intro number less
      rcases Nat.lt_or_eq_of_le (Nat.le_of_lt_succ less) with earlier | rfl
      · exact leased.earlier number earlier
      · exact canceled
    staged := fun _ none => absurd none (Option.some_ne_none _).symm
    claims := leased.claims
    returned := leased.returned
    generation := by
      intro pair mem left
      obtain ⟨number, bound, context⟩ := leased.generation pair mem left
      exact ⟨number, Nat.le_succ_of_le bound, context⟩
    running := leased.running }

theorem start_job {job : Nat} {claimed : ClaimedJob} (found : pre.returned[job]? = some claimed) :
    Leased { pre with
      returned := pre.returned.eraseIdx job
      running := pre.running ++ [(claimed, pre.jobContext claimed.row)] } := by
  refine leased.mono rfl rfl le_rfl (fun _ mem => mem) id (fun _ held => .inl held)
    (fun _ mem => .inl mem) (fun _ mem _ => .inl (mem_of_mem_eraseIdx mem)) fun pair mem left => ?_
  rcases List.mem_append.mp mem with old | new
  · exact .inl old
  · cases mem_singleton.mp new
    refine .inr ⟨leased.returned claimed (mem_of_getElem? found) left, ?_⟩
    rw [ClaimedJob.attemptsLeft, decide_eq_true_eq] at left
    exact if_neg (not_le.mpr left)

theorem step {event : Event} (drained : Drained pre event)
    (stepped : pre.step event = some post) : Leased post := by
  cases event with
  | claim =>
    cases stepped
    refine leased.mono rfl rfl le_rfl (fun _ mem => mem) id (fun _ held => .inl held) (fun call mem => ?_)
      (fun _ mem _ => .inl mem) fun _ mem _ => .inl mem
    exact (List.mem_append.mp mem).imp id mem_singleton.mp
  | returns =>
    obtain ⟨id, found, rfl⟩ := map_eq_some_iff.mp stepped
    refine leased.mono rfl rfl le_rfl (fun _ mem => mem) (fun stops => stops) (fun _ held => .inl held)
      (fun _ mem => .inl (mem_of_mem_eraseIdx mem)) (fun job mem _ => ?_)
      fun _ mem _ => .inl mem
    rcases List.mem_append.mp mem with old | new
    · exact .inl old
    · obtain ⟨row, _, rfl⟩ := mem_map.mp new
      exact .inr (leased.claims id (mem_of_getElem? found))
  | start =>
    simp only [Process.step] at stepped
    split at stepped
    · cases stepped
    · next claimed found =>
      split at stepped
      · cases stepped
      · cases stepped
        exact leased.start_job found
  | finish =>
    cases stepped
    exact leased.mono rfl rfl le_rfl (fun _ mem => mem) id (fun _ held => .inl held)
      (fun _ mem => .inl mem) (fun _ mem _ => .inl mem)
      fun _ mem _ => .inl (mem_of_mem_eraseIdx mem)
  | fence =>
    simp only [Process.step] at stepped
    split at stepped
    · cases stepped
    · split at stepped
      · cases stepped
        exact leased
      · next same =>
        cases stepped
        refine leased.mono rfl rfl le_rfl (fun _ mem => mem) (fun stops => stops) (fun stage held => .inr ?_)
          (fun _ mem => .inl mem) (fun _ mem _ => .inl mem) fun _ mem _ => .inl mem
        cases held
        exact not_not.mp same
  | genCancel =>
    simp only [Process.step] at stepped
    split at stepped
    · next lost held =>
      cases stepped
      have same := leased.staged _ held
      refine leased.mono rfl rfl le_rfl (fun _ mem => mem_cons_of_mem _ mem) id (fun stage now => .inr ?_)
        (fun _ mem => .inl mem) (fun _ mem _ => .inl mem) fun _ mem _ => .inl mem
      cases now
      exact ⟨same, mem_cons_self⟩
    · cases stepped
  | register =>
    simp only [Process.step] at stepped
    split at stepped
    · next lost held =>
      cases stepped
      obtain ⟨same, canceled⟩ := leased.staged _ held
      refine leased.mono rfl rfl (Int.le_add_one le_rfl) (fun _ mem => mem) id (fun stage now => .inr ?_)
        (fun _ mem => .inl mem) (fun _ mem _ => .inl mem) fun _ mem _ => .inl mem
      cases now
      exact ⟨same, canceled, Int.lt_add_one_of_le (same ▸ leased.issued), le_rfl⟩
    · cases stepped
  | registerFails =>
    simp only [Process.step] at stepped
    split at stepped
    · cases stepped
      refine leased.mono rfl rfl le_rfl (fun _ mem => mem) id (fun stage now => ?_)
        (fun _ mem => .inl mem) (fun _ mem _ => .inl mem) fun _ mem _ => .inl mem
      cases now
    · cases stepped
  | storeID =>
    simp only [Process.step] at stepped
    split at stepped
    · next id newID held =>
      cases stepped
      obtain ⟨claims, returned⟩ := drained id newID rfl held
      exact leased.storeID held claims returned
    · cases stepped
  | newGeneration =>
    simp only [Process.step] at stepped
    split at stepped
    · next id newID held =>
      cases stepped
      exact leased.newGeneration held
    · cases stepped
  | issue =>
    cases stepped
    exact leased.mono rfl rfl (Int.le_add_one le_rfl) (fun _ mem => mem) id (fun _ held => .inl held)
      (fun _ mem => .inl mem) (fun _ mem _ => .inl mem) fun _ mem _ => .inl mem
  | stop =>
    cases stepped
    exact leased.mono rfl rfl le_rfl (fun _ mem => mem) (fun _ => rfl) (fun _ held => .inl held)
      (fun _ mem => .inl mem) (fun _ mem _ => .inl mem) fun _ mem _ => .inl mem

end

theorem steps {first last : Process} (leased : Leased first) (steps : Steps Drained first last) : Leased last := by
  induction steps with
  | refl => exact leased
  | tail _ step ih =>
    obtain ⟨event, drained, stepped⟩ := step
    exact ih.step drained stepped

end Leased

/-- The client is past an ID: `fence` has registered another for it, or the
client has it already. -/
def Past (id : Int) (process : Process) : Prop :=
  (∃ newID, process.fencing = some (.registered id newID)) ∨ id < process.clientID

variable {event : Event}

theorem step_clientID (stepped : pre.step event = some post) :
    (∃ id newID, pre.fencing = some (.registered id newID) ∧ post.clientID = newID) ∨ (post.clientID = pre.clientID ∧
        ∀ id newID, pre.fencing = some (.registered id newID) → post.fencing = pre.fencing) := by
  cases event with
  | claim | finish | issue | stop =>
    cases stepped
    exact .inr ⟨rfl, fun _ _ _ => rfl⟩
  | returns =>
    obtain ⟨_, _, rfl⟩ := map_eq_some_iff.mp stepped
    exact .inr ⟨rfl, fun _ _ _ => rfl⟩
  | start =>
    simp only [Process.step] at stepped
    split at stepped
    · cases stepped
    · split at stepped
      · cases stepped
      · cases stepped
        exact .inr ⟨rfl, fun _ _ _ => rfl⟩
  | fence =>
    simp only [Process.step] at stepped
    split at stepped
    · cases stepped
    · next free =>
      have none (stage : Fencing) : pre.fencing ≠ some stage := fun held => free (by simp [held])
      split at stepped <;> cases stepped
      · exact .inr ⟨rfl, fun _ _ _ => rfl⟩
      · exact .inr ⟨rfl, fun _ _ held => absurd held (none _)⟩
  | genCancel | register | registerFails | newGeneration =>
    simp only [Process.step] at stepped
    split at stepped
    · next stage =>
      cases stepped
      exact .inr ⟨rfl, fun _ _ held => by simp [stage] at held⟩
    · cases stepped
  | storeID =>
    simp only [Process.step] at stepped
    split at stepped
    · next id newID held =>
      cases stepped
      exact .inl ⟨id, newID, held, rfl⟩
    · cases stepped

variable {lost : Int}

theorem Past.step (past : Past lost pre)
    (leased : Leased pre) (stepped : pre.step event = some post) : Past lost post := by
  rcases step_clientID stepped with ⟨id, newID, held, stored⟩ | ⟨same, kept⟩
  · obtain ⟨current, _, less, _⟩ := leased.staged _ held
    right
    rcases past with ⟨other, registered⟩ | earlier
    · cases held.symm.trans registered
      exact stored ▸ less
    · exact stored ▸ (current ▸ earlier).trans less
  · rcases past with ⟨newID, registered⟩ | earlier
    · exact .inl ⟨newID, (kept _ _ registered).trans registered⟩
    · exact .inr (same ▸ earlier)

theorem Past.steps {first last : Process} (past : Past lost first) (leased : Leased first)
    (steps : Steps Drained first last) : Past lost last := by
  induction steps with
  | refl => exact past
  | tail earlier step ih =>
    obtain ⟨event, _, stepped⟩ := step
    exact ih.step (leased.steps earlier) stepped

/-- Once `fence` of an ID has registered another, no job claimed under the ID
runs, or is started, with attempts left and a context that is not canceled. -/
theorem lost_lease_stops_jobs {id lost newID : Int} {middle last : Process}
    (first : Steps Drained (Process.start id) middle) (fenced : middle.fencing = some (.registered lost newID))
    (rest : Steps Drained middle last) :
    ∀ pair ∈ last.running, pair.1.clientID = lost → pair.1.attemptsLeft = true → last.isCanceled pair.2 = true := by
  intro pair member claimed left
  have before := (Leased.start id).steps first
  have leased := before.steps rest
  rcases Past.steps (.inl ⟨newID, fenced⟩) before rest with ⟨other, registered⟩ | past
  · exact leased.all_canceled (leased.staged _ registered).2.1 member left
  · exact leased.running pair member left (by omega)

def firstAttempt : JobRow :=
  { id := 7, seq := 1, kind := "mail", queue := "default", state := .running, priority := 1, attempt := 1,
    maxAttempts := 3, scheduledAt := 0, attemptedAt := some 0, attemptedBy := some 1, args := "", metadata := .object [],
    errors := [], uniqueKey := none, orderingKey := none, partitionKey := none, batchID := none, expiresAt := none,
    cancelRequestedAt := none, await := false, createdAt := 0, progress := none, tags := [], fence := 1, logs := none }

/-- The job runs before the lease is lost. -/
theorem lost_lease_stops_jobs_running :
    ∃ middle last, Steps Drained (Process.start 1) middle ∧ middle.fencing = some (.registered 1 2) ∧
      Steps Drained middle last ∧ last.running = [(⟨1, firstAttempt⟩, .generation 0)] ∧
      last.isCanceled (.generation 0) = true := by
  have quiet {events : List Event} (none : .storeID ∉ events) : ∀ event ∈ events, ∀ process, Drained process event := by
    rintro event member process id newID rfl _
    exact absurd member none
  obtain ⟨middle, reached⟩ : ∃ middle, (Process.start 1).after
      [.claim, .returns 0 [firstAttempt], .start 0, .fence 1, .genCancel, .register] = some middle := ⟨_, rfl⟩
  have first := after_steps (quiet (by simp)) reached
  have fenced : middle.fencing = some (.registered 1 2) := by
    cases reached
    rfl
  obtain ⟨last, stored⟩ : ∃ last, middle.step .storeID = some last := by
    cases reached
    exact ⟨_, rfl⟩
  have drained : Drained middle .storeID := by
    cases reached
    exact fun _ _ _ _ => ⟨forall_mem_nil _, forall_mem_nil _⟩
  have rest : Steps Drained middle last := .single ⟨.storeID, drained, stored⟩
  have running : last.running = [(⟨1, firstAttempt⟩, .generation 0)] := by
    cases reached
    cases stored
    rfl
  exact ⟨middle, last, first, fenced, rest, running, lost_lease_stops_jobs first fenced rest _ (running ▸ mem_cons_self) rfl rfl⟩

/-- A claim that reads the ID before `fence` and returns after it: its job runs
under the new generation. -/
theorem claim_outlives_fence : ∃ middle last pair, Steps (fun _ _ => True) (Process.start 1) middle ∧
      middle.fencing = some (.registered 1 2) ∧ Steps (fun _ _ => True) middle last ∧ pair ∈ last.running ∧
      pair.1.clientID = 1 ∧ pair.1.attemptsLeft = true ∧ last.isCanceled pair.2 = false := by
  obtain ⟨middle, reached⟩ : ∃ middle, (Process.start 1).after [.claim, .fence 1, .genCancel, .register] = some middle :=
    ⟨_, rfl⟩
  obtain ⟨last, ran⟩ : ∃ last, middle.after [.storeID, .newGeneration, .returns 0 [firstAttempt], .start 0] = some last := by
    cases reached
    exact ⟨_, rfl⟩
  refine ⟨middle, last, (⟨1, firstAttempt⟩, .generation 1), after_steps (fun _ _ _ => trivial) reached, ?_,
    after_steps (fun _ _ _ => trivial) ran, ?_⟩
  all_goals cases reached
  · rfl
  · cases ran
    exact ⟨mem_cons_self, rfl, rfl, rfl⟩

end Hopper.Guarantees
