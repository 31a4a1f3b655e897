import Hopper.Lifecycle.Callbacks

/-! The accounts of batches and workflows: what a batch's row says of its jobs,
when it completes, and the callbacks it then inserts. -/

namespace Hopper.Guarantees

open List Option Kernel Driver Sqlite Lifecycle

/-- The inputs of a batch that were inserted as jobs of it or found finished. -/
def arrivals (store : Store) (batch : JobID) : Nat :=
  (Lifecycle.joined store.journal batch).length + (foundIn store.journal batch).length

/-- The inputs of a batch found finished and failed, and those inserted whose
latest ending was a failure and that are not live again. -/
def failedInputs (store : Store) (batch : JobID) : Nat :=
  (foundIn store.journal batch).count true +
    (Lifecycle.joined store.journal batch).countP fun id => !store.live id && failedLast store.journal id

def liveJobs (store : Store) (batch : JobID) : Nat :=
  store.jobs.rows.countP fun row => decide (row.batchID = some batch)

/-- What the callers of operations promise: a job is inserted only into a
batch that is there, and a finalize leaves the batches alone only if none of
its jobs is in one. -/
def MindsBatches (store : Store) : Operation → Prop
  | .jobInsertMany params _ => ∀ given ∈ params, given.batchID ≠ 0 → store.batches.has given.batchID = true
  | .periodicInsert params => params.job.batchID ≠ 0 → store.batches.has params.job.batchID = true
  | .jobClaim params => 0 < params.clientID
  | .jobFinalizeMany params => params.noBatches = true → ∀ row ∈ store.jobs,
      (∃ result ∈ params.jobs, result.id = row.id) → row.batchID = none
  | _ => True

def batchRules (revives : Store → HistoryJob → Prop) : Rules :=
  { Rules.none with
    joins := fun store batch => store.batches.has batch = true
    drops := fun row => row.batchID = none
    revives := revives }

section
variable {engine : Engine} {store : Store} {batch : JobID} {revives : Store → HistoryJob → Prop}

theorem obeys_batch {x : W} {operation : Operation} (minds : MindsBatches store operation)
    (revived : ∀ past ∈ store.history, revives store past) : Obeys (batchRules revives) x store operation := by
  cases operation with
  | jobInsertMany =>
    intro given mem job encoded middle grows
    rw [encodeInsert_ok encoded]
    exact ⟨fun _ _ _ _ _ _ => trivial, fun named => grows.batches _ (minds given mem named), trivial⟩
  | periodicInsert =>
    intro job encoded middle grows
    rw [encodeInsert_ok encoded]
    exact ⟨fun _ _ _ _ _ _ => trivial, fun named => grows.batches _ (minds named), trivial⟩
  | jobClaim => exact ⟨minds, trivial⟩
  | jobClaimByID => exact trivial
  | jobFinalizeMany => exact ⟨fun _ _ _ _ _ _ _ _ => trivial, minds⟩
  | workflowInsert | messagePublish => exact fun _ _ => trivial
  | streamPump | jobExpireLeases => exact fun _ _ _ => trivial
  | jobRetry => exact ⟨trivial, fun past mem _ => revived past mem⟩
  | _ => trivial

theorem batch_reached (reachable : Reachable engine MindsBatches store) : Reached (batchRules fun _ _ => True) engine store :=
  reachable_reached (fun _ _ _ _ minds => obeys_batch minds fun _ _ => trivial) reachable

theorem accounts_always : Accounts (batchRules fun _ _ => True) batch True where
  joins := fun _ held => held
  drops := fun row unbatched => by
    have none : row.batchID = none := unbatched
    simp [none]
  revives := fun _ _ _ _ _ _ _ => trivial

theorem present_eq_liveJobs (descent : Descent (roster store)) (batch : JobID) :
    (Lifecycle.joined store.journal batch).countP store.live = liveJobs store batch := by
  have named : ((store.jobs.rows.filter fun row => decide (row.batchID = some batch)).map fun row => row.id).length =
      liveJobs store batch := by
    rw [length_map, liveJobs, countP_eq_length_filter]
  rw [← named, countP_eq_length_filter]
  refine List.Perm.length_eq ((perm_ext_iff_of_nodup ?_ ?_).mpr fun id => ?_)
  · exact (descent.joined_nodup batch).filter _
  · exact store.jobs.distinct.sublist (filter_sublist.map _)
  · rw [mem_filter, live_iff]
    constructor
    · rintro ⟨mem, row, rowMem, rfl⟩
      have inBatch := (descent.live_joined rowMem).mp mem
      exact mem_map_of_mem (mem_filter.mpr ⟨rowMem, decide_eq_true inBatch⟩)
    · intro mem
      obtain ⟨row, selected, rfl⟩ := mem_map.mp mem
      obtain ⟨rowMem, inBatch⟩ := mem_filter.mp selected
      exact ⟨(descent.live_joined (show row ∈ (roster store).jobs from rowMem)).mpr (of_decide_eq_true inBatch), row, rowMem, rfl⟩

/-- Jobs come back to a batch only while it is incomplete. -/
def UnlessComplete (batch : JobID) (store : Store) (past : HistoryJob) : Prop :=
  past.batchID = some batch → ∀ row, store.batches.find? batch = some row → row.completedAt.isSome = false

theorem accounts_incomplete : Accounts (batchRules (UnlessComplete batch)) batch False where
  joins := fun _ held => held
  drops := accounts_always.drops
  revives := by
    intro store past incomplete inBatch row found complete
    rw [incomplete inBatch row found] at complete
    cases complete

theorem tally_counter {row : BatchRow} (found : store.batches.find? batch = some row) :
    (tally batch ⟨store, []⟩).counter = some row.counter := by
  rw [tally, found]
  rfl

section
variable (now : Int) {operation : Operation} (reached : Reached (batchRules fun _ _ => True) engine store)
  (minds : MindsBatches store operation)
include reached minds

theorem operation_posts (batch : JobID) : Relation.ReflTransGen (Tally.Posts True) (tally batch ⟨store, []⟩)
    (tally batch ⟨operation.apply engine now store, []⟩) := by
  have obeys : Obeys (batchRules fun _ _ => True) ⟨engine, now⟩ store operation :=
    obeys_batch minds fun _ _ => trivial
  exact (Acts.posts (apply_performs obeys reached.sound) accounts_always reached.traced).2

theorem batch_lasts {row : BatchRow} (found : store.batches.find? batch = some row) :
    ∃ later, (operation.apply engine now store).batches.find? batch = some later ∧ later.total = row.total ∧
      (row.completedAt.isSome = true → later.counter = row.counter) := by
  have posts := operation_posts now reached minds batch
  obtain ⟨kept, is, same⟩ := Tally.posts_total posts (tally_counter found)
  obtain ⟨later, laterFound, rfl⟩ := map_eq_some_iff.mp is
  refine ⟨later, laterFound, same, fun complete => ?_⟩
  have frozen := Tally.posts_frozen posts (tally_counter found) complete
  rw [is] at frozen
  exact some.inj frozen

theorem arrivals_le (batch : JobID) : arrivals store batch ≤ arrivals (operation.apply engine now store) batch :=
  Tally.posts_arrived_le (operation_posts now reached minds batch)

variable (incomplete : ∀ row, store.batches.find? batch = some row → row.completedAt.isSome = false)
include incomplete

theorem operation_posts_incomplete : Relation.ReflTransGen (Tally.Posts False) (tally batch ⟨store, []⟩)
    (tally batch ⟨operation.apply engine now store, []⟩) := by
  have obeys : Obeys (batchRules (UnlessComplete batch)) ⟨engine, now⟩ store operation :=
    obeys_batch minds fun _ _ _ => incomplete
  exact (Acts.posts (apply_performs obeys reached.sound) accounts_incomplete reached.traced).2

variable {later : BatchRow} (found : (operation.apply engine now store).batches.find? batch = some later)
  (within : arrivals (operation.apply engine now store) batch ≤ later.total)
include found within

theorem completing (complete : later.completedAt.isSome = true) :
    (arrivals (operation.apply engine now store) batch : Int) = later.total ∧ liveJobs (operation.apply engine now store) batch = 0 ∧
      later.failed = failedInputs (operation.apply engine now store) batch := by
  have next : Reached _ engine (operation.apply engine now store) := reached.step (obeys_batch minds fun _ _ => trivial)
  have unsettled : (tally batch ⟨store, []⟩).Settled := by
    intro old is closed
    obtain ⟨row, rowFound, rfl⟩ := map_eq_some_iff.mp is
    rw [show row.counter.closed = false from incomplete row rowFound] at closed
    cases closed
  have posts := operation_posts_incomplete now reached minds incomplete
  rw [← present_eq_liveJobs next.traced.descent batch]
  exact Tally.posts_settled posts (reached.balanced accounts_always) unsettled _ (tally_counter found) complete within

theorem completes_now (expects : 0 < later.total) :
    later.completedAt.isSome = true ↔ (arrivals (operation.apply engine now store) batch : Int) = later.total ∧
        liveJobs (operation.apply engine now store) batch = 0 := by
  have next : Reached _ engine (operation.apply engine now store) := reached.step (obeys_batch minds fun _ _ => trivial)
  have present := present_eq_liveJobs next.traced.descent batch
  constructor
  · intro complete
    obtain ⟨all, none, _⟩ := completing now reached minds incomplete found within complete
    exact ⟨all, none⟩
  · rintro ⟨all, none⟩
    cases unclosed : later.completedAt.isSome with
    | true => rfl
    | false =>
      have agrees := (next.balanced accounts_always).opened later.counter (tally_counter found) unclosed
      have pending := agrees.pending
      have positive := agrees.positive expects
      have zero : (tally batch ⟨operation.apply engine now store, []⟩).present = 0 := present.trans none
      have due : (tally batch ⟨operation.apply engine now store, []⟩).due = 0 := rfl
      have arrived : ((tally batch ⟨operation.apply engine now store, []⟩).arrived : Int) = later.total := all
      rw [zero, due, arrived] at pending
      change later.pending + later.total = later.total + 0 + 0 at pending
      change 0 < later.pending at positive
      omega

end

variable {row : BatchRow} {past : List Store}

theorem arrivals_absent (reached : Reached (batchRules fun _ _ => True) engine store)
    (absent : store.batches.find? batch = none) : arrivals store batch = 0 := by
  have balanced : (tally batch ⟨store, []⟩).Balanced := reached.balanced accounts_always
  refine (balanced.unopened ?_).1
  rw [tally, absent]
  rfl

section
variable (run : Run engine MindsBatches (store :: past))
include run

theorem arrivals_earlier (batch : JobID) :
    ∀ earlier ∈ past, arrivals earlier batch ≤ arrivals store batch := by
  induction past generalizing store with
  | nil => exact forall_mem_nil _
  | cons previous past ih =>
    cases run with
    | step run now operation minds =>
      have le : arrivals previous batch ≤ arrivals (operation.apply engine now previous) batch :=
        arrivals_le _ (batch_reached ⟨past, run⟩) minds batch
      intro earlier mem
      rcases mem_cons.mp mem with rfl | older
      · exact le
      · exact (ih run earlier older).trans le

theorem batch_still {earlier : Store}
    (found : earlier.batches.find? batch = some row) (mem : earlier ∈ past) :
    ∃ later, store.batches.find? batch = some later := by
  induction past generalizing store with
  | nil => cases mem
  | cons previous past ih =>
    cases run with
    | step run now operation minds =>
      have reached := batch_reached ⟨past, run⟩
      have lasts {was : BatchRow} (wasFound : previous.batches.find? batch = some was) :
          ∃ later, (operation.apply engine now previous).batches.find? batch = some later := by
        obtain ⟨later, laterFound, _⟩ := batch_lasts now reached minds wasFound
        exact ⟨later, laterFound⟩
      rcases mem_cons.mp mem with rfl | older
      · exact lasts found
      · obtain ⟨was, wasFound⟩ := ih run older
        exact lasts wasFound

theorem complete_iff (found : store.batches.find? batch = some row)
    (expects : 0 < row.total) (within : arrivals store batch ≤ row.total) : row.completedAt.isSome = true ↔
      ∃ earlier ∈ store :: past, (arrivals earlier batch : Int) = row.total ∧ liveJobs earlier batch = 0 := by
  induction past generalizing store row with
  | nil =>
    cases run
    have none : ({} : Store).batches.find? batch = none := rfl
    rw [none] at found
    cases found
  | cons previous past ih =>
    cases run with
    | step run now operation minds =>
      have reached := batch_reached ⟨past, run⟩
      have pre := arrivals_earlier (run.step now operation minds) batch
      cases old : previous.batches.find? batch with
      | none =>
        have empty := arrivals_absent reached old
        rw [completes_now now reached minds (by simp [old]) found within expects]
        constructor
        · exact fun now => ⟨_, mem_cons_self, now⟩
        · rintro ⟨earlier, mem, all, none⟩
          rcases mem_cons.mp mem with rfl | older
          · exact ⟨all, none⟩
          · have bound : arrivals earlier batch ≤ arrivals previous batch := by
              rcases mem_cons.mp older with rfl | older
              · exact le_rfl
              · exact arrivals_earlier run batch earlier older
            omega
      | some was =>
        obtain ⟨later, laterFound, total, frozen⟩ := batch_lasts now reached minds old
        cases laterFound.symm.trans found
        have bound := pre previous mem_cons_self
        have earlier := ih run old (by omega) (by omega)
        cases state : was.completedAt.isSome with
        | true =>
          have complete : row.completedAt.isSome = true := by
            have closed := congrArg Counter.closed (frozen state)
            exact closed.trans state
          obtain ⟨witness, mem, all, none⟩ := earlier.mp state
          refine ⟨fun _ => ⟨witness, mem_cons_of_mem _ mem, ?_, none⟩, fun _ => complete⟩
          rw [all, total]
        | false =>
          rw [completes_now now reached minds (fun other is => by rw [old] at is; cases is; exact state) found within expects]
          constructor
          · exact fun now => ⟨_, mem_cons_self, now⟩
          · rintro ⟨witness, mem, all, none⟩
            rcases mem_cons.mp mem with rfl | older
            · exact ⟨all, none⟩
            · have complete := earlier.mpr ⟨witness, older, by rw [all, total], none⟩
              rw [state] at complete
              cases complete

theorem complete_frozen (found : store.batches.find? batch = some row) :
    ∀ earlier ∈ past, ∀ old, earlier.batches.find? batch = some old → old.completedAt.isSome = true → row.counter = old.counter := by
  induction past generalizing store row with
  | nil => exact forall_mem_nil _
  | cons previous past ih =>
    cases run with
    | step run now operation minds =>
      have reached := batch_reached ⟨past, run⟩
      -- a batch complete in an earlier store is complete in the previous one
      have lasts {was : BatchRow} (wasFound : previous.batches.find? batch = some was)
          (complete : was.completedAt.isSome = true) : row.counter = was.counter := by
        obtain ⟨later, laterFound, _, frozen⟩ := batch_lasts now reached minds wasFound
        cases laterFound.symm.trans found
        exact frozen complete
      intro earlier mem old oldFound complete
      rcases mem_cons.mp mem with rfl | older
      · exact lasts oldFound complete
      · obtain ⟨was, wasFound⟩ := batch_still run oldFound older
        have same := ih run wasFound earlier older old oldFound complete
        have wasComplete := (congrArg Counter.closed same).trans complete
        exact (lasts wasFound wasComplete).trans same

end

/-- What a batch's row says of its jobs in a store of a run. -/
structure Accounted (store : Store) (past : List Store) (row : BatchRow) : Prop where
  /-- While it is incomplete and all its inputs have arrived. -/
  incomplete : row.completedAt.isSome = false → (arrivals store row.id : Int) = row.total →
    row.pending = liveJobs store row.id ∧ row.failed = failedInputs store row.id ∧
      callbacksIn store.journal row.id = []
  complete_iff : row.completedAt.isSome = true ↔
    ∃ earlier ∈ store :: past, (arrivals earlier row.id : Int) = row.total ∧ liveJobs earlier row.id = 0
  /-- Just completed. -/
  completing : ∀ previous ∈ past.head?,
    (∀ old, previous.batches.find? row.id = some old → old.completedAt.isSome = false) →
      row.completedAt.isSome = true → row.failed = failedInputs store row.id
  /-- Once it is complete: its callbacks, each once, with the failures it
  completed with. -/
  callbacks : row.completedAt.isSome = true → completions store.journal row.id = [row.failed] ∧
    List.Forall₂ (CallbackJob row.id) (callbacksWith row row.failed) (callbacksIn store.journal row.id)
  frozen : ∀ earlier ∈ past, ∀ old, earlier.batches.find? row.id = some old → old.completedAt.isSome = true →
    row.pending = old.pending ∧ row.failed = old.failed ∧ row.completedAt.isSome = true

/-- A batch of two jobs, one canceled and one completed. -/
def oneCanceled : List (Int × Operation) :=
  [(40, .jobFinalizeMany { jobs := [{ id := 3, attemptedBy := 9, fence := 1, state := .completed }] }),
   (30, .jobClaim { queue := "default", clientID := 9, limit := 1 }),
   (20, .jobCancel 2),
   (10, .jobInsertMany
      [{ kind := "page", queue := "default", priority := 1, maxAttempts := 3, batchID := 1 },
       { kind := "page", queue := "default", priority := 1, maxAttempts := 3, batchID := 1 }] {}),
   (0, .batchInsert
      { total := 2
        onFailure := some { kind := "alert", queue := "default", priority := 1, maxAttempts := 3 }
        onComplete := some { kind := "report", queue := "default", priority := 1, maxAttempts := 3 } })]

end

end Hopper.Guarantees
