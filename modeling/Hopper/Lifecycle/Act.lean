import Hopper.Lifecycle.Steady

/-! Operations as sequences of acts. An act is what an operation does at a
time to the jobs, the edges between them, the results recorded of them and
their batches. -/

namespace Hopper.Lifecycle

open Kernel Driver Sqlite

/-- One act. Those that end a job leave its consequences due, and `tail`
draws them. -/
inductive Act (rules : Rules) (engine : Engine) : Stage → Stage → Prop where
  | quiet {before after : Store} (due : List Finished) (steady : Steady rules before after) :
      Act rules engine ⟨before, due⟩ ⟨after, due⟩
  | sweep (before : Store) (condition : ResultRow → Bool)
      (orphan : ∀ row ∈ before.results, condition row = true → W.orphanResult before row = true) :
      Act rules engine ⟨before, []⟩ ⟨{ before with results := before.results.delete condition }, []⟩
  | insert (x : W) (job : JobInsert) (id : JobID) {before after : Store} {result : JobRow}
      (minted : ∃ draw < before.drawn, engine.newID draw = id) (unknown : ¬(roster before).Known id)
      (joins : job.batchID ≠ 0 → rules.joins before job.batchID)
      (attempts : rules.attempts job.maxAttempts)
      (inserted : Yields (W.insertRow (x.newRow job id) .inserted) before result after) :
      Act rules engine ⟨before, []⟩ ⟨after, []⟩
  | found (x : W) (same : x.engine = engine) (batch : JobID) (failed : Bool) {before after : Store}
      (joins : rules.joins before batch)
      (counted : Yields (x.countBatch batch 1 (if failed then 1 else 0))
        { before with journal := .found batch failed :: before.journal } () after) :
      Act rules engine ⟨before, []⟩ ⟨after, []⟩
  | finish (x : W) (finished : Finished) (before : Store) (due : List Finished)
      (member : finished.row ∈ before.jobs) (idle : finished.row.state ≠ .running)
      (terminal : finished.state.terminal = true) :
      Act rules engine ⟨before, due⟩ ⟨x.finish finished before, due ++ [finished]⟩
  | conclude (x : W) (finished : Finished) (leased : Bool) (before : Store) (due : List Finished)
      (member : finished.row ∈ before.jobs) (running : finished.row.state = .running)
      (terminal : finished.state.terminal = true)
      (released : Released finished.row before.leases (W.endClaim finished.row leased before).leases) :
      Act rules engine ⟨before, due⟩
        ⟨x.finish finished (W.endClaim finished.row leased before), due ++ [finished]⟩
  | exhaust (x : W) (row : LiveJob) (before : Store) (member : row ∈ before.jobs)
      (pending : row.state = .pending) :
      Act rules engine ⟨before, []⟩ ⟨x.cancelDependent row before, [x.dependentFinished row]⟩
  | tail (x : W) (same : x.engine = engine) (due : List Finished) {before after : Store}
      {all : List Finished} (drawn : Yields (x.tail due) before all after) :
      Act rules engine ⟨before, due⟩ ⟨after, []⟩
  | promote (x : W) (before : Store) (id : JobID) :
      Act rules engine ⟨before, []⟩ ⟨x.promoteIfReady before id, []⟩
  | drop (store : Store) (due : List Finished) (drops : ∀ finished ∈ due, rules.drops finished.row) :
      Act rules engine ⟨store, due⟩ ⟨store, []⟩
  | retry (x : W) (params : JobRetryParams) {before after : Store} {job : JobRow}
      (revives : ∀ row ∈ before.history, row.id = params.id → rules.revives before row)
      (retried : Yields (x.retryHistory params) before job after) (edits : rules.edits) :
      Act rules engine ⟨before, []⟩ ⟨after, []⟩
  | batch (row : BatchRow) (before : Store) (free : before.batches.has row.id = false)
      (pending : row.pending = row.total) (failed : row.failed = 0) (unclosed : row.completedAt = none) :
      Act rules engine ⟨before, []⟩ ⟨{ before with batches := before.batches.append row free }, []⟩
  | workflow (x : W) (same : x.engine = engine) (params : WorkflowInsertParams) {before after : Store}
      {result : WorkflowInsertResult} (attempts : ∀ given ∈ params.jobs, rules.attempts given.maxAttempts)
      (inserted : Yields (x.workflowInsert params) before result after) :
      Act rules engine ⟨before, []⟩ ⟨after, []⟩

abbrev Acts (rules : Rules) (engine : Engine) : Stage → Stage → Prop :=
  Relation.ReflTransGen (Act rules engine)

section
variable {rules : Rules} {engine : Engine} {pre post : Store}

theorem conclude_moves {x : W} {finished : Finished} {leased : Bool} (mem : finished.row ∈ pre.jobs)
    (running : finished.row.state = .running) (terminal : finished.state.terminal = true)
    (released : Released finished.row pre.leases (W.endClaim finished.row leased pre).leases) :
    Moves rules engine pre (x.finish finished (W.endClaim finished.row leased pre)) := by
  have concluded := roster_finish x finished (W.endClaim finished.row leased pre)
  refine .of_quiet_change (fun _ => ?_) (congrArg Roster.seq concluded :)
    (drawn_finish x finished (W.endClaim finished.row leased pre)).ge
  rw [concluded]
  exact .conclude (roster pre) x finished _ mem running terminal released

theorem Act.moves {pre post : Stage} (act : Act rules engine pre post) : Moves rules engine pre.store post.store := by
  cases act with
  | quiet due steady => exact steady.moves
  | sweep | batch => exact .of_roster rfl le_rfl
  | insert x job id minted unknown joins attempts inserted =>
    exact insertRow_moves (fun _ => rfl) (fun _ _ same => by cases same) unknown minted attempts _ _ inserted
  | @found x same batch failed pre post joins counted =>
    subst same
    refine .trans pre { pre with journal := .found batch failed :: pre.journal } post ?_ (countBatch_moves _ _ counted)
    exact .book (show Lifecycle.book (.found batch failed) = true from rfl) rfl le_rfl
  | finish x finished pre due mem idle terminal => exact finish_moves mem idle terminal
  | conclude x finished leased pre due mem running terminal released =>
    exact conclude_moves mem running terminal released
  | exhaust x row pre mem pending => exact cancelDependent_moves mem pending
  | tail x same due drawn =>
    subst same
    exact tail_moves _ _ drawn
  | promote x pre id => exact promoteIfReady_moves
  | drop => exact .refl _
  | retry x params revives retried edits => exact retryHistory_moves edits _ _ retried
  | workflow x same params attempts inserted =>
    subst same
    exact workflowInsert_moves attempts _ _ inserted

theorem Acts.moves {pre post : Stage} (acts : Acts rules engine pre post) :
    Moves rules engine pre.store post.store := by
  induction acts with
  | refl => exact .refl _
  | tail _ act ih => exact .trans _ _ _ ih act.moves

end

end Hopper.Lifecycle
