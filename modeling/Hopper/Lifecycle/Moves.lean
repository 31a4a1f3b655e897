import Hopper.Lifecycle.Claims

/-! The statements of the store as changes of its roster. -/

namespace Hopper.Lifecycle

open List Option Kernel Driver Sqlite

/-- A store whose jobs are who they say they are, and whose IDs were minted. -/
structure Sound (engine : Engine) (store : Store) : Prop where
  identity : Identity (roster store)
  owned : Owned (roster store)
  minted : ∀ id, (roster store).Known id → ∃ draw < store.drawn, engine.newID draw = id

/-- From a sound store, the roster goes through changes to that of a sound
store. -/
def Moves (rules : Rules) (engine : Engine) (before after : Store) : Prop :=
  Sound engine before → Changes rules (roster before) (roster after) ∧ Sound engine after

section
variable {rules : Rules} {engine : Engine} {pre post : Store} {id : JobID}

theorem Sound.empty : Sound engine {} where
  identity := .empty
  owned := .empty
  minted := by
    rintro id ⟨event, mem, _⟩
    cases mem

theorem Sound.next_unknown (sound : Sound engine pre) : ¬(roster pre).Known (engine.newID pre.drawn) := by
  intro known
  obtain ⟨draw, earlier, same⟩ := sound.minted _ known
  exact absurd (engine.newID_injective same) (Nat.ne_of_lt earlier)

namespace Moves

theorem refl (store : Store) : Moves rules engine store store :=
  fun sound => ⟨.refl, sound⟩

theorem trans (first second third : Store) (firstMoves : Moves rules engine first second)
    (secondMoves : Moves rules engine second third) : Moves rules engine first third := by
  intro sound
  obtain ⟨firstChanges, middle⟩ := firstMoves sound
  obtain ⟨secondChanges, last⟩ := secondMoves middle
  exact ⟨firstChanges.trans secondChanges, last⟩

theorem of_roster (same : roster post = roster pre) (drawn : pre.drawn ≤ post.drawn) : Moves rules engine pre post := by
  intro sound
  refine ⟨by rw [same], same ▸ sound.identity, same ▸ sound.owned, ?_⟩
  intro id known
  rw [same] at known
  obtain ⟨draw, earlier, minted⟩ := sound.minted id known
  exact ⟨draw, earlier.trans_le drawn, minted⟩

section
variable (change : Sound engine pre → Change rules (roster pre) (roster post))
include change

theorem of_change (minted : ∀ event row, Change.Born (roster pre) (roster post) event row →
      ∃ draw < post.drawn, engine.newID draw = row.id)
    (drawn : pre.drawn ≤ post.drawn) : Moves rules engine pre post := by
  intro sound
  refine ⟨.single (change sound), sound.identity.step (change sound), sound.owned.step (change sound), ?_⟩
  rintro id ⟨event, mem, row, born, rfl⟩
  have old (earlier : event ∈ pre.journal) : ∃ draw < post.drawn, engine.newID draw = row.id := by
    obtain ⟨draw, earlier, minted⟩ := sound.minted row.id ⟨event, earlier, row, born, rfl⟩
    exact ⟨draw, earlier.trans_le drawn, minted⟩
  rcases (change sound).births with ⟨events, journal, barren⟩ | ⟨arrival, arrived, new⟩
  · rw [journal] at mem
    rcases List.mem_append.mp mem with later | earlier
    · cases born.symm.trans (barren event later)
    · exact old earlier
  · rw [new.journal] at mem
    rcases mem_cons.mp mem with rfl | earlier
    · cases born.symm.trans new.birth
      exact minted event row new
    · exact old earlier

theorem of_quiet_change (seq : post.seq = pre.seq) (drawn : pre.drawn ≤ post.drawn) : Moves rules engine pre post :=
  of_change change (fun _ _ born => absurd (seq.symm.trans born.next) (Nat.succ_ne_self _).symm) drawn

end

theorem book {event : Event} (books : Lifecycle.book event = true)
    (result : roster post = { roster pre with journal := event :: pre.journal })
    (drawn : pre.drawn ≤ post.drawn) : Moves rules engine pre post := by
  refine of_quiet_change (fun _ => ?_) (congrArg Roster.seq result :) drawn
  rw [result]
  exact .book (roster pre) event books

theorem touch {change : LiveJob → LiveJob} (same : ∀ row, Keyed.key (change row) = Keyed.key row)
    (touched : Sound engine pre → ∀ row ∈ pre.jobs, Touched rules row (change row))
    (result : roster post = { roster pre with jobs := pre.jobs.update change same })
    (drawn : pre.drawn ≤ post.drawn) : Moves rules engine pre post := by
  refine of_quiet_change (fun sound => ?_) (congrArg Roster.seq result :) drawn
  rw [result]
  exact .touch (roster pre) change same (touched sound)

end Moves

section
variable (x : W) (channel : String) (payloads : List String) (store : Store)

@[simp] theorem roster_notify : roster (x.notify channel payloads store) = roster store := by
  unfold W.notify
  split <;> rfl

@[simp] theorem drawn_notify : (x.notify channel payloads store).drawn = store.drawn := by
  unfold W.notify
  split <;> rfl

theorem Moves.notify : Moves rules engine store (x.notify channel payloads store) :=
  .of_roster (roster_notify x channel payloads store) (drawn_notify x channel payloads store).ge

end

theorem Moves.updateJob {change : LiveJob → LiveJob} {same : ∀ row : LiveJob, (change row).id = row.id}
    (touched : Sound engine pre → ∀ row ∈ pre.jobs, row.id = id → Touched rules row (change row)) :
    Moves rules engine pre (W.updateJob id change same pre) := by
  have kept : ∀ row : LiveJob, Keyed.key (if row.id = id then change row else row) = Keyed.key row := by
    intro row
    split
    · exact same row
    · rfl
  refine .touch kept (fun sound row mem => ?_) rfl le_rfl
  split
  · next keyed => exact touched sound row mem keyed
  · exact .refl rules row

variable {row : LiveJob} {x : W} {x : W} {job : JobInsert} {event : LiveJob → Event} {batch : JobID}

theorem keyFree_of_uniqueTaken (free : pre.uniqueTaken row = false) : (roster pre).KeyFree row := by
  intro other mem kind key
  unfold Store.uniqueTaken at free
  cases held : row.uniqueKey with
  | none => rfl
  | some =>
    simp only [held, Store.holder?, isSome_eq_false_iff, isNone_iff_eq_none,
      List.find?_eq_none, decide_eq_true_eq] at free
    exact absurd ⟨kind, key.trans held⟩ (free other mem)

theorem newRow_fresh (x : W) (job : JobInsert) (id : JobID) (store : Store) : Fresh (W.sequenced store (x.newRow job id)) where
  attempt := rfl
  owner := rfl
  mark := rfl
  state := by
    simp only [W.sequenced, W.newRow]
    split
    · exact .inl rfl
    · split <;> exact .inr rfl

theorem insertRow_moves
    (birth : ∀ row, birth? (event row) = some row)
    (calls : ∀ batch row, event row = .callback batch row → job.batchID = 0) (unknown : ¬(roster pre).Known id)
    (minted : ∃ draw < pre.drawn, engine.newID draw = id) (attempts : rules.attempts job.maxAttempts) :
    Within (Moves rules engine) (W.insertRow (x.newRow job id) event) pre := by
  intro result post inserted
  obtain ⟨free, keyFree, _, rfl⟩ := W.yields_insertRow inserted
  refine .of_change (fun _ => ?_) ?_ le_rfl
  · exact .insert (roster pre) _ _ free (birth _) unknown (newRow_fresh x job id pre) rfl
      (keyFree_of_uniqueTaken keyFree) attempts fun batch same => by
        dsimp only [W.sequenced, W.newRow]
        rw [calls batch _ same]
        rfl
  · intro other row born
    cases (List.cons.inj born.journal).1
    cases born.birth.symm.trans (birth _)
    exact minted

theorem mint_moves : Within (Moves rules engine) x.mint pre := by
  intro id post minted
  rw [(W.yields_mint.mp minted).2]
  exact .of_roster rfl (Nat.le_succ _)

theorem insertJobAs_moves (birth : ∀ row, birth? (event row) = some row)
    (calls : ∀ batch row, event row = .callback batch row → job.batchID = 0) (mints : job.id = 0)
    (attempts : rules.attempts job.maxAttempts) : Within (Moves rules x.engine) (x.insertJobAs job event) pre := by
  unfold W.insertJobAs
  rw [if_pos mints]
  intro result post inserted sound
  obtain ⟨id, middle, minted, inserted⟩ := yields_bind.mp inserted
  refine Moves.trans pre middle post (mint_moves id middle minted) ?_ sound
  obtain ⟨rfl, rfl⟩ := W.yields_mint.mp minted
  have unknown : ¬(roster { pre with drawn := pre.drawn + 1 }).Known (x.engine.newID pre.drawn) :=
    sound.next_unknown
  exact insertRow_moves birth calls unknown ⟨pre.drawn, Nat.lt_succ_self _, rfl⟩ attempts result post inserted

theorem callbackInsert_attempts (callback : Callback) (batch : JobID) (failed : Int) :
    0 < (W.callbackInsert callback batch failed).maxAttempts := by
  simp only [W.callbackInsert, W.clamp]
  omega

theorem insertCallback_moves {failed : Int} {callback : Callback} :
    Within (Moves rules x.engine) (x.insertCallback batch failed callback) pre :=
  within_bind Moves.trans (insertJobAs_moves (fun _ => rfl) (fun _ _ _ => rfl) rfl
    (rules.attempts_pos _ (callbackInsert_attempts callback batch failed))) fun _ middle _ =>
      within_modify (.notify x _ _ middle)

theorem countBatch_moves {count failed : Int} :
    Within (Moves rules x.engine) (x.countBatch id count failed) pre := by
  refine W.countBatch_within Moves.refl Moves.trans (fun store _ _ _ _ _ _ => .of_roster rfl le_rfl)
    (fun store batch failed _ => ?_) (fun _ _ _ _ => insertCallback_moves) id count failed pre
  exact .book (show Lifecycle.book (.completed batch.id failed) = true from rfl) rfl le_rfl

/-! Finishing jobs and what it entails. -/

section
variable (x : W) (finished : Finished) (store : Store)

theorem finish_eq : ∃ notes, x.finish finished store = { store with
    history := if finished.archive then store.history ++ [finished.archivedAt x.now] else store.history
    jobs := store.jobs.delete fun row => decide (row.id = finished.row.id)
    journal := .finished finished.row finished.state finished.output :: store.journal
    notifications := notes } := by
  unfold W.finish
  dsimp only
  split
  · exact W.notify_eq x _ _ _
  · exact ⟨store.notifications, rfl⟩

@[simp] theorem roster_finish : roster (x.finish finished store) = { roster store with
    jobs := store.jobs.delete fun row => decide (row.id = finished.row.id)
    history := if finished.archive then store.history ++ [finished.archivedAt x.now] else store.history
    journal := .finished finished.row finished.state finished.output :: store.journal } := by
  obtain ⟨notes, same⟩ := finish_eq x finished store
  rw [same]
  rfl

@[simp] theorem jobs_finish : (x.finish finished store).jobs = store.jobs.delete fun row => decide (row.id = finished.row.id) :=
  congrArg Roster.jobs (roster_finish x finished store)

@[simp] theorem leases_finish : (x.finish finished store).leases = store.leases :=
  congrArg Roster.leases (roster_finish x finished store)

@[simp] theorem journal_finish :
    (x.finish finished store).journal = .finished finished.row finished.state finished.output :: store.journal :=
  congrArg Roster.journal (roster_finish x finished store)

@[simp] theorem drawn_finish : (x.finish finished store).drawn = store.drawn := by
  obtain ⟨notes, same⟩ := finish_eq x finished store
  rw [same]

@[simp] theorem batches_finish : (x.finish finished store).batches = store.batches := by
  obtain ⟨notes, same⟩ := finish_eq x finished store
  rw [same]

@[simp] theorem deps_finish : (x.finish finished store).deps = store.deps := by
  obtain ⟨notes, same⟩ := finish_eq x finished store
  rw [same]

@[simp] theorem results_finish : (x.finish finished store).results = store.results := by
  obtain ⟨notes, same⟩ := finish_eq x finished store
  rw [same]

theorem recordResult_eq : ∃ results, x.recordResult finished store = { store with results := results } := by
  unfold W.recordResult
  dsimp only
  split
  · exact ⟨store.results, rfl⟩
  · split <;> exact ⟨_, rfl⟩

@[simp] theorem roster_recordResult : roster (x.recordResult finished store) = roster store := by
  obtain ⟨results, same⟩ := recordResult_eq x finished store
  rw [same]
  rfl

theorem recordResult_moves : Moves rules engine store (x.recordResult finished store) := by
  obtain ⟨results, same⟩ := recordResult_eq x finished store
  rw [same]
  exact .of_roster rfl le_rfl

end

theorem finish_moves {finished : Finished} (mem : finished.row ∈ pre.jobs)
    (idle : finished.row.state ≠ .running) (terminal : finished.state.terminal = true) :
    Moves rules engine pre (x.finish finished pre) := by
  have same := roster_finish x finished pre
  refine .of_quiet_change (fun _ => ?_) (congrArg Roster.seq same :) (drawn_finish x finished pre).ge
  rw [same]
  exact .finish (roster pre) x finished mem idle terminal

theorem cancelDependent_moves (mem : row ∈ pre.jobs) (pending : row.state = .pending) :
    Moves rules engine pre (x.cancelDependent row pre) := by
  refine .trans pre { pre with journal := .cascaded row.id :: pre.journal } _
    (.book (show Lifecycle.book (.cascaded row.id) = true from rfl) rfl le_rfl) ?_
  refine finish_moves mem ?_ rfl
  intro running
  have state : row.state = .running := running
  rw [pending] at state
  cases state

theorem promoted_touched (x : W) (pending : row.state = .pending) : Touched rules row (x.promoted row) where
  toKept := ⟨rfl, rfl, rfl, rfl, rfl, rfl, rfl, rfl⟩
  fence := rfl
  attempt := rfl
  owner := rfl
  running := by
    simp only [W.promoted, pending]
    split <;> simp
  live := by
    intro _
    simp only [W.promoted]
    split <;> rfl
  budget := .inl rfl
  settled := .inl pending
  mark := .inl rfl
  claim := fun _ => ⟨rfl, rfl⟩

theorem promoteIfReady_moves {store : Store} : Moves rules engine store (x.promoteIfReady store id) := by
  unfold W.promoteIfReady
  split
  · exact .refl _
  · next row found =>
    split
    · next ready =>
      refine .trans _ _ _ (.updateJob fun _ other mem same => ?_) (.notify x _ _ _)
      have equal : other = row :=
        Table.eq_of_key mem (Table.mem_of_find? found) (same.trans (Table.key_of_find? found).symm)
      rw [equal]
      exact promoted_touched x ready.1
    · exact .refl _

theorem tail_moves {finished : List Finished} : Within (Moves rules x.engine) (x.tail finished) pre :=
  W.tail_within Moves.refl Moves.trans (fun _ _ mem pending => cancelDependent_moves mem pending)
    (fun store finished => recordResult_moves x finished store)
    (fun _ _ _ _ => countBatch_moves)
    (fun _ _ => promoteIfReady_moves) (fun _ _ => .of_roster rfl le_rfl) finished pre

/-! Bringing jobs back, and workflows. -/

theorem retriedRow_revived (x : W) (fromStart : Bool) (row : HistoryJob) (store : Store) :
    Revived row (W.sequenced store (x.retriedRow fromStart row)) where
  id := rfl
  batchID := rfl
  fence := rfl
  state := rfl
  mark := rfl
  budget := by
    simp only [W.sequenced, W.retriedRow]
    split <;> omega

theorem retryHistory_moves {params : JobRetryParams} (edits : rules.edits) : Within (Moves rules engine) (x.retryHistory params) pre := by
  intro job post retried
  obtain ⟨row, mem, _, keyFree, free, rfl⟩ := W.yields_retryHistory retried
  have revives : Moves rules engine pre (x.revivedStore params row pre free) := by
    refine .of_change (fun _ => ?_) (fun event born new => ?_) le_rfl
    · exact .retry (roster pre) row _ free mem (retriedRow_revived x params.fromStart row pre) rfl
        (keyFree_of_uniqueTaken keyFree) edits
    · cases (List.cons.inj new.journal).1
      cases new.birth
  split
  · exact revives
  · exact .trans _ _ _ revives (.of_roster rfl le_rfl)

theorem insertSteps_moves {jobs : List JobInsert} {start : Nat}
    (bounded : ∀ id, (roster pre).Known id → ∃ draw < start, x.engine.newID draw = id)
    (drawn : start + jobs.length ≤ pre.drawn) (attempts : ∀ job ∈ jobs, rules.attempts job.maxAttempts) :
    Within (Moves rules x.engine) (x.insertSteps batch (jobs.zip ((List.range' start jobs.length).map x.engine.newID))) pre := by
  induction jobs generalizing pre start with
  | nil => exact within_pure Moves.refl _ _
  | cons job jobs ih =>
    intro results post inserted
    rw [length_cons, List.range'_succ, map_cons, zip_cons_cons, W.insertSteps, yields_mapM_cons] at inserted
    obtain ⟨value, middle, rest, first, others, -⟩ := inserted
    simp only [yields_bind, yields_describing, yields_pure] at first
    obtain ⟨row, _, first, -, rfl⟩ := first
    rw [W.insertJob, W.insertJobAs, if_neg (x.engine.newID_ne_zero start)] at first
    have unknown : ¬(roster pre).Known (x.engine.newID start) := by
      intro known
      obtain ⟨draw, earlier, same⟩ := bounded _ known
      exact absurd (x.engine.newID_injective same) (Nat.ne_of_lt earlier)
    rw [length_cons] at drawn
    have firstMoves : Moves rules x.engine pre middle := by
      refine insertRow_moves (fun _ => rfl) (fun _ _ same => by cases same) unknown ⟨start, by omega, rfl⟩ ?_ row middle first
      exact attempts job mem_cons_self
    obtain ⟨free, -, -, rfl⟩ := W.yields_insertRow first
    refine .trans pre _ post firstMoves (ih ?_ ?_
      (fun other mem => attempts other (mem_cons_of_mem _ mem)) rest post others)
    · rintro id ⟨event, mem, born, birth, rfl⟩
      rcases mem_cons.mp mem with rfl | old
      · cases birth
        exact ⟨start, Nat.lt_succ_self _, rfl⟩
      · obtain ⟨draw, earlier, same⟩ := bounded born.id ⟨event, old, born, birth, rfl⟩
        exact ⟨draw, Nat.lt_succ_of_lt earlier, same⟩
    · show start + 1 + jobs.length ≤ pre.drawn
      omega

theorem insertDeps_eq (params : WorkflowInsertParams) (ids : List JobID) (store : Store) :
    ∃ deps, W.insertDeps params ids store = { store with deps := deps } := by
  unfold W.insertDeps
  induction params.deps.map (W.depRow ids params.steps) generalizing store with
  | nil => exact ⟨store.deps, rfl⟩
  | cons row rows ih => exact ih (W.insertDep store row)

theorem workflowInsert_moves {params : WorkflowInsertParams}
    (attempts : ∀ given ∈ params.jobs, rules.attempts given.maxAttempts) :
    Within (Moves rules x.engine) (x.workflowInsert params) pre := by
  intro result post inserted sound
  obtain ⟨pending, jobs, batch, names, rows, _, encoded, ⟨free, results, steps⟩, _, rfl⟩ :=
    W.yields_workflowInsert inserted
  have opens : Moves rules x.engine pre
      (W.openedStore (x.workflowRow params jobs.length batch names pre) jobs.length pre free) :=
    .of_roster rfl (Nat.le_add_right_of_le (Nat.le_add_right _ _))
  have inserts : Moves rules x.engine
      (W.openedStore (x.workflowRow params jobs.length batch names pre) jobs.length pre free) rows := by
    refine insertSteps_moves ?_ (Nat.le_succ _) (fun job mem => ?_) results rows steps
    · exact fun id known => sound.minted id known
    · obtain ⟨given, givenMem, plain, waits, _, inserted, rfl⟩ := W.encodeSteps_mem encoded mem
      rw [encodeInsert_ok inserted]
      exact attempts given givenMem
  obtain ⟨deps, wired⟩ := insertDeps_eq params (x.workflowIDs pre jobs.length) rows
  have wires : Moves rules x.engine rows (W.insertDeps params (x.workflowIDs pre jobs.length) rows) := by
    rw [wired]
    exact .of_roster rfl le_rfl
  refine Moves.trans _ _ _ opens (.trans _ _ _ inserts (.trans _ _ _ wires ?_)) sound
  split
  · exact .notify x _ _ _
  · exact .refl _

end

end Hopper.Lifecycle
