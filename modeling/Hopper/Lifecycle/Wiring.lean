import Hopper.Lifecycle.Outcomes

/-! The jobs and edges that the insert of a workflow leaves. -/

namespace Hopper.Lifecycle

open List Kernel Driver Sqlite

section
variable {x : W} {params : WorkflowInsertParams} {pre post : Store}
variable {ids : List JobID} {pending : List Bool} {jobs : List JobInsert} {count : Nat} {given : List JobInsertParams}
variable {store : Store}

theorem getD_mem {index : Nat} (inside : index < ids.length) : ids.getD index 0 ∈ ids := by
  rw [getD_eq_getElem?_getD, getElem?_eq_getElem inside]
  exact getElem_mem inside

theorem checkRange_ok {edge : JobDependency} (accepted : checkRange count edge = .ok ⟨⟩) :
    edge.job.toNat < count ∧ edge.dependsOn.toNat < count := by
  unfold checkRange at accepted
  split at accepted
  · cases accepted
  · omega

theorem checkDependencies_ok {deps : List JobDependency}
    (accepted : checkDependencies deps count = .ok pending) : ∀ edge ∈ deps, checkRange count edge = .ok ⟨⟩ := by
  unfold checkDependencies at accepted
  cases ranged : deps.forM (checkRange count) with
  | error =>
    rw [ranged] at accepted
    cases accepted
  | ok done => exact forM_ok ranged

theorem length_encodeSteps (accepted : W.encodeSteps given pending = .ok jobs) :
    jobs.length = given.length := by
  have pairs := mapM_ok accepted
  rw [← pairs.length_eq, length_zipIdx]

theorem mem_insertDep {row edge : DepRow} : edge ∈ (W.insertDep store row).deps ↔
      edge ∈ store.deps ∨ (∀ old ∈ store.deps, Keyed.key old ≠ Keyed.key row) ∧ edge = row := by
  rw [W.insertDep, Table.mem_upsert]
  constructor
  · rintro (⟨old, _⟩ | ⟨old, mem, _, rfl⟩ | new)
    · exact .inl old
    · exact .inl mem
    · exact .inr new
  · rintro (old | new)
    · by_cases keyed : Keyed.key edge = Keyed.key row
      · exact .inr (.inl ⟨edge, old, keyed, rfl⟩)
      · exact .inl ⟨old, keyed⟩
    · exact .inr (.inr new)

theorem insertDeps_source {edge : DepRow} (mem : edge ∈ (W.insertDeps params ids store).deps) :
    edge ∈ store.deps ∨ ∃ dep ∈ params.deps, W.depRow ids params.steps dep = edge := by
  rw [← mem_map]
  unfold W.insertDeps at mem
  generalize params.deps.map (W.depRow ids params.steps) = rows at mem
  induction rows generalizing store with
  | nil => exact .inl mem
  | cons row rows ih =>
    rcases ih mem with earlier | later
    · rcases mem_insertDep.mp earlier with old | ⟨_, rfl⟩
      · exact .inl old
      · exact .inr mem_cons_self
    · exact .inr (mem_cons_of_mem _ later)

/-- What is left once a workflow is inserted: `rows` is the store with its
batch and its jobs, before its edges. -/
structure Wired (x : W) (params : WorkflowInsertParams) (before rows after : Store) (ids : List JobID)
    (batch : JobID) : Prop where
  rests : Rests before rows
  written : ∃ notes, after = { rows with deps := (W.insertDeps params ids rows).deps, notifications := notes }
  length : ids.length = params.jobs.length
  live : ∀ id ∈ ids, rows.live id = true
  joined : ∀ id ∈ ids, id ∈ joined rows.journal batch
  has : rows.batches.has batch = true
  ranged : ∀ dep ∈ params.deps, checkRange params.jobs.length dep = .ok ⟨⟩

theorem stepRow_batchID (x : W) (store : Store) (count : Nat) (step : JobInsert × JobID) (seq : Nat) :
    (x.stepRow (x.workflowID store count) step seq).batchID = some (x.workflowID store count) := by
  have drawn : x.workflowID store count ≠ 0 := x.engine.newID_ne_zero (store.drawn + count)
  simp [W.stepRow, W.newRow, nullableID, drawn]

theorem workflowRows_rests {encoded : BatchEncoded} {names : List (JobID × String)} (descent : Descent (roster post))
    (written : x.WorkflowRows params jobs encoded names pre post) :
    Rests pre post := by
  obtain ⟨free, births⟩ := workflowRows_inserted written
  obtain ⟨_, results, steps⟩ := written
  obtain ⟨table, tableRows, rfl⟩ := W.yields_insertSteps steps_named steps
  have opened : Rests pre (W.openedStore (x.workflowRow params jobs.length encoded names pre) jobs.length pre free) :=
    .of_opened free rfl rfl rfl rfl
  exact opened.trans (.of_births (fun _ => rfl) births.jobs births.journal descent rfl rfl rfl)

theorem workflow_wired {result : WorkflowInsertResult} (descent : Descent (roster post))
    (inserted : Yields (x.workflowInsert params) pre result post) :
    ∃ rows ids, Wired x params pre rows post ids result.id := by
  obtain ⟨pending, jobs, encoded, names, rows, accepted, steps, written, id, same⟩ := W.yields_workflowInsert inserted
  obtain ⟨free, births⟩ := workflowRows_inserted written
  have ended : ∃ notes, post = { rows with
      deps := (W.insertDeps params (x.workflowIDs pre jobs.length) rows).deps, notifications := notes } := by
    obtain ⟨deps, wires⟩ := insertDeps_eq params (x.workflowIDs pre jobs.length) rows
    rw [same]
    split
    · obtain ⟨notes, noted⟩ := W.notify_eq x channelInsert (W.startQueues jobs)
        (W.insertDeps params (x.workflowIDs pre jobs.length) rows)
      exact ⟨notes, by rw [noted, wires]⟩
    · exact ⟨rows.notifications, by rw [id_eq, wires]⟩
  have sameRoster : roster post = roster rows := by
    obtain ⟨notes, rfl⟩ := ended
    rfl
  have rests := workflowRows_rests (sameRoster ▸ descent) written
  have length : (x.workflowIDs pre jobs.length).length = jobs.length := by simp [W.workflowIDs]
  have row {id : JobID} (mem : id ∈ x.workflowIDs pre jobs.length) :
      ∃ row ∈ x.stepRows (x.workflowID pre jobs.length) (jobs.zip (x.workflowIDs pre jobs.length)) pre.seq,
        row.id = id ∧ row.batchID = some (x.workflowID pre jobs.length) := by
    rw [← map_snd_zip (Nat.le_of_eq length)] at mem
    obtain ⟨step, among, rfl⟩ := mem_map.mp mem
    obtain ⟨number, there⟩ := W.stepRows_mem pre.seq among
    exact ⟨_, there, rfl, stepRow_batchID x pre jobs.length step number⟩
  refine ⟨rows, x.workflowIDs pre jobs.length, rests, ended, ?_, ?_, ?_, ?_, checkDependencies_ok accepted⟩
  · rw [length, length_encodeSteps steps]
  · intro id mem
    obtain ⟨row, among, same, _⟩ := row mem
    refine live_iff.mpr ⟨row, ?_, same⟩
    rw [Table.mem_def, births.jobs]
    exact mem_append_right _ among
  · intro other mem
    obtain ⟨row, among, same, inBatch⟩ := row mem
    rw [id]
    refine mem_joined.mpr ⟨row, ?_, inBatch, same⟩
    rw [births.births_eq]
    exact mem_append_left _ (mem_reverse.mpr among)
  · rw [id, births.batches]
    exact Table.has_eq_true.mpr ⟨_, (Table.mem_append free).mpr (.inr rfl), rfl⟩

end

end Hopper.Lifecycle
