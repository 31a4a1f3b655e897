import Hopper.Lifecycle.Act

/-! Inserts as acts. -/

namespace Hopper.Lifecycle

open List Kernel Driver Sqlite

def Performs (rules : Rules) (engine : Engine) (before after : Store) : Prop :=
  Sound engine before → Acts rules engine ⟨before, []⟩ ⟨after, []⟩

section
variable {rules : Rules} {engine : Engine} {pre post : Store}

namespace Performs

theorem refl (store : Store) : Performs rules engine store store :=
  fun _ => .refl

theorem trans (first second third : Store) (firstPerforms : Performs rules engine first second)
    (secondPerforms : Performs rules engine second third) : Performs rules engine first third := by
  intro sound
  have acts := firstPerforms sound
  exact acts.trans (secondPerforms (acts.moves sound).2)

theorem act (act : Sound engine pre → Act rules engine ⟨pre, []⟩ ⟨post, []⟩) : Performs rules engine pre post :=
  fun sound => .single (act sound)

theorem steady (steady : Steady rules pre post) : Performs rules engine pre post :=
  .act fun _ => .quiet [] steady

end Performs

/-- Every live job was live before, with the attempts it had, or is new, and
no batch is gone. -/
structure Grows (before after : Store) : Prop where
  jobs : ∀ row ∈ after.jobs, row.attempt = 0 ∨
    ∃ old ∈ before.jobs, old.attempt = row.attempt ∧ old.kind = row.kind ∧
      old.uniqueKey = row.uniqueKey ∧ old.batchID = row.batchID ∧
      (old.state = .running ↔ row.state = .running)
  batches : ∀ id, before.batches.has id = true → after.batches.has id = true

namespace Grows

theorem refl (store : Store) : Grows store store where
  jobs := fun row mem => .inr ⟨row, mem, rfl, rfl, rfl, rfl, Iff.rfl⟩
  batches := fun _ held => held

theorem trans {first second third : Store} (firstGrows : Grows first second)
    (secondGrows : Grows second third) : Grows first third where
  jobs := by
    intro row mem
    rcases secondGrows.jobs row mem with new | ⟨middle, middleMember, attempt, kind, key, batch, running⟩
    · exact .inl new
    · rcases firstGrows.jobs middle middleMember with
        new | ⟨old, oldMem, same, sameKind, sameKey, sameBatch, sameRunning⟩
      · exact .inl (attempt ▸ new)
      · exact .inr ⟨old, oldMem, same.trans attempt, sameKind.trans kind, sameKey.trans key,
          sameBatch.trans batch, sameRunning.trans running⟩
  batches := fun id held => secondGrows.batches id (firstGrows.batches id held)

theorem of_tables (jobs : post.jobs = pre.jobs)
    (batches : ∀ id, pre.batches.has id = true → post.batches.has id = true) : Grows pre post where
  jobs := by
    rw [jobs]
    exact (refl pre).jobs
  batches := batches

end Grows

def Inserts (rules : Rules) (engine : Engine) (before after : Store) : Prop :=
  Sound engine before → Acts rules engine ⟨before, []⟩ ⟨after, []⟩ ∧ Grows before after

namespace Inserts

theorem performs (inserts : Inserts rules engine pre post) : Performs rules engine pre post :=
  fun sound => (inserts sound).1

theorem refl (store : Store) : Inserts rules engine store store :=
  fun _ => ⟨.refl, .refl store⟩

theorem trans (first second third : Store) (firstInserts : Inserts rules engine first second)
    (secondInserts : Inserts rules engine second third) : Inserts rules engine first third := by
  intro sound
  obtain ⟨acts, grows⟩ := firstInserts sound
  obtain ⟨otherActs, otherGrows⟩ := secondInserts (acts.moves sound).2
  exact ⟨acts.trans otherActs, grows.trans otherGrows⟩

end Inserts

theorem mint_inserts (x : W) (pre : Store) : Within (Inserts rules engine) x.mint pre := by
  intro id post minted
  rw [(W.yields_mint.mp minted).2]
  exact fun _ => ⟨.single (.quiet [] (.aside rfl rfl rfl rfl (Nat.le_succ _))), .of_tables rfl fun _ held => held⟩

variable {row : LiveJob} {x : W} {job : JobInsert} {onConflict : ConflictAction}

theorem insertRow_grows {event : LiveJob → Event} (new : row.attempt = 0) : Within Grows (W.insertRow row event) pre := by
  intro result post inserted
  obtain ⟨free, _, _, rfl⟩ := W.yields_insertRow inserted
  refine ⟨fun other mem => ?_, fun _ held => held⟩
  rcases (Table.mem_append free).mp mem with old | rfl
  · exact (Grows.refl pre).jobs other old
  · exact .inl new

theorem Grows.of_counts {batch : JobID} {rows : List LiveJob} (counts : W.Counts batch rows pre post) : Grows pre post where
  jobs := by
    intro row mem
    rw [Table.mem_def, counts.jobs] at mem
    rcases List.mem_append.mp mem with old | new
    · exact (Grows.refl pre).jobs row old
    · exact .inl (counts.plain row new).2.2
  batches := fun id held => (counts.batches id).trans held

theorem insertJob_inserts (mints : job.id = 0)
    (joins : job.batchID ≠ 0 → ∀ middle, Grows pre middle → rules.joins middle job.batchID)
    (attempts : rules.attempts job.maxAttempts) : Within (Inserts rules x.engine) (x.insertJob job) pre := by
  unfold W.insertJob W.insertJobAs
  rw [if_pos mints]
  intro result post inserted sound
  obtain ⟨id, middle, minted, inserted⟩ := yields_bind.mp inserted
  have mintInserts : Inserts rules x.engine pre middle := mint_inserts x pre id middle minted
  refine Inserts.trans pre middle post mintInserts ?_ sound
  obtain ⟨rfl, rfl⟩ := W.yields_mint.mp minted
  have unknown : ¬(roster { pre with drawn := pre.drawn + 1 }).Known (x.engine.newID pre.drawn) :=
    sound.next_unknown
  intro _
  refine ⟨.single ?_, insertRow_grows rfl result post inserted⟩
  exact .insert x job _ ⟨pre.drawn, Nat.lt_succ_self _, rfl⟩ unknown
    (fun named => joins named _ (mintInserts sound).2) attempts inserted

/-- What the callers of an insert promise: the rows it replaces may be, the
batch it names takes it, and it allows enough attempts. -/
structure Welcome (rules : Rules) (x : W) (onConflict : ConflictAction) (job : JobInsert)
    (store : Store) : Prop where
  replaces : onConflict = .replace → ∀ row ∈ store.jobs, row.kind = job.kind →
    row.uniqueKey = some job.uniqueKey → row.state ≠ .running → rules.replaces row (x.replaced job row)
  joins : job.batchID ≠ 0 → rules.joins store job.batchID
  attempts : rules.attempts job.maxAttempts

theorem replaced_idle (x : W) (job : JobInsert) (row : LiveJob) : (x.replaced job row).state ≠ .running := by
  simp only [W.replaced]
  split <;> decide

theorem replaced_touched (idle : row.state ≠ .running) (replaces : rules.replaces row (x.replaced job row)) :
    Touched rules row (x.replaced job row) where
  toKept := ⟨rfl, rfl, rfl, rfl, rfl, rfl, rfl, rfl⟩
  fence := rfl
  attempt := rfl
  owner := rfl
  running := ⟨fun runs => absurd runs (replaced_idle x job row), fun runs => absurd runs idle⟩
  live := by
    intro _
    simp only [W.replaced]
    split <;> rfl
  budget := .inr replaces
  settled := .inr (.inr (.inr replaces))
  mark := .inl rfl
  claim := fun runs => absurd runs (replaced_idle x job row)

theorem replace_inserts (mem : row ∈ pre.jobs) (idle : row.state ≠ .running)
    (replaces : rules.replaces row (x.replaced job row)) :
    Within (Inserts rules engine) (x.replace job row) pre := by
  unfold W.replace
  split
  · exact within_throw _ _
  · refine within_return (within_modify fun _ => ⟨.single (.quiet [] ?_), ?_⟩)
    · refine .updateJob fun other otherMem same => ?_
      have equal : other = row := Table.eq_of_key otherMem mem same
      subst equal
      exact replaced_touched idle replaces
    · refine ⟨fun other otherMem => ?_, fun _ held => held⟩
      rcases W.mem_updateJob.mp otherMem with ⟨old, _⟩ | ⟨old, oldMem, same, rfl⟩
      · exact (Grows.refl pre).jobs other old
      · have equal : old = row := Table.eq_of_key oldMem mem same
        rw [equal]
        exact .inr ⟨row, mem, rfl, rfl, rfl, rfl, (replaced_touched idle replaces).running.symm⟩

theorem liveDuplicate_eq_some (found : W.liveDuplicate pre job = some row) :
    job.uniqueKey ≠ "" ∧ row ∈ pre.jobs ∧ row.kind = job.kind ∧ row.uniqueKey = some job.uniqueKey := by
  unfold W.liveDuplicate at found
  split at found
  · cases found
  · next named =>
    have holds := find?_some found
    simp only [decide_eq_true_eq] at holds
    exact ⟨named, mem_of_find?_eq_some found, holds⟩

theorem insertOne_inserts (mints : job.id = 0)
    (welcome : ∀ middle, Grows pre middle → Welcome rules x onConflict job middle) :
    Within (Inserts rules x.engine) (x.insertOne onConflict job) pre := by
  refine within_get_bind ?_
  split
  · next holder found =>
    obtain ⟨_, mem, kind, key⟩ := liveDuplicate_eq_some found
    split
    · next replacing =>
      have replaces := (welcome pre (.refl pre)).replaces replacing.1 holder mem kind key replacing.2
      exact within_return (replace_inserts mem replacing.2 replaces)
    · exact within_pure Inserts.refl _ _
  · split
    · split
      · next named =>
        intro result post counted sound
        simp only [yields_bind, yields_set, yields_pure] at counted
        obtain ⟨_, _, rfl, _, _, counted, _, rfl⟩ := counted
        refine ⟨.single (.found x rfl job.batchID _ ((welcome pre (.refl pre)).joins named) counted), ?_⟩
        obtain ⟨rows, counts⟩ := W.countBatch_counts counted
        refine .trans ?_ (.of_counts counts)
        exact .of_tables rfl fun _ held => held
      · exact within_pure Inserts.refl _ _
    · exact within_return (insertJob_inserts mints (fun named middle grows => (welcome middle grows).joins named)
          (welcome pre (.refl pre)).attempts)

theorem insertJobs_inserts {jobs : List JobInsert} (mints : ∀ job ∈ jobs, job.id = 0)
    (welcome : ∀ job ∈ jobs, ∀ middle, Grows pre middle → Welcome rules x onConflict job middle) :
    Within (Inserts rules x.engine) (x.insertJobs jobs onConflict) pre := by
  unfold W.insertJobs
  induction jobs generalizing pre with
  | nil =>
    rw [mapM_nil]
    exact within_pure Inserts.refl _ _
  | cons job jobs ih =>
    rw [mapM_cons]
    intro results post inserted sound
    obtain ⟨result, middle, first, inserted⟩ := yields_bind.mp inserted
    have firstInserts := insertOne_inserts (mints job mem_cons_self)
      (welcome job mem_cons_self) result middle first
    refine Inserts.trans pre middle post firstInserts ?_ sound
    refine within_return (ih (fun other mem => mints other (mem_cons_of_mem _ mem))
      fun other mem last grows => welcome other (mem_cons_of_mem _ mem) last ((firstInserts sound).2.trans grows))
      results post inserted

end

end Hopper.Lifecycle
