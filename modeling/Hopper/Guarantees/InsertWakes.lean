import Hopper.Guarantees.InsertOrder

/-! The queues that an insert changes, and those its client wakes and marks. -/

namespace Hopper.Guarantees

open List Kernel Driver Sqlite Lifecycle Client

/-- The call has put a new job into a queue. -/
def Adds (before after : Store) (queue : String) : Prop :=
  ∃ row ∈ after.jobs, before.jobs.has row.id = false ∧ row.queue = queue

/-- The call has replaced a job that waits in a queue. -/
def Replaces (before after : Store) (queue : String) : Prop :=
  ∃ old ∈ before.jobs, ∃ row ∈ after.jobs, row.id = old.id ∧ row ≠ old ∧ row.queue = queue

/-- The rows an insert has returned so far tell what it has changed. -/
structure Told (before now : Store) (rows : List JobInsertResult) : Prop where
  stays : ∀ id, before.jobs.has id = true → now.jobs.has id = true
  added : ∀ row ∈ now.jobs, before.jobs.has row.id = false → ∃ told ∈ rows, told.duplicate = false ∧ told.job.queue = row.queue
  changed : ∀ row ∈ now.jobs, row ∈ before.jobs ∨ ∃ told ∈ rows, told.job.finalizedAt = none ∧ told.job.queue = row.queue
  new : ∀ told ∈ rows, told.duplicate = false → Adds before now told.job.queue

section
variable {x : W} {onConflict : ConflictAction} {before pre post : Store} {rows results : List JobInsertResult}
variable {row : LiveJob} {result : JobInsertResult}

theorem Told.start (store : Store) : Told store store [] where
  stays _ held := held
  added row mem absent := (Table.has_eq_false.mp absent row mem rfl).elim
  changed _ := .inl
  new := forall_mem_nil _

theorem Told.more (told : Told before pre rows) (old : result.duplicate = true) : Told before pre (rows ++ [result]) where
  stays := told.stays
  added row mem absent := by
    obtain ⟨other, listed, rest⟩ := told.added row mem absent
    exact ⟨other, mem_append_left _ listed, rest⟩
  changed row mem := (told.changed row mem).imp_right fun ⟨other, listed, rest⟩ => ⟨other, mem_append_left _ listed, rest⟩
  new := forall_mem_append.mpr ⟨told.new, forall_mem_singleton.mpr fun new => absurd (old.symm.trans new) nofun⟩

theorem Told.replace {change : LiveJob → LiveJob} {same : ∀ row, (change row).id = row.id}
    (queue : ∀ row, (change row).queue = row.queue) (told : Told before pre rows) (mem : row ∈ pre.jobs)
    (listed : result ∈ rows) (live : result.job.finalizedAt = none) (waits : result.job.queue = row.queue) :
    Told before (W.updateJob row.id change same pre) rows where
  stays id held := by
    rw [W.has_updateJob]
    exact told.stays id held
  added other among absent := by
    rcases W.mem_updateJob.mp among with ⟨held, _⟩ | ⟨old, held, _, rfl⟩
    · exact told.added other held absent
    · rw [same] at absent
      rw [queue]
      exact told.added old held absent
  changed other among := by
    rcases W.mem_updateJob.mp among with ⟨held, _⟩ | ⟨old, held, keyed, rfl⟩
    · exact told.changed other held
    · obtain rfl := Table.eq_of_key held mem keyed
      exact .inr ⟨result, listed, live, waits.trans (queue old).symm⟩
  new other among fresh := by
    obtain ⟨held, member, absent, named⟩ := told.new other among fresh
    by_cases keyed : held.id = row.id
    · exact ⟨change held, W.mem_updateJob.mpr (.inr ⟨held, member, keyed, rfl⟩), by rwa [same], by rwa [queue]⟩
    · exact ⟨held, W.mem_updateJob.mpr (.inl ⟨member, keyed⟩), absent, named⟩

theorem Told.insert (told : Told before pre rows) (free : pre.jobs.has row.id = false)
    (jobs : post.jobs = pre.jobs.append row free) : Told before post (rows ++ [⟨scanJob row, false⟩]) where
  stays id held := by
    obtain ⟨other, member, keyed⟩ := Table.has_eq_true.mp (told.stays id held)
    rw [jobs]
    exact Table.has_eq_true.mpr ⟨other, (Table.mem_append free).mpr (.inl member), keyed⟩
  added other among absent := by
    rw [jobs, Table.mem_append] at among
    rcases among with held | rfl
    · obtain ⟨told, listed, rest⟩ := told.added other held absent
      exact ⟨told, mem_append_left _ listed, rest⟩
    · exact ⟨_, mem_append_right _ (mem_singleton_self _), rfl, rfl⟩
  changed other among := by
    rw [jobs, Table.mem_append] at among
    rcases among with held | rfl
    · exact (told.changed other held).imp_right fun ⟨told, listed, rest⟩ => ⟨told, mem_append_left _ listed, rest⟩
    · exact .inr ⟨_, mem_append_right _ (mem_singleton_self _), rfl, rfl⟩
  new := by
    have fresh : before.jobs.has row.id = false :=
      Bool.eq_false_iff.mpr fun held => by simp [told.stays row.id held] at free
    refine forall_mem_append.mpr ⟨fun other listed isNew => ?_, forall_mem_singleton.mpr fun _ => ?_⟩
    · obtain ⟨held, member, rest⟩ := told.new other listed isNew
      exact ⟨held, jobs ▸ (Table.mem_append free).mpr (.inl member), rest⟩
    · exact ⟨row, jobs ▸ (Table.mem_append free).mpr (.inr rfl), fresh, rfl⟩

theorem insertOne_told {job : JobInsert} (mints : job.id = 0) (unbatched : job.batchID = 0) (told : Told before pre rows)
    (inserted : Yields (x.insertOne onConflict job) pre result post) : Told before post (rows ++ [result]) := by
  rcases W.yields_insertOne inserted with
    ⟨holder, found, old, ⟨_, _, read, rfl⟩ | ⟨_, _, rfl⟩⟩ | ⟨_, _, _, _, rfl, ⟨_, rfl⟩ | ⟨batched, _⟩⟩ | ⟨_, _, fresh, stored⟩
  · obtain ⟨_, mem, _⟩ := liveDuplicate_eq_some found
    exact (told.more old).replace (fun _ => rfl) mem (mem_append_right _ (mem_singleton_self _)) (by rw [read]; rfl) (by rw [read]; rfl)
  · exact told.more old
  · exact told.more rfl
  · exact absurd unbatched batched
  · obtain ⟨row, duplicate⟩ := result
    cases fresh
    obtain ⟨free, _, rfl, rfl⟩ := W.yields_insertJob mints stored
    exact told.insert free rfl

theorem insertJobs_told {jobs : List JobInsert} (plain : ∀ job ∈ jobs, job.id = 0 ∧ job.batchID = 0) (told : Told before pre rows)
    (inserted : Yields (x.insertJobs jobs onConflict) pre results post) : Told before post (rows ++ results) := by
  unfold W.insertJobs at inserted
  induction jobs generalizing pre rows results with
  | nil =>
    obtain ⟨rfl, rfl⟩ := yields_mapM_nil.mp inserted
    rwa [append_nil]
  | cons job jobs ih =>
    obtain ⟨result, middle, rest, first, others, rfl⟩ := yields_mapM_cons.mp inserted
    obtain ⟨⟨mints, unbatched⟩, plain⟩ := forall_mem_cons.mp plain
    rw [append_cons]
    exact ih plain (insertOne_told mints unbatched told first) others

variable {engine : Engine} {inputs : List Input} {replies : List Reply} {after : Store}

theorem executed_told (unbatched : ∀ input ∈ inputs, input.params.batchID = 0) (told : Told before pre rows)
    (executed : Executed (fun _ _ => False) (StoreAnswers engine fun _ _ => True) inputs false pre replies after) :
    Told before after (rows ++ replies.flatMap Prod.snd) := by
  induction executed generalizing rows with
  | nil => rwa [flatMap_nil, append_nil]
  | cons between answered next ih =>
    cases between with
    | tail _ other => exact other.elim
    | refl =>
      obtain ⟨_, _, is⟩ := answered
      obtain ⟨jobs, _, _, encoded, stored, rfl⟩ := W.yields_jobInsertMany (Call.reply_ok is)
      have plain (job : JobInsert) (mem : job ∈ jobs) : job.id = 0 ∧ job.batchID = 0 := by
        obtain ⟨given, among, made⟩ := mapM_ok_mem encoded mem
        obtain ⟨index, _, indexed⟩ := mem_filterMap.mp among
        obtain ⟨input, found, rfl⟩ := Option.map_eq_some_iff.mp indexed
        rw [encodeInsert_ok made]
        exact ⟨rfl, unbatched input (mem_of_getElem? found)⟩
      obtain ⟨stays, added, changed, new⟩ := insertJobs_told plain told stored
      rw [flatMap_cons, ← append_assoc]
      exact ih ⟨stays, added, changed, new⟩

theorem mem_wokenQueues {queue : String} {returned : List (Option InsertResult)} : queue ∈ wokenQueues inputs returned ↔
    ∃ result, some result ∈ returned ∧ result.job.queue = queue ∧
      (result.duplicate = false ∨ firstReplaces inputs = true ∧ result.job.finalizedAt = none) := by
  simp only [wokenQueues, mem_map, mem_filterMap, Option.filter_eq_some_iff]
  simp only [Bool.or_eq_true, Bool.not_eq_true', Bool.and_eq_true, Option.isNone_iff_eq_none]
  constructor
  · rintro ⟨result, ⟨_, mem, rfl, wakes⟩, named⟩
    exact ⟨result, mem, named, wakes⟩
  · rintro ⟨result, mem, named, wakes⟩
    exact ⟨result, ⟨_, mem, rfl, wakes⟩, named⟩

variable {Args : Type} {client : Config Args} {params : List (InsertParams Args)} {order : Nat → Bool}
  {returned : List (Option InsertResult)}

end

def greet : Input :=
  { params := { kind := "greet", queue := "a", priority := 2, maxAttempts := 3 } }

def notice : Input :=
  { params := { kind := "notice", queue := "b", priority := 2, maxAttempts := 3, uniqueKey := "*" }, onConflict := .replace }

def noticed : Store :=
  ((Call.jobInsertMany [notice.params] {}).reply .counting 1000 {}).2

def insertInputs (inputs : List Input) : Code (List (Option InsertResult)) :=
  builtClient.insertMany (fun _ => true) (inputs.map fun input => { args := input }) false

theorem insertInputs_runs (inputs : List Input) : Runs (fun _ _ => False) (StoreAnswers .counting fun _ _ => True) noticed
    (insertInputs inputs) ((insertInputs inputs).exec (alone 2000) noticed).1 ((insertInputs inputs).exec (alone 2000) noticed).2 :=
  alone_runs 2000 (Program.meets_of_forall (fun _ _ _ => trivial) _ _)

instance (before after : Store) (queue : String) : Decidable (Replaces before after queue) :=
  inferInstanceAs (Decidable (∃ old ∈ before.jobs.rows, ∃ row ∈ after.jobs.rows, row.id = old.id ∧ row ≠ old ∧ row.queue = queue))

end Hopper.Guarantees
