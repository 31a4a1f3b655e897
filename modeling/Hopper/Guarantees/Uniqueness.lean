import Hopper.Guarantees.Indexes
import Hopper.Lifecycle.Journal

/-! A kind's unique key has at most one live holder, no insert fails on the
index that says so, and an insert that finds a holder is answered with it. -/

namespace Hopper.Guarantees

open List Kernel Driver Sqlite Lifecycle

def Holds (job : JobInsert) (row : Job) : Prop :=
  job.uniqueKey ≠ "" ∧ row.kind = job.kind ∧ row.uniqueKey = some job.uniqueKey

/-- A finished job is the latest with an input's key in a state it asks for. -/
structure LatestFinished (job : JobInsert) (history : List HistoryJob) (found : HistoryJob) : Prop where
  member : found ∈ history
  holds : Holds job found.toJob
  asked : found.state ∈ job.uniqueFinished
  latest : ∀ other ∈ history, Holds job other.toJob → other.state ∈ job.uniqueFinished →
    other.finalizedAt < found.finalizedAt ∨ (other.finalizedAt = found.finalizedAt ∧ other.seq ≤ found.seq)

/-- How an insert answers one input. A duplicate is answered with the live
holder of its key, as a replacing insert leaves it, or else with the latest
finished one, and nothing is inserted for it; only the callbacks of the batch
that counts a finished one may be. -/
inductive Answered (job : JobInsert) (before : Roster) : JobInsertResult → Roster → Prop where
  | inserted {after : Roster} (row : LiveJob) (absent : ∀ other ∈ before.jobs, ¬Holds job other.toJob)
      (member : row ∈ after.jobs) (kind : row.kind = job.kind) (key : row.uniqueKey = nullable job.uniqueKey)
      (added : after.journal.filterMap Event.inserted? = row :: before.journal.filterMap Event.inserted?) :
      Answered job before ⟨scanJob row, false⟩ after
  | live {after : Roster} (old row : LiveJob) (member : old ∈ before.jobs) (holds : Holds job old.toJob)
      (stays : row ∈ after.jobs) (kept : Kept old row) (journal : after.journal = before.journal)
      (jobs : ∀ id, after.jobs.has id = before.jobs.has id) :
      Answered job before ⟨scanJob row, true⟩ after
  | finished {after : Roster} (found : HistoryJob) (absent : ∀ other ∈ before.jobs, ¬Holds job other.toJob)
      (latest : LatestFinished job before.history found)
      (added : after.journal.filterMap Event.inserted? = before.journal.filterMap Event.inserted?)
      (jobs : ∀ row ∈ after.jobs, row ∈ before.jobs ∨ ∃ batch, .callback batch row ∈ after.journal) :
      Answered job before ⟨scanHistoryJob found, true⟩ after

/-- How an insert answers its inputs, one after the other. -/
inductive Answers : Roster → List JobInsert → List JobInsertResult → Roster → Prop where
  | nil (roster : Roster) : Answers roster [] [] roster
  | cons {before middle after : Roster} {job : JobInsert} {jobs : List JobInsert} {result : JobInsertResult}
      {results : List JobInsertResult} (first : Answered job before result middle)
      (rest : Answers middle jobs results after) : Answers before (job :: jobs) (result :: results) after

section
variable {engine : Engine} {pre after : Store}

variable {job : JobInsert} {x : W} {results : List JobInsertResult} {onConflict : ConflictAction}

theorem latestFinished_of_finishedDuplicate {found : HistoryJob} (named : job.uniqueKey ≠ "")
    (selected : W.finishedDuplicate pre job = some found) : LatestFinished job pre.history found := by
  obtain ⟨mem, greatest⟩ := W.finishedDuplicate_eq_some selected
  obtain ⟨listed, facts⟩ := mem_filter.mp mem
  rw [decide_eq_true_eq] at facts
  refine ⟨listed, ⟨named, facts.1, facts.2.1⟩, facts.2.2, fun other otherMem holds asked => ?_⟩
  have below := greatest other (mem_filter.mpr ⟨otherMem, decide_eq_true ⟨holds.2.1, holds.2.2, asked⟩⟩)
  simpa only [W.finishedLater, Bool.or_eq_true, Bool.and_eq_true, decide_eq_true_eq] using below

theorem absent_of_liveDuplicate (none : W.liveDuplicate pre job = none) : ∀ other ∈ pre.jobs, ¬Holds job other.toJob := by
  intro other mem holds
  unfold W.liveDuplicate at none
  rw [if_neg holds.1] at none
  exact absurd (decide_eq_true holds.2) (List.find?_eq_none.mp none other mem)

theorem insertJob_answered {row : JobRow} (absent : ∀ other ∈ pre.jobs, ¬Holds job other.toJob)
    (inserted : Yields (x.insertJob job) pre row after) :
    Answered job (roster pre) ⟨row, false⟩ (roster after) := by
  have inserts (id : JobID) {middle : Store} (same : roster middle = roster pre)
      (inserted : Yields (W.insertRow (x.newRow job id) .inserted) middle row after) :
      Answered job (roster pre) ⟨row, false⟩ (roster after) := by
    obtain ⟨free, _, rfl, rfl⟩ := W.yields_insertRow inserted
    refine .inserted _ absent ((Table.mem_append free).mpr (.inr rfl)) rfl rfl ?_
    rw [← same]
    rfl
  unfold W.insertJob W.insertJobAs at inserted
  split at inserted
  · obtain ⟨id, middle, minted, inserted⟩ := yields_bind.mp inserted
    refine inserts id ?_ inserted
    rw [(W.yields_mint.mp minted).2]
    rfl
  · exact inserts job.id rfl inserted

theorem insertOne_answered {result : JobInsertResult}
    (inserted : Yields (x.insertOne onConflict job) pre result after) :
    Answered job (roster pre) result (roster after) := by
  obtain ⟨row, duplicate⟩ := result
  rcases W.yields_insertOne inserted with
    ⟨holder, found, rfl, replaces⟩ | ⟨none, named, found, selected, same, counts⟩ | ⟨none, _, rfl, stored⟩
  · obtain ⟨named, mem, kind, key⟩ := liveDuplicate_eq_some found
    rcases replaces with ⟨_, _, rfl, rfl⟩ | ⟨_, rfl, rfl⟩
    · have stays : x.replaced job holder ∈ (W.updateJob holder.id (x.replaced job) (fun _ => rfl) pre).jobs :=
        W.mem_updateJob.mpr (.inr ⟨holder, mem, rfl, rfl⟩)
      exact .live holder _ mem ⟨named, kind, key⟩ stays ⟨rfl, rfl, rfl, rfl, rfl, rfl, rfl, rfl⟩ rfl fun id =>
        W.has_updateJob holder.id (x.replaced job) (fun _ => rfl) pre id
    · exact .live holder holder mem ⟨named, kind, key⟩ mem (.refl holder) rfl fun _ => rfl
  · have absent := absent_of_liveDuplicate none
    have latest := latestFinished_of_finishedDuplicate named selected
    cases same
    rcases counts with ⟨_, rfl⟩ | ⟨_, counted⟩
    · exact .finished found absent latest rfl fun row mem => .inl mem
    · refine .finished found absent latest ?_ fun row mem => ?_
      · exact (countBatch_logs _ _ counted).filterMap_eq fun event kind => by
          cases event <;> first | rfl | cases kind
      · -- The batch that counts the input completes at most: its callbacks are all that is new.
        obtain ⟨rows, counts⟩ := W.countBatch_counts counted
        obtain ⟨events, journal, _⟩ := counts.journal
        rw [Table.mem_def, show (roster after).jobs.rows = _ from counts.jobs] at mem
        refine (List.mem_append.mp mem).imp_right fun new => ⟨job.batchID, ?_⟩
        rw [show (roster after).journal = _ from journal]
        exact mem_append_left _ (mem_reverse.mpr (mem_map_of_mem new))
  · exact insertJob_answered (absent_of_liveDuplicate none) stored

theorem insertJobs_answers {jobs : List JobInsert}
    (inserted : Yields (x.insertJobs jobs onConflict) pre results after) :
    Answers (roster pre) jobs results (roster after) := by
  unfold W.insertJobs at inserted
  induction jobs generalizing pre results with
  | nil =>
    obtain ⟨rfl, rfl⟩ := yields_mapM_nil.mp inserted
    exact .nil _
  | cons job jobs ih =>
    obtain ⟨result, middle, rest, first, others, rfl⟩ := yields_mapM_cons.mp inserted
    exact .cons (insertOne_answered first) (ih others)

/-! The operations that insert jobs with keys. -/

theorem periodicInsert_answers {params : PeriodicInsertParams} {reply : Option JobInsertResult}
    (inserted : Yields (x.periodicInsert params) pre reply after) :
    ∃ job, encodeInsert params.job = .ok job ∧ ((reply = none ∧ after = pre) ∨
      ∃ result, reply = some result ∧ Answers (roster pre) [job] [result] (roster after)) := by
  simp only [W.periodicInsert, yields_bind, yields_ensure, yields_describing, yields_get] at inserted
  obtain ⟨job, _, ⟨encoded, rfl⟩, _, store, ⟨rfl, rfl⟩, inserted⟩ := inserted
  refine ⟨job, encoded, ?_⟩
  split at inserted
  · obtain ⟨rfl, rfl⟩ := yields_pure.mp inserted
    exact .inl ⟨rfl, rfl⟩
  · next advanced moved =>
    simp only [yields_bind, yields_set, yields_modify, yields_pure] at inserted
    obtain ⟨_, slotted, rfl, result, middle, inserted, _, _, rfl, rfl, rfl⟩ := inserted
    refine .inr ⟨result, rfl, ?_⟩
    have same : roster slotted = roster store := by
      unfold W.advanceSlot at moved
      split at moved
      · cases moved
      · cases moved
        rfl
    rw [roster_notify, ← same]
    exact .cons (insertOne_answered inserted) (.nil _)

/-- A kind's unique key has at most one live holder, no operation fails on the
index that says so, and every input reported as a duplicate is reported with
the job that holds its key and adds none. -/
theorem unique_keys_held_once {store : Store} (reachable : Reachable engine (fun _ operation => operation.PositiveClient) store) :
    (∀ first ∈ store.jobs, ∀ second ∈ store.jobs, first.kind = second.kind →
      first.uniqueKey = second.uniqueKey → first.uniqueKey ≠ none → first = second) ∧
    (∀ now (operation : Operation) failure, operation.PositiveClient →
      Fails (operation.run ⟨engine, now⟩) store failure → ¬BreaksUnique failure) ∧
    (∀ now params opts results after, Yields (W.jobInsertMany ⟨engine, now⟩ params opts) store results after →
      ∃ jobs, params.mapM encodeInsert = .ok jobs ∧ Answers (roster store) jobs results (roster after)) ∧
    (∀ now params reply after, Yields (W.periodicInsert ⟨engine, now⟩ params) store reply after →
      ∃ job, encodeInsert params.job = .ok job ∧ ((reply = none ∧ after = store) ∨
        ∃ result, reply = some result ∧ Answers (roster store) [job] [result] (roster after))) ∧
    ∀ now params results after, Yields (W.messagePublish ⟨engine, now⟩ params) store results after →
      ∃ priority message, Answers (roster store) (((store.subscriptions.rows.filter fun row =>
        engine.topicMatches row.pattern params.topic).insertionSort fun left right => left.name ≤ right.name).map
          (W.deliveryInsert ⟨engine, now⟩ params priority message)) results (roster after) := by
  have reached := positive_reached reachable
  refine ⟨reached.orderly.unique, ?_, ?_, ?_, ?_⟩
  · exact fun now operation failure _ fails breaks =>
      run_avoids reached ⟨engine, now⟩ operation failure fails (.inl breaks)
  · intro now params opts results after inserted
    obtain ⟨jobs, middle, notes, encoded, stored, rfl⟩ := W.yields_jobInsertMany inserted
    have answers := insertJobs_answers stored
    exact ⟨jobs, encoded, answers⟩
  · exact fun now params reply after inserted => periodicInsert_answers inserted
  · intro now params results after published
    obtain ⟨priority, last, notes, inserted, rfl⟩ := W.yields_messagePublish published
    have answers := insertJobs_answers inserted
    exact ⟨priority, _, answers⟩

def sameKeyTwice : List (Int × Operation) :=
  [(0, .jobInsertMany
    [{ kind := "mail", queue := "default", priority := 1, maxAttempts := 3, uniqueKey := "account" },
     { kind := "mail", queue := "default", priority := 2, maxAttempts := 3, uniqueKey := "account" }] {})]

theorem unique_keys_held_once_twice :
    (Operation.after .counting sameKeyTwice).jobs.rows.map (fun row => (row.kind, row.uniqueKey)) = [("mail", some "account")] ∧
      ∀ now (operation : Operation) failure, operation.PositiveClient →
        Fails (operation.run ⟨.counting, now⟩) (Operation.after .counting sameKeyTwice) failure → ¬BreaksUnique failure := by
  refine ⟨by decide +kernel, (unique_keys_held_once (Operation.AllAllowed.reachable ?_)).2.1⟩
  exact ⟨trivial, trivial⟩

end

end Hopper.Guarantees
