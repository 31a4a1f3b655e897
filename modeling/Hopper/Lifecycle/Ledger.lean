import Hopper.Kernel.Countdown
import Hopper.Lifecycle.Descent

/-! Batches as counters. The journal says which jobs came into a batch and
which inputs of it were found finished; the batch's row is the counter that is
told of them. -/

namespace Hopper.Lifecycle

open Kernel Driver Sqlite

def failing (state : JobState) : Bool :=
  decide (state = .canceled ∨ state = .discarded)

theorem failed_eq_failing {finished : Finished} (terminal : finished.state.terminal = true) :
    finished.failed = failing finished.state := by
  cases state : finished.state <;> simp_all [Finished.failed, failing, JobState.terminal]

def failedLast (journal : List Event) (id : JobID) : Bool :=
  (lastEnding? journal id).any failing

def joined (journal : List Event) (batch : JobID) : List JobID :=
  ((births journal).filter fun row => decide (row.batchID = some batch)).map fun row => row.id

def found? (batch : JobID) : Event → Option Bool
  | .found other failed => if other = batch then some failed else none
  | _ => none

/-- The inputs of a batch found finished, and whether they had failed. -/
def foundIn (journal : List Event) (batch : JobID) : List Bool :=
  journal.filterMap (found? batch)

def completion? (batch : JobID) : Event → Option Int
  | .completed other failed => if other = batch then some failed else none
  | _ => none

/-- The failures a batch completed with, each time it did. -/
def completions (journal : List Event) (batch : JobID) : List Int :=
  journal.filterMap (completion? batch)

end Hopper.Lifecycle

namespace Hopper.Sqlite.BatchRow

def counter (row : BatchRow) : Kernel.Counter :=
  { total := row.total, pending := row.pending, failed := row.failed, closed := row.completedAt.isSome }

end Hopper.Sqlite.BatchRow

namespace Hopper.Lifecycle

open List Kernel Driver Sqlite

/-- The jobs of a batch counted, from what happened to them. -/
def tally (batch : JobID) (stage : Stage) : Tally where
  arrived := (joined stage.store.journal batch).length + (foundIn stage.store.journal batch).length
  present := (joined stage.store.journal batch).countP stage.store.live
  failures := (foundIn stage.store.journal batch).count true +
    (joined stage.store.journal batch).countP fun id =>
      !stage.store.live id && failedLast stage.store.journal id
  due := W.countOf stage.due batch
  dueFailures := W.failedOf stage.due batch
  counter := (stage.store.batches.find? batch).map BatchRow.counter
  closings := completions stage.store.journal batch

section
variable {batch : JobID} {pre post : Store} {id : JobID}

theorem mem_joined {journal : List Event} :
    id ∈ joined journal batch ↔ ∃ born ∈ births journal, born.batchID = some batch ∧ born.id = id := by
  simp [joined, and_assoc]

namespace Descent

variable {roster : Roster}

variable (descent : Descent roster)
include descent

theorem joined_nodup (batch : JobID) : (joined roster.journal batch).Nodup :=
  descent.distinct.sublist (filter_sublist.map _)

theorem born_unique {first second : LiveJob} (firstBorn : first ∈ births roster.journal)
    (secondBorn : second ∈ births roster.journal) (same : first.id = second.id) : first = second :=
  inj_on_of_nodup_map descent.distinct firstBorn secondBorn same

theorem born_joined {born : LiveJob} (among : born ∈ births roster.journal) :
    born.id ∈ joined roster.journal batch ↔ born.batchID = some batch := by
  rw [mem_joined]
  constructor
  · rintro ⟨other, otherAmong, inBatch, otherID⟩
    rw [← descent.born_unique otherAmong among otherID, inBatch]
  · exact fun inBatch => ⟨born, among, inBatch, rfl⟩

theorem live_joined {row : LiveJob} (mem : row ∈ roster.jobs) :
    row.id ∈ joined roster.journal batch ↔ row.batchID = some batch := by
  obtain ⟨born, among, id, same⟩ := descent.jobs row mem
  rw [← id, ← same, descent.born_joined among]

theorem past_joined {past : HistoryJob} (mem : past ∈ roster.history) :
    past.id ∈ joined roster.journal batch ↔ past.batchID = some batch := by
  obtain ⟨born, among, id, same⟩ := descent.history past mem
  rw [← id, ← same, descent.born_joined among]

end Descent

theorem live_iff {store : Store} : store.live id = true ↔ ∃ row ∈ store.jobs, row.id = id :=
  Table.has_eq_true

structure Unmoved (batch : JobID) (before after : Store) : Prop where
  joined : joined after.journal batch = joined before.journal batch
  found : foundIn after.journal batch = foundIn before.journal batch
  live : ∀ id ∈ Lifecycle.joined before.journal batch, after.live id = before.live id
  endings : ∀ id ∈ Lifecycle.joined before.journal batch, lastEnding? after.journal id = lastEnding? before.journal id

namespace Unmoved

theorem present (unmoved : Unmoved batch pre post) (due : List Finished) :
    (tally batch ⟨post, due⟩).arrived = (tally batch ⟨pre, due⟩).arrived ∧
      (tally batch ⟨post, due⟩).present = (tally batch ⟨pre, due⟩).present ∧
      (tally batch ⟨post, due⟩).failures = (tally batch ⟨pre, due⟩).failures := by
  simp only [tally, unmoved.joined, unmoved.found, true_and, Nat.add_left_cancel_iff]
  constructor
  · exact countP_congr fun id mem => by rw [unmoved.live id mem]
  · exact countP_congr fun id mem => by
      rw [unmoved.live id mem, failedLast, failedLast, unmoved.endings id mem]

theorem tally_eq (unmoved : Unmoved batch pre post) {due left : List Finished}
    (counter : (post.batches.find? batch).map BatchRow.counter = (pre.batches.find? batch).map BatchRow.counter)
    (closings : completions post.journal batch = completions pre.journal batch)
    (count : W.countOf left batch = W.countOf due batch) (failed : W.failedOf left batch = W.failedOf due batch) :
    tally batch ⟨post, left⟩ = tally batch ⟨pre, due⟩ := by
  obtain ⟨arrived, present, failures⟩ := unmoved.present due
  simp only [tally] at arrived present failures ⊢
  simp only [arrived, present, failures, counter, closings, count, failed]

theorem of_events {events : List Event} (journal : post.journal = events ++ pre.journal)
    (barren : ∀ event ∈ events, birth? event = none) (unfound : ∀ event ∈ events, found? batch event = none)
    (unended : ∀ id ∈ Lifecycle.joined pre.journal batch, ∀ event ∈ events, ended? id event = none)
    (live : ∀ id ∈ Lifecycle.joined pre.journal batch, post.live id = pre.live id) :
    Unmoved batch pre post where
  joined := by
    rw [journal, Lifecycle.joined, births, filterMap_append, filterMap_eq_nil_iff.mpr barren]
    rfl
  found := by
    rw [journal, foundIn, filterMap_append, filterMap_eq_nil_iff.mpr unfound]
    rfl
  live := live
  endings := fun id mem => by rw [journal, lastEnding_append (unended id mem)]

end Unmoved

end

end Hopper.Lifecycle
