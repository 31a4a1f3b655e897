import Hopper.Lifecycle.Balance
import Hopper.Lifecycle.Journal

/-! The callbacks of batches: inserted when a batch completes, and only then. -/

namespace Hopper.Lifecycle

open List Option Kernel Driver Sqlite

def callback? (batch : JobID) : Event → Option LiveJob
  | .callback other row => if other = batch then some row else none
  | _ => none

/-- The callbacks inserted of a batch, in the order they were. -/
def callbacksIn (journal : List Event) (batch : JobID) : List LiveJob :=
  (journal.filterMap (callback? batch)).reverse

/-- The job of a batch's callback, with the batch's ID and failures. -/
def CallbackJob (batch : JobID) (callback : Callback × Int) (row : LiveJob) : Prop :=
  ∃ (x : W) (id : JobID) (seq : Nat),
    row = { x.newRow (W.callbackInsert callback.1 batch callback.2) id with seq := seq }

/-- The callbacks of a batch each with the failures it completed with. -/
def callbacksWith (row : BatchRow) (failed : Int) : List (Callback × Int) :=
  (W.callbacksOf row failed).map fun callback => (callback, failed)

/-- The part of a batch's row that its counts leave alone. -/
def fixed (row : BatchRow) : BatchRow :=
  { row with pending := 0, failed := 0, completedAt := none }

theorem callbacksWith_fixed {first second : BatchRow} (same : fixed first = fixed second) :
    callbacksWith first = callbacksWith second := by
  have alike (row : BatchRow) : callbacksWith (fixed row) = callbacksWith row := rfl
  rw [← alike first, same, alike]

/-- Whenever a batch completed, its callbacks were inserted, and none else. -/
structure CallsBack (batch : JobID) (store : Store) : Prop where
  unopened : store.batches.find? batch = none →
    completions store.journal batch = [] ∧ callbacksIn store.journal batch = []
  called : ∀ row, store.batches.find? batch = some row → List.Forall₂ (CallbackJob batch)
    ((completions store.journal batch).reverse.flatMap (callbacksWith row)) (callbacksIn store.journal batch)

def plain : Event → Bool
  | .completed _ _ | .callback _ _ => false
  | _ => true

section
variable {rules : Rules} {engine : Engine} {batch : JobID} {pre post : Store}

theorem Logs.completions_eq (logs : Logs plain pre post) : completions post.journal batch = completions pre.journal batch :=
  logs.filterMap_eq fun event is => by cases event <;> first | rfl | cases is

theorem Logs.callbacksIn_eq (logs : Logs plain pre post) :
    callbacksIn post.journal batch = callbacksIn pre.journal batch := by
  rw [callbacksIn, logs.filterMap_eq fun event is => by cases event <;> first | rfl | cases is]
  rfl

namespace CallsBack

theorem empty : CallsBack batch {} where
  unopened := fun _ => ⟨rfl, rfl⟩
  called := by
    intro row found
    have none : ({} : Store).batches.find? batch = none := rfl
    rw [none] at found
    cases found

variable (calls : CallsBack batch pre)
include calls

theorem of_same (completed : completions post.journal batch = completions pre.journal batch)
    (callbacks : callbacksIn post.journal batch = callbacksIn pre.journal batch)
    (same : (post.batches.find? batch).map fixed = (pre.batches.find? batch).map fixed) :
    CallsBack batch post where
  unopened := by
    intro none
    rw [completed, callbacks]
    rw [none] at same
    exact calls.unopened (map_eq_none_iff.mp same.symm)
  called := by
    intro row found
    rw [found, map_some] at same
    obtain ⟨old, oldFound, fixedOld⟩ := map_eq_some_iff.mp same.symm
    rw [completed, callbacks, ← callbacksWith_fixed fixedOld]
    exact calls.called old oldFound

theorem of_logs (logs : Logs plain pre post)
    (same : (post.batches.find? batch).map fixed = (pre.batches.find? batch).map fixed) :
    CallsBack batch post :=
  calls.of_same logs.completions_eq logs.callbacksIn_eq same

theorem opened (logs : Logs plain pre post) {row : BatchRow}
    (free : pre.batches.has row.id = false) (batches : post.batches = pre.batches.append row free) :
    CallsBack batch post := by
  by_cases same : row.id = batch
  · have absent : pre.batches.find? batch = none := by
      rw [← same]
      exact isNone_iff_eq_none.mp (isSome_eq_false_iff.mp free)
    obtain ⟨completions, callbacks⟩ := calls.unopened absent
    refine ⟨fun _ => ?_, fun other _ => ?_⟩
    · rw [logs.completions_eq, logs.callbacksIn_eq]
      exact ⟨completions, callbacks⟩
    · rw [logs.completions_eq, logs.callbacksIn_eq, completions, callbacks]
      exact .nil
  · refine calls.of_logs logs ?_
    rw [batches, Table.find?_append, key_batchRow, if_neg same]

end CallsBack

theorem callbackRows_jobs (x : W) (failed : Int) (callbacks : List Callback) (drawn seq : Nat) :
    List.Forall₂ (CallbackJob batch) (callbacks.map fun callback => (callback, failed))
      (x.callbackRows batch failed callbacks drawn seq) := by
  induction callbacks generalizing drawn seq with
  | nil => exact .nil
  | cons callback rest ih => exact .cons ⟨x, _, _, rfl⟩ (ih (drawn + 1) (seq + 1))

theorem completed_callsBack {x : W} {row : BatchRow} {failed : Int} (calls : CallsBack batch pre)
    (found : pre.batches.find? batch = some row)
    (called : Yields (forM (W.callbacksOf row failed) (x.insertCallback batch failed))
      (x.completeBatch row failed pre) () post) : CallsBack batch post := by
  obtain ⟨jobs, notes, _, rfl⟩ := W.yields_insertCallbacks called
  have keyed : row.id = batch := Table.key_of_find? found
  have batches : (x.completeBatch row failed pre).batches.find? batch =
      some { row with pending := 0, failed := failed, completedAt := some x.now } := by
    simp [W.completeBatch, Table.find?_modify, keyed, found]
  have completions : completions (x.completeBatch row failed pre).journal batch =
      failed :: Lifecycle.completions pre.journal batch := by
    simp [W.completeBatch, Lifecycle.completions, completion?, keyed]
  have callbacks (rows : List LiveJob) :
      callbacksIn ((rows.map (Event.callback batch)).reverse ++ (x.completeBatch row failed pre).journal) batch =
        callbacksIn pre.journal batch ++ rows := by
    have observed : rows.filterMap (fun row => callback? batch (Event.callback batch row)) = rows := by
      simp [callback?]
    rw [callbacksIn, filterMap_append, reverse_append, filterMap_reverse, reverse_reverse, filterMap_map]
    exact congrArg (callbacksIn pre.journal batch ++ ·) observed
  refine ⟨fun none => ?_, fun other is => ?_⟩
  · rw [batches] at none
    cases none
  · rw [batches] at is
    cases is
    simp only [completions_of_callbacks, completions, callbacks, reverse_cons, flatMap_append,
      flatMap_cons, flatMap_nil, append_nil]
    exact rel_append (calls.called row found) (callbackRows_jobs x failed (W.callbacksOf row failed) _ _)

theorem countBatch_callsBack {x : W} {owner : JobID} {count failed : Int} (calls : CallsBack batch pre)
    (counted : Yields (x.countBatch owner count failed) pre () post) : CallsBack batch post := by
  rcases W.yields_countBatch counted with ⟨_, rfl⟩ | ⟨row, found, ⟨_, rfl⟩ | ⟨_, _, rfl⟩ | ⟨_, _, called⟩⟩
  · exact calls
  · exact calls
  · refine calls.of_logs (.of_journal rfl) ?_
    rw [Table.find?_modify]
    split
    · next same =>
      rw [same, found]
      rfl
    · rfl
  · by_cases same : owner = batch
    · subst same
      exact completed_callsBack calls found called
    · obtain ⟨_, completed⟩ := countBatch_other same counted
      obtain ⟨jobs, notes, _, rfl⟩ := W.yields_insertCallbacks called
      refine calls.of_same completed ?_ ?_
      · rw [callbacksIn, filterMap_blind (forall_mem_entered fun _ => ?_)]
        · rfl
        · exact if_neg same
      · have keyed : row.id = owner := Table.key_of_find? found
        simp only [W.completeBatch, Table.find?_modify, keyed, if_neg fun equal : batch = owner => same equal.symm]

/-- One thing that is done to batches, with what the journal is told of their
ends: a batch is opened or counted, or all stay but for their counts. -/
inductive Books (before after : Store) : Prop where
  | kept (logs : Logs plain before after)
      (same : ∀ batch, (after.batches.find? batch).map fixed = (before.batches.find? batch).map fixed)
  | opened {row : BatchRow} (logs : Logs plain before after) (free : before.batches.has row.id = false)
      (batches : after.batches = before.batches.append row free)
  | counted {x : W} {owner : JobID} {count failed : Int} (counted : Yields (x.countBatch owner count failed) before () after)

theorem Books.callsBack (books : Books pre post) (calls : CallsBack batch pre) : CallsBack batch post := by
  cases books with
  | kept logs same => exact calls.of_logs logs (same batch)
  | opened logs free batches => exact calls.opened logs free batches
  | counted counted => exact countBatch_callsBack calls counted

def KeepsFixed (before after : Store) : Prop :=
  ∀ id row, before.batches.find? id = some row → ∃ later, after.batches.find? id = some later ∧ fixed later = fixed row

theorem KeepsFixed.refl (store : Store) : KeepsFixed store store :=
  fun _ row found => ⟨row, found, rfl⟩

theorem KeepsFixed.trans {first second third : Store} (early : KeepsFixed first second) (late : KeepsFixed second third) :
    KeepsFixed first third := by
  intro id row found
  obtain ⟨middle, middleFound, same⟩ := early id row found
  obtain ⟨last, lastFound, lastSame⟩ := late id middle middleFound
  exact ⟨last, lastFound, lastSame.trans same⟩

theorem Books.keepsFixed (books : Books pre post) : KeepsFixed pre post := by
  intro id row found
  have modified {owner : JobID} {change : BatchRow → BatchRow} (same : ∀ row, Keyed.key (change row) = Keyed.key row)
      (batches : post.batches = pre.batches.modify owner change same) (counts : ∀ row, fixed (change row) = fixed row) :
      ∃ later, post.batches.find? id = some later ∧ fixed later = fixed row := by
    rw [batches, Table.find?_modify]
    split
    · exact ⟨change row, by rw [found]; rfl, counts row⟩
    · exact ⟨row, found, rfl⟩
  cases books with
  | kept _ same => exact map_eq_some_iff.mp ((same id).trans (by rw [found]; rfl))
  | @opened opened _ free batches =>
    refine ⟨row, ?_, rfl⟩
    rw [batches, Table.find?_append, if_neg, found]
    rintro rfl
    exact absurd (Table.has_eq_true.mpr ⟨row, Table.find?_eq_some.mp found⟩) (by rw [key_batchRow, free]; decide)
  | counted counted =>
    rcases W.yields_countBatch counted with ⟨_, rfl⟩ | ⟨_, _, ⟨_, rfl⟩ | ⟨_, _, rfl⟩ | ⟨_, _, called⟩⟩
    · exact ⟨row, found, rfl⟩
    · exact ⟨row, found, rfl⟩
    · refine modified ?_ rfl ?_ <;> exact fun _ => rfl
    · obtain ⟨jobs, notes, _, rfl⟩ := W.yields_insertCallbacks called
      refine modified ?_ rfl ?_ <;> exact fun _ => rfl

theorem Books.of_logs (logs : Logs plain pre post) (batches : post.batches = pre.batches) : Books pre post :=
  .kept logs fun _ => by rw [batches]

theorem Gone.books {finished : Finished} (gone : Gone finished pre post) : Books pre post := by
  obtain ⟨events, journal, silent⟩ := gone.journal
  refine .of_logs ⟨.finished finished.row finished.state finished.output :: events, journal, fun event mem => ?_⟩ gone.batches
  rcases mem_cons.mp mem with rfl | later
  · rfl
  · have is := silent event later
    cases event <;> first | rfl | cases is

theorem Inserted.books {rows : List LiveJob} (inserted : Inserted rows pre post) : Books pre post :=
  .of_logs ⟨_, inserted.journal, forall_mem_entered fun _ => rfl⟩ inserted.batches

theorem Steady.books (steady : Steady rules pre post) : Books pre post := by
  obtain ⟨events, journal, quiet⟩ := steady.journal
  refine .of_logs ⟨events, journal, fun event mem => ?_⟩ steady.batches
  rcases quiet event mem with claims | ends
  · cases event <;> first | rfl | exact absurd rfl claims
  · cases event <;> first | rfl | exact absurd rfl ends

theorem retryHistory_books {x : W} {params : JobRetryParams} {job : JobRow}
    (retried : Yields (x.retryHistory params) pre job post) : Books pre post := by
  obtain ⟨past, _, _, _, free, same⟩ := W.yields_retryHistory retried
  rw [same]
  split
  · exact .of_logs (.one rfl rfl) rfl
  · refine .kept (.one rfl rfl) fun batch => ?_
    simp only [W.recountRetried, W.revivedStore, Table.find?_modify]
    split
    · rw [Option.map_map]
      refine congrFun (congrArg Option.map (funext fun row => ?_)) _
      simp only [Function.comp_apply]
      split <;> rfl
    · rfl

theorem promoteIfReady_books (x : W) (store : Store) (id : JobID) : Books store (x.promoteIfReady store id) := by
  obtain ⟨jobs, notes, same, _⟩ := promoteIfReady_eq x store id
  rw [same]
  exact .of_logs (.of_journal rfl) rfl

theorem tail_books (x : W) (due : List Finished) (pre : Store) :
    Within (Relation.ReflTransGen Books) (x.tail due) pre := by
  refine W.tail_within (fun _ => .refl) (fun _ _ _ => .trans) ?_ ?_ ?_ ?_ ?_ due pre
  · exact fun store row mem _ => .single (gone_cancelDependent mem).books
  · exact fun store finished => .single (.of_logs (.of_journal (journal_recordResult x finished store))
      (batches_recordResult x finished store))
  · exact fun store owner count failed _ post counted => .single (.counted counted)
  · exact fun store id => .single (promoteIfReady_books x store id)
  · exact fun store finished => .single (.of_logs (.of_journal rfl) rfl)

theorem Act.books {pre post : Stage} (act : Act rules engine pre post) :
    Relation.ReflTransGen Books pre.store post.store := by
  cases act with
  | quiet due steady => exact .single steady.books
  | sweep => exact .single (.of_logs (.of_journal rfl) rfl)
  | insert x job id minted unknown joins attempts inserted => exact .single (insert_inserted inserted).books
  | @found x same owner failed pre post joins counted =>
    have noted : Books pre { pre with journal := .found owner failed :: pre.journal } := .of_logs (.one rfl rfl) rfl
    exact .tail (.single noted) (.counted counted)
  | finish x finished pre due mem idle terminal => exact .single (gone_finish mem terminal).books
  | conclude x finished leased pre due mem running terminal => exact .single (gone_conclude mem terminal).books
  | exhaust x row pre mem => exact .single (gone_cancelDependent mem).books
  | tail x same due drawn => exact tail_books x due _ _ _ drawn
  | promote x pre id => exact .single (promoteIfReady_books x pre id)
  | drop => exact .refl
  | retry x params revives retried => exact .single (retryHistory_books retried)
  | batch row pre free => exact .single (.opened (.of_journal rfl) free rfl)
  | @workflow x same params pre post result attempts inserted =>
    obtain ⟨jobs, encoded, names, free, rows, steps, same, batches⟩ := workflow_inserted inserted
    have opens : Books pre (W.openedStore (x.workflowRow params jobs.length encoded names pre) jobs.length pre free) :=
      .opened (.of_journal rfl) free rfl
    exact .tail (.tail (.single opens) steps.books) (.of_logs (.of_journal (congrArg Roster.journal same)) batches)

theorem Acts.books {first last : Stage} (acts : Acts rules engine first last) :
    Relation.ReflTransGen Books first.store last.store := by
  induction acts with
  | refl => exact .refl
  | tail _ act ih => exact ih.trans act.books

theorem Reached.callsBack {store : Store} (reached : Reached rules engine store) (batch : JobID) : CallsBack batch store := by
  have books : Relation.ReflTransGen Books {} store := Acts.books reached
  clear reached
  induction books with
  | refl => exact .empty
  | tail _ books ih => exact books.callsBack ih

theorem books_keepsFixed (books : Relation.ReflTransGen Books pre post) : KeepsFixed pre post := by
  induction books with
  | refl => exact .refl _
  | tail _ books ih => exact ih.trans books.keepsFixed

end

end Hopper.Lifecycle
