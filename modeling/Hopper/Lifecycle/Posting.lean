import Hopper.Lifecycle.Ledger

/-! Every act is posted in the tally of every batch. -/

namespace Hopper.Lifecycle

open List Option Kernel Driver Sqlite

def silent : Event → Bool
  | .retried _ | .claimed _ | .ended _ _ | .cascaded _ => true
  | _ => false

section
variable {event : Event} {batch : JobID}

variable (is : silent event = true)
include is

theorem birth_of_silent : birth? event = none := by
  cases event <;> first | rfl | cases is

theorem found_of_silent : found? batch event = none := by
  cases event <;> first | rfl | cases is

theorem completion_of_silent : completion? batch event = none := by
  cases event <;> first | rfl | cases is

theorem ended_of_silent (id : JobID) : ended? id event = none := by
  cases event <;> first | rfl | cases is

end

section
variable {rules : Rules} {engine : Engine} {batch : JobID} {again : Prop} {pre post : Store}
  {due : List Finished}

namespace Unmoved

theorem trans {middle : Store} (first : Unmoved batch pre middle) (second : Unmoved batch middle post) :
    Unmoved batch pre post where
  joined := second.joined.trans first.joined
  found := second.found.trans first.found
  live := fun id mem => (second.live id (first.joined ▸ mem)).trans (first.live id mem)
  endings := fun id mem => (second.endings id (first.joined ▸ mem)).trans (first.endings id mem)

theorem of_silent {events : List Event} (journal : post.journal = events ++ pre.journal)
    (silent : ∀ event ∈ events, silent event = true)
    (live : ∀ id ∈ Lifecycle.joined pre.journal batch, post.live id = pre.live id) :
    Unmoved batch pre post :=
  of_events journal (fun event mem => birth_of_silent (silent event mem))
    (fun event mem => found_of_silent (silent event mem))
    (fun id _ event mem => ended_of_silent (silent event mem) id) live

theorem of_roster (same : roster post = roster pre) : Unmoved batch pre post := by
  have jobs : post.jobs = pre.jobs := congrArg Roster.jobs same
  have journal : post.journal = [] ++ pre.journal := congrArg Roster.journal same
  refine of_silent journal (forall_mem_nil _) fun id _ => ?_
  rw [Store.live, jobs]
  rfl

end Unmoved

theorem completions_of_silent {events journal : List Event} (silent : ∀ event ∈ events, silent event = true) :
    completions (events ++ journal) batch = completions journal batch :=
  filterMap_blind fun event mem => completion_of_silent (silent event mem)

/-! Statements that leave the tally as it is. -/

theorem tally_of_roster (same : roster post = roster pre) (batches : post.batches = pre.batches) :
    tally batch ⟨post, due⟩ = tally batch ⟨pre, due⟩ := by
  have journal : post.journal = pre.journal := congrArg Roster.journal same
  exact (Unmoved.of_roster same).tally_eq (by rw [batches]) (by rw [journal]) rfl rfl

theorem tally_of_steady (steady : Steady rules pre post) : tally batch ⟨post, due⟩ = tally batch ⟨pre, due⟩ := by
  obtain ⟨events, journal, quiet⟩ := steady.journal
  have silent : ∀ event ∈ events, silent event = true := by
    intro event mem
    rcases quiet event mem with claims | ends
    · cases event <;> first | rfl | exact absurd rfl claims
    · cases event <;> first | rfl | exact absurd rfl ends
  refine (Unmoved.of_silent journal silent fun id _ => steady.live id).tally_eq ?_ ?_ rfl rfl
  · rw [steady.batches]
  · rw [journal, completions_of_silent silent]

/-! Jobs that leave. -/

theorem live_delete {id gone : JobID} (jobs : post.jobs = pre.jobs.delete fun row => decide (row.id = gone)) :
    post.live id = (pre.live id && decide (id ≠ gone)) := by
  rw [Bool.eq_iff_iff, Bool.and_eq_true, live_iff, live_iff, decide_eq_true_eq, jobs]
  constructor
  · rintro ⟨row, mem, rfl⟩
    obtain ⟨old, different⟩ := Table.mem_delete.mp mem
    exact ⟨⟨row, old, rfl⟩, of_decide_eq_false different⟩
  · rintro ⟨⟨row, mem, rfl⟩, different⟩
    exact ⟨row, Table.mem_delete.mpr ⟨mem, decide_eq_false different⟩, rfl⟩

/-- A job leaves the live table, and its end is entered in the journal. -/
structure Gone (finished : Finished) (before after : Store) : Prop where
  member : finished.row ∈ before.jobs
  terminal : finished.state.terminal = true
  jobs : after.jobs = before.jobs.delete fun row => decide (row.id = finished.row.id)
  batches : after.batches = before.batches
  journal : ∃ events, after.journal = .finished finished.row finished.state finished.output :: (events ++ before.journal) ∧
    ∀ event ∈ events, silent event = true

namespace Gone

variable {finished : Finished} (gone : Gone finished pre post)
include gone

theorem lastEnding (id : JobID) : lastEnding? post.journal id =
      if finished.row.id = id then some finished.state else lastEnding? pre.journal id := by
  obtain ⟨events, journal, silent⟩ := gone.journal
  rw [journal, lastEnding_finished, lastEnding_append fun event mem => ended_of_silent (silent event mem) id]

theorem journal_eq (batch : JobID) : joined post.journal batch = joined pre.journal batch ∧
      foundIn post.journal batch = foundIn pre.journal batch ∧
      completions post.journal batch = completions pre.journal batch := by
  obtain ⟨events, journal, silent⟩ := gone.journal
  rw [journal]
  refine ⟨?_, ?_, completions_of_silent silent⟩
  · change joined (events ++ pre.journal) batch = _
    rw [joined, births, filterMap_blind fun event mem => birth_of_silent (silent event mem)]
    rfl
  · change foundIn (events ++ pre.journal) batch = _
    exact filterMap_blind fun event mem => found_of_silent (silent event mem)

theorem live_self : pre.live finished.row.id = true :=
  live_iff.mpr ⟨finished.row, gone.member, rfl⟩

variable (descent : Descent (roster pre))
include descent

theorem unmoved (other : finished.row.batchID ≠ some batch) : Unmoved batch pre post where
  joined := (gone.journal_eq batch).1
  found := (gone.journal_eq batch).2.1
  live := by
    intro id mem
    have different : id ≠ finished.row.id := by
      rintro rfl
      exact other ((descent.live_joined gone.member).mp mem)
    rw [live_delete gone.jobs, decide_eq_true different, Bool.and_true]
  endings := by
    intro id mem
    rw [gone.lastEnding, if_neg]
    rintro rfl
    exact other ((descent.live_joined gone.member).mp mem)

theorem present (inBatch : finished.row.batchID = some batch) :
    (joined pre.journal batch).countP pre.live = (joined pre.journal batch).countP post.live + 1 := by
  have mem : finished.row.id ∈ joined pre.journal batch := (descent.live_joined gone.member).mpr inBatch
  have distinct : (joined pre.journal batch).Nodup := descent.joined_nodup batch
  have counted := countP_flip pre.live post.live distinct mem fun id _ different => by
    rw [live_delete gone.jobs, decide_eq_true different, Bool.and_true]
  rw [gone.live_self, live_delete gone.jobs] at counted
  simpa using counted.symm

theorem failures (inBatch : finished.row.batchID = some batch) :
    ((joined pre.journal batch).countP fun id => !post.live id && failedLast post.journal id) =
      ((joined pre.journal batch).countP fun id => !pre.live id && failedLast pre.journal id) +
        (failing finished.state).toNat := by
  have mem : finished.row.id ∈ joined pre.journal batch := (descent.live_joined gone.member).mpr inBatch
  have distinct : (joined pre.journal batch).Nodup := descent.joined_nodup batch
  have counted := countP_flip (fun id => !pre.live id && failedLast pre.journal id)
    (fun id => !post.live id && failedLast post.journal id) distinct mem fun id _ different => by
      rw [live_delete gone.jobs, decide_eq_true different, Bool.and_true, failedLast, failedLast, gone.lastEnding,
        if_neg different.symm]
  have last : failedLast post.journal finished.row.id = failing finished.state := by
    rw [failedLast, gone.lastEnding, if_pos rfl, Option.any_some]
  rw [live_delete gone.jobs, last, gone.live_self] at counted
  simpa using counted

theorem posts : Relation.ReflTransGen (Tally.Posts again) (tally batch ⟨pre, due⟩) (tally batch ⟨post, due ++ [finished]⟩) := by
  by_cases inBatch : finished.row.batchID = some batch
  · have goes : tally batch ⟨post, due ++ [finished]⟩ = { tally batch ⟨pre, due⟩ with
          present := (joined pre.journal batch).countP post.live
          failures := (tally batch ⟨pre, due⟩).failures + finished.failed.toNat
          due := (tally batch ⟨pre, due⟩).due + 1
          dueFailures := (tally batch ⟨pre, due⟩).dueFailures + finished.failed.toNat } := by
      obtain ⟨joins, found, closings⟩ := gone.journal_eq batch
      have failures := gone.failures descent inBatch
      have count : W.countOf (due ++ [finished]) batch = W.countOf due batch + 1 := by
        simp [W.countOf, inBatch]
      have dueFailures : W.failedOf (due ++ [finished]) batch = W.failedOf due batch + finished.failed.toNat := by
        cases failed : finished.failed <;> simp [W.failedOf, inBatch, failed]
      simp only [tally, joins, found, closings, gone.batches, failures, count, dueFailures,
        failed_eq_failing gone.terminal, Nat.add_assoc]
    rw [goes]
    exact .single (.goes _ _ _ (gone.present descent inBatch))
  · have same := (gone.unmoved descent inBatch).tally_eq (by rw [gone.batches]) (gone.journal_eq batch).2.2
      (show W.countOf (due ++ [finished]) batch = W.countOf due batch by simp [W.countOf, inBatch])
      (show W.failedOf (due ++ [finished]) batch = W.failedOf due batch by simp [W.failedOf, inBatch])
    rw [same]

end Gone

/-! Counting. -/

variable {owner : JobID} {x : W} {failed count : Int}

theorem unmoved_of_callbacks {rows : List LiveJob} (unbatched : ∀ row ∈ rows, row.batchID = none)
    (jobs : post.jobs.rows = pre.jobs.rows ++ rows)
    (journal : post.journal = (rows.map (Event.callback owner)).reverse ++ pre.journal)
    (descent : Descent (roster post)) : Unmoved batch pre post where
  joined := by
    have none : ((rows.map (Event.callback owner)).reverse.filterMap birth?).filter
        (fun row => decide (row.batchID = some batch)) = [] := by
      refine filter_eq_nil_iff.mpr fun row mem => ?_
      obtain ⟨event, among, birth⟩ := mem_filterMap.mp mem
      obtain ⟨other, otherMem, rfl⟩ := mem_map.mp (mem_reverse.mp among)
      cases birth
      simp [unbatched row otherMem]
    rw [journal, Lifecycle.joined, births, filterMap_append, filter_append, none]
    rfl
  found := by
    rw [journal]
    exact filterMap_blind (forall_mem_entered fun _ => rfl)
  live := by
    intro id mem
    obtain ⟨born, among, inBatch, rfl⟩ := mem_joined.mp mem
    have later : born ∈ births (roster post).journal := by
      change born ∈ births post.journal
      rw [journal, births, filterMap_append]
      exact mem_append_right _ among
    rw [Bool.eq_iff_iff, live_iff, live_iff]
    simp only [Table.mem_def, jobs, List.mem_append]
    constructor
    · rintro ⟨row, old | new, same⟩
      · exact ⟨row, old, same⟩
      · have rowBorn : row ∈ births (roster post).journal := by
          refine mem_births.mpr (.inr ⟨owner, ?_⟩)
          change _ ∈ post.journal
          rw [journal]
          exact mem_append_left _ (mem_reverse.mpr (mem_map_of_mem new))
        rw [← descent.born_unique rowBorn later same, unbatched row new] at inBatch
        cases inBatch
    · rintro ⟨row, old, same⟩
      exact ⟨row, .inl old, same⟩
  endings := by
    intro id _
    rw [journal, lastEnding_append (forall_mem_entered fun _ => rfl)]

theorem completions_of_callbacks (rows : List LiveJob) (journal : List Event) :
    completions ((rows.map (Event.callback owner)).reverse ++ journal) batch = completions journal batch :=
  filterMap_blind (forall_mem_entered fun _ => rfl)

theorem unmoved_of_completed {row : BatchRow} : Unmoved batch pre (x.completeBatch row failed pre) := by
  have journal : (x.completeBatch row failed pre).journal = [.completed row.id failed] ++ pre.journal := rfl
  refine .of_events journal ?_ ?_ ?_ fun _ _ => rfl
  · intro event mem
    rw [mem_singleton.mp mem]
    rfl
  · intro event mem
    rw [mem_singleton.mp mem]
    rfl
  · intro id _ event mem
    rw [mem_singleton.mp mem]
    rfl

structure Counted (batch : JobID) (count failed : Int) (before after : Store) : Prop where
  unmoved : Unmoved batch before after
  counter : (after.batches.find? batch).map BatchRow.counter =
    ((before.batches.find? batch).map BatchRow.counter).map fun counter => counter.count count failed
  closings : completions after.journal batch =
    (((before.batches.find? batch).map BatchRow.counter).elim [] fun counter => counter.closing count failed) ++
      completions before.journal batch

theorem Counted.tally_eq (told : Counted batch count failed pre post) (due : List Finished) :
    tally batch ⟨post, due⟩ = { tally batch ⟨pre, due⟩ with
        counter := (tally batch ⟨pre, due⟩).counter.map fun counter => counter.count count failed
        closings := ((tally batch ⟨pre, due⟩).counter.elim [] fun counter => counter.closing count failed) ++
          (tally batch ⟨pre, due⟩).closings } := by
  obtain ⟨arrived, present, failures⟩ := told.unmoved.present due
  simp only [tally] at arrived present failures ⊢
  simp only [arrived, present, failures, told.counter, told.closings]

theorem countBatch_unmoved (descent : Descent (roster post))
    (counted : Yields (x.countBatch owner count failed) pre () post) : Unmoved batch pre post := by
  rcases W.yields_countBatch counted with ⟨_, rfl⟩ | ⟨row, _, ⟨_, rfl⟩ | ⟨_, _, rfl⟩ | ⟨_, _, called⟩⟩
  · exact .of_roster rfl
  · exact .of_roster rfl
  · exact .of_roster rfl
  · obtain ⟨jobs, notes, rows, rfl⟩ := W.yields_insertCallbacks called
    exact unmoved_of_completed.trans (unmoved_of_callbacks (fun row mem => (W.callbackRows_plain row mem).1) rows rfl descent)

theorem countBatch_counted (descent : Descent (roster post)) (counted : Yields (x.countBatch batch count failed) pre () post) :
    Counted batch count failed pre post := by
  refine ⟨countBatch_unmoved descent counted, ?_, ?_⟩
  · rcases W.yields_countBatch counted with
      ⟨none, rfl⟩ | ⟨row, found, ⟨completed, rfl⟩ | ⟨opened, remains, rfl⟩ | ⟨opened, gone, called⟩⟩
    · rw [none]
      rfl
    · rw [found, map_some, map_some, (Counter.count_closed (show row.counter.closed = true from completed) _ _).1]
    · rw [Table.find?_modify, if_pos rfl, found, map_some, map_some, map_some, map_some,
        (Counter.count_remains (show row.counter.closed = false from opened) remains failed).1]
      rfl
    · obtain ⟨jobs, notes, _, rfl⟩ := W.yields_insertCallbacks called
      have keyed : row.id = batch := Table.key_of_find? found
      rw [found, map_some, map_some,
        (Counter.count_closes (show row.counter.closed = false from opened) gone failed).1]
      simp only [W.completeBatch, Table.find?_modify, keyed, if_true, found]
      rfl
  · rcases W.yields_countBatch counted with
      ⟨none, rfl⟩ | ⟨row, found, ⟨completed, rfl⟩ | ⟨opened, remains, rfl⟩ | ⟨opened, gone, called⟩⟩
    · rw [none]
      rfl
    · rw [found, map_some, elim_some, (Counter.count_closed (show row.counter.closed = true from completed) _ _).2]
      rfl
    · rw [found, map_some, elim_some,
        (Counter.count_remains (show row.counter.closed = false from opened) remains failed).2]
      rfl
    · obtain ⟨jobs, notes, _, rfl⟩ := W.yields_insertCallbacks called
      have keyed : row.id = batch := Table.key_of_find? found
      rw [found, map_some, elim_some,
        (Counter.count_closes (show row.counter.closed = false from opened) gone failed).2]
      simp only [completions_of_callbacks]
      simp [W.completeBatch, completions, completion?, keyed, BatchRow.counter]

theorem countBatch_other (different : owner ≠ batch) (counted : Yields (x.countBatch owner count failed) pre () post) :
    post.batches.find? batch = pre.batches.find? batch ∧
      completions post.journal batch = completions pre.journal batch := by
  rcases W.yields_countBatch counted with
    ⟨_, rfl⟩ | ⟨row, found, ⟨_, rfl⟩ | ⟨_, _, rfl⟩ | ⟨_, _, called⟩⟩
  · exact ⟨rfl, rfl⟩
  · exact ⟨rfl, rfl⟩
  · refine ⟨?_, rfl⟩
    rw [Table.find?_modify, if_neg different.symm]
  · obtain ⟨jobs, notes, _, rfl⟩ := W.yields_insertCallbacks called
    have keyed : row.id = owner := Table.key_of_find? found
    simp only [completions_of_callbacks]
    constructor
    · simp only [W.completeBatch, Table.find?_modify, keyed, if_neg different.symm]
    · simp [W.completeBatch, completions, completion?, keyed, different]

theorem counts_posts (descent : Descent (roster post))
    (counted : Yields (x.countBatch owner (W.countOf due owner) (W.failedOf due owner)) pre () post) :
    Relation.ReflTransGen (Tally.Posts again) (tally batch ⟨pre, due⟩) (tally batch ⟨post, W.uncounted due owner⟩) := by
  by_cases same : owner = batch
  · subst same
    have none : W.countOf (W.uncounted due owner) owner = 0 ∧ W.failedOf (W.uncounted due owner) owner = 0 := by
      simp only [W.countOf, W.failedOf, W.uncounted, countP_eq_zero]
      constructor <;>
      · intro job mem
        have other := of_decide_eq_true (mem_filter.mp mem).2
        simp [other]
    have left : tally owner ⟨post, W.uncounted due owner⟩ = { tally owner ⟨post, due⟩ with due := 0, dueFailures := 0 } := by
      simp only [tally, none]
    rw [left, (countBatch_counted descent counted).tally_eq]
    exact .single (.counts _)
  · obtain ⟨row, closings⟩ := countBatch_other same counted
    obtain ⟨count, failed⟩ := W.counts_uncounted due fun equal : batch = owner => same equal.symm
    rw [(countBatch_unmoved descent counted).tally_eq (by rw [row]) closings count failed]

/-! Jobs that come, and come back. -/

theorem posts_comes (tally : Tally) (count : Nat) (opened : count ≠ 0 → tally.counter ≠ none) :
    Relation.ReflTransGen (Tally.Posts again) tally
      { tally with arrived := tally.arrived + count, present := tally.present + count } := by
  induction count with
  | zero => exact .refl
  | succ count ih =>
    have more := opened (Nat.succ_ne_zero count)
    exact .tail (ih fun _ => more) (.comes { tally with arrived := tally.arrived + count, present := tally.present + count } more)

structure Inserted (rows : List LiveJob) (before after : Store) : Prop where
  jobs : after.jobs.rows = before.jobs.rows ++ rows
  journal : after.journal = (rows.map Event.inserted).reverse ++ before.journal
  batches : after.batches = before.batches

namespace Inserted

variable {rows : List LiveJob} {id : JobID}

variable (inserted : Inserted rows pre post)
include inserted

theorem births_eq : births post.journal = rows.reverse ++ births pre.journal := by
  rw [inserted.journal, births, filterMap_append, ← map_reverse, filterMap_map]
  congr 1
  exact filterMap_some

theorem joined_eq (batch : JobID) : joined post.journal batch =
      (rows.reverse.filter fun row => decide (row.batchID = some batch)).map (fun row => row.id) ++
        joined pre.journal batch := by
  rw [joined, inserted.births_eq, filter_append, map_append]
  rfl

theorem live_new
    (new : id ∈ (rows.reverse.filter fun row => decide (row.batchID = some batch)).map fun row => row.id) :
    post.live id = true := by
  obtain ⟨row, mem, rfl⟩ := mem_map.mp new
  refine live_iff.mpr ⟨row, ?_, rfl⟩
  rw [Table.mem_def, inserted.jobs]
  exact mem_append_right _ (mem_reverse.mp (mem_filter.mp mem).1)

theorem live_old (descent : Descent (roster post))
    (old : id ∈ joined pre.journal batch) : post.live id = pre.live id := by
  obtain ⟨born, among, _, rfl⟩ := mem_joined.mp old
  have distinct : ((births post.journal).map fun row => row.id).Nodup := descent.distinct
  rw [inserted.births_eq, map_append] at distinct
  rw [Bool.eq_iff_iff, live_iff, live_iff]
  simp only [Table.mem_def, inserted.jobs, List.mem_append]
  constructor
  · rintro ⟨row, mem | new, same⟩
    · exact ⟨row, mem, same⟩
    · exact absurd same ((nodup_append.mp distinct).2.2 row.id
        (mem_map_of_mem (mem_reverse.mpr new)) born.id (mem_map_of_mem among))
  · rintro ⟨row, mem, same⟩
    exact ⟨row, .inl mem, same⟩

theorem journal_eq (batch : JobID) :
    foundIn post.journal batch = foundIn pre.journal batch ∧
      completions post.journal batch = completions pre.journal batch ∧
      ∀ id, lastEnding? post.journal id = lastEnding? pre.journal id := by
  rw [inserted.journal]
  exact ⟨filterMap_blind (forall_mem_entered fun _ => rfl), filterMap_blind (forall_mem_entered fun _ => rfl),
    fun id => lastEnding_append (forall_mem_entered fun _ => rfl)⟩

theorem tally_eq (descent : Descent (roster post)) : tally batch ⟨post, due⟩ =
      { tally batch ⟨pre, due⟩ with
        arrived := (tally batch ⟨pre, due⟩).arrived + rows.countP fun row => decide (row.batchID = some batch)
        present := (tally batch ⟨pre, due⟩).present + rows.countP fun row => decide (row.batchID = some batch) } := by
  obtain ⟨found, closings, endings⟩ := inserted.journal_eq batch
  have fresh : ((rows.reverse.filter fun row => decide (row.batchID = some batch)).map fun row => row.id).length =
      rows.countP fun row => decide (row.batchID = some batch) := by
    rw [length_map, ← countP_eq_length_filter, countP_reverse]
  have present : (joined pre.journal batch).countP post.live = (joined pre.journal batch).countP pre.live :=
    countP_congr fun id mem => by rw [inserted.live_old descent mem]
  have failures : ((joined pre.journal batch).countP fun id => !post.live id && failedLast post.journal id) =
      (joined pre.journal batch).countP fun id => !pre.live id && failedLast pre.journal id :=
    countP_congr fun id mem => by
      rw [inserted.live_old descent mem, failedLast, failedLast, endings]
  have all : ((rows.reverse.filter fun row => decide (row.batchID = some batch)).map fun row => row.id).countP
      post.live = rows.countP fun row => decide (row.batchID = some batch) := by
    rw [countP_eq_length.mpr fun id mem => inserted.live_new mem, fresh]
  have noneFailed : (((rows.reverse.filter fun row => decide (row.batchID = some batch)).map fun row => row.id).countP
      fun id => !post.live id && failedLast post.journal id) = 0 :=
    countP_eq_zero.mpr fun id mem => by simp [inserted.live_new mem]
  simp only [tally, inserted.joined_eq, length_append, countP_append, fresh, all, noneFailed, found, closings,
    inserted.batches, present, failures, Nat.zero_add]
  congr 1
  · omega
  · omega

theorem posts (descent : Descent (roster post))
    (opened : ∀ row ∈ rows, row.batchID = some batch → pre.batches.has batch = true) :
    Relation.ReflTransGen (Tally.Posts again) (tally batch ⟨pre, due⟩) (tally batch ⟨post, due⟩) := by
  rw [inserted.tally_eq descent]
  refine posts_comes _ _ fun some none => ?_
  obtain ⟨row, mem, inBatch⟩ := countP_pos_iff.mp (Nat.pos_of_ne_zero some)
  obtain ⟨held, heldMem⟩ := isSome_iff_exists.mp (opened row mem (of_decide_eq_true inBatch))
  rw [tally, heldMem] at none
  cases none

end Inserted

end

end Hopper.Lifecycle
