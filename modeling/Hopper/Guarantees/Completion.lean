import Hopper.Client.Statements
import Hopper.Guarantees.Batches

/-! Whether a batch that a client inserts completes. Its total is the number of
its inputs; an input that resolves to a live job, of the same call or from
before, is never counted. -/

namespace Hopper.Guarantees

open List Option Kernel Driver Sqlite Lifecycle Client

/-- The inputs of a batch that were found finished, and those inserted as one
of some jobs. -/
def counted (journal : List Event) (batch : JobID) (ids : List JobID) : Nat :=
  (Lifecycle.joined journal batch).countP (fun id => decide (id ∈ ids)) + (foundIn journal batch).length

section
variable {batch : JobID} {ids : List JobID} {before after : Store} {job : JobInsert} {x : W}
variable {onConflict : ConflictAction}

theorem counted_suffix {earlier later : List Event} (suffix : earlier <:+ later) (batch : JobID) (ids : List JobID) :
    counted earlier batch ids ≤ counted later batch ids := by
  obtain ⟨events, rfl⟩ := suffix
  have births : Lifecycle.joined (events ++ earlier) batch = Lifecycle.joined events batch ++ Lifecycle.joined earlier batch := by
    simp [Lifecycle.joined, births]
  have founds : foundIn (events ++ earlier) batch = foundIn events batch ++ foundIn earlier batch := by
    simp [foundIn]
  rw [counted, counted, births, founds, countP_append, length_append]
  omega

theorem counted_found (journal : List Event) (batch : JobID) (failed : Bool) (ids : List JobID) :
    counted (.found batch failed :: journal) batch ids = counted journal batch ids + 1 := by
  have founds : foundIn (.found batch failed :: journal) batch = failed :: foundIn journal batch := by
    have is : found? batch (.found batch failed) = some failed := if_pos rfl
    rw [foundIn, filterMap_cons_some is]
    rfl
  rw [counted, founds, length_cons]
  rfl

theorem counted_inserted {row : LiveJob} (joins : row.batchID = some batch) (listed : row.id ∈ ids)
    (journal : List Event) : counted (.inserted row :: journal) batch ids = counted journal batch ids + 1 := by
  have births : Lifecycle.joined (.inserted row :: journal) batch = row.id :: Lifecycle.joined journal batch := by
    have born : birth? (.inserted row) = some row := rfl
    rw [Lifecycle.joined, births, filterMap_cons_some born, filter_cons_of_pos (by simp [joins])]
    rfl
  have founds : foundIn (.inserted row :: journal) batch = foundIn journal batch := rfl
  rw [counted, births, founds, countP_cons, if_pos (decide_eq_true listed), counted]
  omega

/-- No live job holds the unique key of a job to insert. -/
def KeyUnheld (store : Store) (kind key : String) : Prop :=
  key ≠ "" → ∀ row ∈ store.jobs, row.kind = kind → row.uniqueKey ≠ some key

theorem liveDuplicate_unheld (unheld : KeyUnheld before job.kind job.uniqueKey) :
    W.liveDuplicate before job = none := by
  cases found : W.liveDuplicate before job with
  | none => rfl
  | some holder =>
    obtain ⟨named, mem, kind, key⟩ := liveDuplicate_eq_some found
    exact absurd key (unheld named holder mem kind)

theorem countBatch_unheld {owner : JobID} {count failed : Int} {kind key : String}
    (done : Yields (x.countBatch owner count failed) before () after) (unheld : KeyUnheld before kind key) :
    KeyUnheld after kind key := by
  obtain ⟨rows, counts⟩ := W.countBatch_counts done
  intro named row mem same
  rw [Table.mem_def, counts.jobs] at mem
  rcases List.mem_append.mp mem with old | new
  · exact unheld named row old same
  · rw [(counts.plain row new).2.1]
    exact nofun

theorem insertOne_counts (mints : job.id = 0)
    (batched : job.batchID = batch) (exist : batch ≠ 0) (unheld : KeyUnheld before job.kind job.uniqueKey)
    {result : JobInsertResult} (inserted : Yields (x.insertOne onConflict job) before result after)
    (listed : result.duplicate = false → result.job.id ∈ ids) :
    counted before.journal batch ids + 1 ≤ counted after.journal batch ids ∧
      ∀ kind key, ¬(kind = job.kind ∧ key = job.uniqueKey) → KeyUnheld before kind key → KeyUnheld after kind key := by
  rcases W.yields_insertOne inserted with ⟨holder, found, _⟩ | ⟨_, _, found, _, rfl, done⟩ | ⟨_, _, new, stored⟩
  · rw [liveDuplicate_unheld unheld] at found
    cases found
  · rcases done with ⟨unbatched, _⟩ | ⟨_, done⟩
    · exact absurd (batched.symm.trans unbatched) exist
    · refine ⟨?_, fun kind key _ free => countBatch_unheld done free⟩
      obtain ⟨events, journal, _⟩ := countBatch_logs _ _ done
      refine le_trans (le_of_eq ?_) (counted_suffix ⟨events, journal.symm⟩ batch ids)
      rw [batched]
      exact (counted_found _ _ _ _).symm
  · obtain ⟨fresh, _, row, rfl⟩ := W.yields_insertJob mints stored
    have mem := listed new
    rw [row] at mem
    have joins : (x.insertedRow job before).batchID = some batch := by
      simp [W.insertedRow, W.newRow, nullableID, batched, exist]
    refine ⟨?_, fun kind key apart free named other otherMem same held => ?_⟩
    · exact (counted_inserted joins mem before.journal).ge
    · rcases (Table.mem_append fresh).mp otherMem with old | rfl
      · exact free named other old same held
      · have key : nullable job.uniqueKey = some key := held
        unfold nullable at key
        split at key
        · cases key
        · exact apart ⟨same.symm, (some.inj key).symm⟩

theorem insertJobs_counts {jobs : List JobInsert}
    (mints : ∀ job ∈ jobs, job.id = 0) (batched : ∀ job ∈ jobs, job.batchID = batch) (exist : batch ≠ 0)
    (unheld : ∀ job ∈ jobs, KeyUnheld before job.kind job.uniqueKey)
    (apart : jobs.Pairwise fun first second =>
      second.uniqueKey ≠ "" → ¬(second.kind = first.kind ∧ second.uniqueKey = first.uniqueKey))
    {results : List JobInsertResult} (inserted : Yields (x.insertJobs jobs onConflict) before results after)
    (listed : ∀ result ∈ results, result.duplicate = false → result.job.id ∈ ids) :
    counted before.journal batch ids + jobs.length ≤ counted after.journal batch ids := by
  unfold W.insertJobs at inserted
  induction jobs generalizing before results with
  | nil =>
    obtain ⟨rfl, rfl⟩ := yields_mapM_nil.mp inserted
    exact le_rfl
  | cons job jobs ih =>
    obtain ⟨result, middle, rest, first, others, rfl⟩ := yields_mapM_cons.mp inserted
    rw [forall_mem_cons] at mints batched unheld listed
    obtain ⟨head, tail⟩ := pairwise_cons.mp apart
    obtain ⟨grows, keeps⟩ := insertOne_counts mints.1 batched.1 exist unheld.1 first listed.1
    have later := ih mints.2 batched.2 (fun other mem => ?_) tail others listed.2
    · rw [length_cons]
      omega
    · by_cases unnamed : other.uniqueKey = ""
      · exact fun named => absurd unnamed named
      · exact keeps _ _ (head other mem unnamed) (unheld.2 other mem)

end

/-- A call of an insert finds none of its unique keys held by a live job. -/
def Unheld (store : Store) : Operation → Prop
  | .jobInsertMany params _ => ∀ given ∈ params, KeyUnheld store given.kind given.uniqueKey
  | _ => True

instance (store : Store) (kind key : String) : Decidable (KeyUnheld store kind key) :=
  inferInstanceAs (Decidable (key ≠ "" → ∀ row ∈ store.jobs.rows, row.kind = kind → row.uniqueKey ≠ some key))

instance (store : Store) (operation : Operation) : Decidable (Unheld store operation) := by
  cases operation with
  | jobInsertMany params =>
    exact inferInstanceAs (Decidable (∀ given ∈ params, KeyUnheld store given.kind given.uniqueKey))
  | _ => exact .isTrue trivial

/-- What stays as the users of a store that mind its batches go on: the journal
grows, and batches change in their counts only. -/
structure Continues (before after : Store) : Prop where
  journal : before.journal <:+ after.journal
  fixed : KeepsFixed before after

namespace Continues

theorem refl (store : Store) : Continues store store :=
  ⟨suffix_refl _, .refl store⟩

theorem trans {first second third : Store} (early : Continues first second) (late : Continues second third) : Continues first third :=
  ⟨early.journal.trans late.journal, early.fixed.trans late.fixed⟩

theorem has {before after : Store} (continues : Continues before after) {batch : JobID}
    (held : before.batches.has batch = true) : after.batches.has batch = true := by
  obtain ⟨row, found⟩ := isSome_iff_exists.mp held
  obtain ⟨later, laterFound, _⟩ := continues.fixed batch row found
  exact isSome_iff_exists.mpr ⟨later, laterFound⟩

end Continues

section
variable {engine : Engine} {before after : Store} {now : Int}

theorem step_continues (reachable : Reachable engine MindsBatches before) {operation : Operation}
    (minds : MindsBatches before operation) : Continues before (operation.apply engine now before) := by
  have reached := batch_reached reachable
  have acts : Acts (batchRules fun _ _ => True) engine ⟨before, []⟩ ⟨operation.apply engine now before, []⟩ :=
    apply_performs (obeys_batch minds fun _ _ => trivial) reached.sound
  exact ⟨Changes.journal_suffix (acts.moves reached.sound).1, books_keepsFixed acts.books⟩

theorem others_continue (reachable : Reachable engine MindsBatches before)
    (others : Relation.ReflTransGen (Others engine MindsBatches) before after) :
    Reachable engine MindsBatches after ∧ Continues before after := by
  induction others with
  | refl => exact ⟨reachable, .refl before⟩
  | tail _ step ih =>
    obtain ⟨now, operation, minds, rfl⟩ := step
    exact ⟨ih.1.step now operation minds, ih.2.trans (step_continues ih.1 minds)⟩

variable {inputs : List Input} {batch : JobID} {ids : List JobID} {inTx : Bool}

theorem statement_apart (number : Nat) (action : ConflictAction) :
    (subParams inputs ((Plan.of inputs).entry number action)).Pairwise fun first second =>
      second.uniqueKey ≠ "" → ¬(second.kind = first.kind ∧ second.uniqueKey = first.uniqueKey) := by
  refine pairwise_filterMap.mpr ((entry_sorted number action).imp_of_mem ?_)
  rintro first second among later less given isGiven other isOther named ⟨kind, key⟩
  obtain ⟨one, oneAt, rfl⟩ := map_eq_some_iff.mp isGiven
  obtain ⟨two, twoAt, rfl⟩ := map_eq_some_iff.mp isOther
  obtain ⟨_, ranked, _⟩ := mem_entry.mp among
  obtain ⟨sent, laterRanked, _⟩ := mem_entry.mp later
  have shares : SharesKey inputs first second := by
    refine ⟨one, two, oneAt, twoAt, ?_, named⟩
    rw [Input.ref, Input.ref, kind, key]
  have climbs := keyRound_lt less shares sent
  omega

theorem subParams_batchID (batched : ∀ input ∈ inputs, input.params.batchID = batch) (indexes : List Nat) :
    ∀ given ∈ subParams inputs indexes, given.batchID = batch := by
  intro given among
  obtain ⟨index, _, is⟩ := mem_filterMap.mp among
  obtain ⟨input, stands, rfl⟩ := map_eq_some_iff.mp is
  exact batched input (mem_of_getElem? stands)

theorem encoded_keys {params : List JobInsertParams} {jobs : List JobInsert}
    (encoded : List.Forall₂ (fun given job => encodeInsert given = .ok job) params jobs) :
    (jobs.map fun job => (job.kind, job.uniqueKey)) = params.map fun given => (given.kind, given.uniqueKey) := by
  induction encoded with
  | nil => rfl
  | cons made _ ih => rw [map_cons, map_cons, ih, encodeInsert_ok made]

theorem statement_counts {action : ConflictAction} {indexes : List Nat} {rows : List JobInsertResult}
    (batched : ∀ input ∈ inputs, input.params.batchID = batch) (exist : batch ≠ 0)
    (apart : (subParams inputs indexes).Pairwise fun first second =>
      second.uniqueKey ≠ "" → ¬(second.kind = first.kind ∧ second.uniqueKey = first.uniqueKey))
    (unheld : Unheld before (.jobInsertMany (subParams inputs indexes) { notify := inTx, onConflict := action }))
    (answered : Yields (W.jobInsertMany ⟨engine, now⟩ (subParams inputs indexes)
      { notify := inTx, onConflict := action }) before rows after)
    (listed : ∀ row ∈ rows, row.duplicate = false → row.job.id ∈ ids) :
    counted before.journal batch ids + rows.length ≤ counted after.journal batch ids := by
  obtain ⟨jobs, middle, notes, encoded, stored, rfl⟩ := W.yields_jobInsertMany answered
  have given (job : JobInsert) (mem : job ∈ jobs) : ∃ params ∈ subParams inputs indexes,
      job.id = 0 ∧ job.batchID = params.batchID ∧ job.kind = params.kind ∧ job.uniqueKey = params.uniqueKey := by
    obtain ⟨params, among, made⟩ := mapM_ok_mem encoded mem
    refine ⟨params, among, ?_⟩
    rw [encodeInsert_ok made]
    exact ⟨rfl, rfl, rfl, rfl⟩
  have keys := encoded_keys (mapM_ok encoded)
  have distinct : jobs.Pairwise fun first second =>
      second.uniqueKey ≠ "" → ¬(second.kind = first.kind ∧ second.uniqueKey = first.uniqueKey) := by
    have named : ((subParams inputs indexes).map fun params => (params.kind, params.uniqueKey)).Pairwise
        fun first second => second.2 ≠ "" → ¬(second.1 = first.1 ∧ second.2 = first.2) :=
      pairwise_map.mpr apart
    rw [← keys] at named
    exact pairwise_map.mp named
  rw [yields_mapM_length stored]
  change _ ≤ counted middle.journal batch ids
  refine insertJobs_counts (fun job mem => ?_) (fun job mem => ?_) exist (fun job mem => ?_) distinct stored listed
  · obtain ⟨_, _, mints, _⟩ := given job mem
    exact mints
  · obtain ⟨params, among, _, same, _⟩ := given job mem
    rw [same]
    exact subParams_batchID batched indexes params among
  · obtain ⟨params, among, _, _, kind, key⟩ := given job mem
    rw [kind, key]
    exact unheld params among

theorem executed_counts (batched : ∀ input ∈ inputs, input.params.batchID = batch) (exist : batch ≠ 0)
    (reachable : Reachable engine MindsBatches before) (held : before.batches.has batch = true) {replies : List Reply}
    (entries : ∀ reply ∈ replies, ∃ number, reply.1.2 = (Plan.of inputs).entry number reply.1.1)
    (executed : Executed (Others engine MindsBatches) (StoreAnswers engine Unheld) inputs inTx before replies after)
    (listed : ∀ row ∈ replies.flatMap Prod.snd, row.duplicate = false → row.job.id ∈ ids) :
    Reachable engine MindsBatches after ∧ Continues before after ∧
      counted before.journal batch ids + (replies.flatMap Prod.snd).length ≤ counted after.journal batch ids := by
  induction executed with
  | nil store => exact ⟨reachable, .refl store, le_rfl⟩
  | @cons before asked replied after action indexes rows rest between answered next ih =>
    obtain ⟨askedReachable, waited⟩ := others_continue reachable between
    have askedHeld := waited.has held
    have minds : MindsBatches asked (.jobInsertMany (subParams inputs indexes) { notify := inTx, onConflict := action }) := by
      intro given among _
      rw [subParams_batchID batched indexes given among]
      exact askedHeld
    obtain ⟨now, applied⟩ := answered.apply
    have step : Continues asked replied := by
      rw [applied]
      exact step_continues askedReachable minds
    have repliedReachable : Reachable engine MindsBatches replied := by
      rw [applied]
      exact askedReachable.step now _ minds
    rw [forall_mem_cons] at entries
    obtain ⟨⟨number, entry⟩, entries⟩ := entries
    rw [flatMap_cons] at listed ⊢
    obtain ⟨last, continues, counts⟩ := ih repliedReachable (step.has askedHeld) entries
      fun row mem => listed row (mem_append_right _ mem)
    obtain ⟨unheld, now, is⟩ := answered
    have apart := @statement_apart inputs number action
    change indexes = (Plan.of inputs).entry number action at entry
    rw [← entry] at apart
    have here := statement_counts batched exist apart unheld (Call.reply_ok is)
      fun row mem => listed row (mem_append_left _ mem)
    refine ⟨last, (waited.trans step).trans continues, ?_⟩
    have earlier := counted_suffix waited.journal batch ids
    rw [length_append]
    change _ + (rows.length + _) ≤ _
    omega

end

section
variable {Args : Type} {client : Config Args} {order : Nat → Bool} {batch : Batch Args} {inTx : Bool}
  {engine : Engine} {before after : Store} {id : JobID} {inputs : List Input}

/-- What a batch's insert did: it opened the batch, inserted its jobs, and the
store went on from there. -/
structure Opened (engine : Engine) (client : Config Args) (order : Nat → Bool) (batch : Batch Args) (inTx : Bool)
    (before after : Store) (result : BatchResult) : Prop where
  params : batch.params ≠ []
  opened : ∃ bp asked opened middle, client.batchParams batch = .ok bp ∧
    Relation.ReflTransGen (Others engine MindsBatches) before asked ∧
    StoreAnswers engine Unheld _ (.batchInsert bp) asked (.ok result.id) opened ∧
    Runs (Others engine MindsBatches) (StoreAnswers engine Unheld) opened
      (client.insertMany order (batch.params.map fun args => { args := args, batchID := result.id }) inTx)
      (.ok result.jobs) middle ∧
    Relation.ReflTransGen (Others engine MindsBatches) middle after

theorem runs_batchInsert {result : BatchResult} (runs : Runs (Others engine MindsBatches) (StoreAnswers engine Unheld) before
      (Batch.insert client order batch inTx) (.ok result) after) :
    Opened engine client order batch inTx before after result := by
  unfold Batch.insert at runs
  split at runs
  · cases runs
  · next some =>
    split at runs
    · cases runs
    · obtain ⟨bp, _, built, rest⟩ := runs_bind runs
      obtain ⟨accepted, rfl⟩ := runs_ensure built
      obtain ⟨id, opened, called, rest⟩ := runs_bind rest
      obtain ⟨asked, between, answered⟩ := runs_request called
      obtain ⟨results, middle, inserted, rest⟩ := runs_bind rest
      refine ⟨some, bp, asked, opened, middle, accepted, between, ?_⟩
      split at rest
      · obtain ⟨reply, settled, attempted, returned⟩ := runs_bind rest
        obtain ⟨rfl, rfl⟩ := runs_pure returned
        obtain ⟨waited, between, settle⟩ := runs_attempt attempted
        obtain ⟨now, applied⟩ := settle.apply
        have step : Others engine MindsBatches waited after := ⟨now, .batchSettle _, trivial, applied⟩
        exact ⟨answered, inserted, between.tail step⟩
      · obtain ⟨rfl, rfl⟩ := runs_pure rest
        exact ⟨answered, inserted, .refl⟩

def Unfolded (client : Config Args) (batch : Batch Args) : Prop :=
  ∀ id inputs, client.buildAll (batch.params.map fun args => { args := args, batchID := id }) = .ok inputs →
    ∀ index < inputs.length, foldsOnto inputs index = none

theorem buildAll_batched {params : List Args}
    (built : client.buildAll (params.map fun args => { args := args, batchID := id }) = .ok inputs) :
    inputs.length = params.length ∧ ∀ input ∈ inputs, input.params.batchID = id := by
  have pairs := mapM_ok built
  refine ⟨by simpa using pairs.length_eq.symm, fun input mem => ?_⟩
  obtain ⟨⟨given, index⟩, among, made⟩ := mapM_ok_mem built mem
  obtain ⟨args, _, rfl⟩ := mem_map.mp (fst_mem_of_mem_zipIdx among)
  dsimp only [Config.buildInsertParams] at made
  cases encoded : client.encode args with
  | error =>
    rw [encoded] at made
    cases made
  | ok =>
    rw [encoded] at made
    cases made
    rfl

theorem present_add_counted_le {store : Store} (id : JobID) {ids : List JobID} (gone : ∀ job ∈ ids, store.live job = false) :
    (Lifecycle.joined store.journal id).countP store.live + counted store.journal id ids ≤ arrivals store id := by
  have apart : (Lifecycle.joined store.journal id).countP store.live +
      (Lifecycle.joined store.journal id).countP (fun job => decide (job ∈ ids)) ≤ (Lifecycle.joined store.journal id).length := by
    induction Lifecycle.joined store.journal id with
    | nil => exact le_rfl
    | cons job =>
      rw [countP_cons, countP_cons, length_cons]
      by_cases among : job ∈ ids
      · rw [gone job among]
        simp only [Bool.false_eq_true, ↓reduceIte, among, decide_true]
        omega
      · simp only [among, decide_false, Bool.false_eq_true, ↓reduceIte]
        split <;> omega
  rw [counted, arrivals]
  omega

theorem batchParams_total {bp : BatchInsertParams} (accepted : client.batchParams batch = .ok bp) : bp.total = batch.params.length := by
  unfold Config.batchParams at accepted
  cases success : client.buildCallback batch.opts.onSuccess with
  | error => simp [success, bind, Except.bind] at accepted
  | ok =>
    cases failed : client.buildCallback batch.opts.onFailure with
    | error => simp [success, failed, bind, Except.bind] at accepted
    | ok =>
      cases complete : client.buildCallback batch.opts.onComplete with
      | error => simp [success, failed, complete, bind, Except.bind] at accepted
      | ok =>
        simp only [success, failed, complete, bind, Except.bind, pure, Except.pure, Except.ok.injEq] at accepted
        rw [← accepted]

theorem batch_counts {replies : List Reply}
    {jobs : List (Option InsertResult)} (exist : id ≠ 0) (reachable : Reachable engine MindsBatches before)
    (held : before.batches.has id = true) (batched : ∀ input ∈ inputs, input.params.batchID = id)
    (unfolded : ∀ index < inputs.length, foldsOnto inputs index = none)
    (listed : replies.map Prod.fst = (Plan.of inputs).statements order)
    (executed : Executed (Others engine MindsBatches) (StoreAnswers engine Unheld) inputs inTx before replies after)
    (returned : jobs = fillFolded (Plan.of inputs).dupOf (collect (List.replicate inputs.length none) replies)) :
    Reachable engine MindsBatches after ∧ Continues before after ∧
      inputs.length ≤ counted after.journal id (jobs.filterMap (Option.map fun returned => returned.job.id)) := by
  have aligned := insert_aligned listed executed
  have sent : ((Plan.of inputs).schedule order).length = inputs.length := by
    have all : ((Plan.of inputs).schedule order).Perm (List.range inputs.length) := by
      refine (perm_ext_iff_of_nodup (schedule_nodup inputs order) nodup_range).mpr fun index => ?_
      rw [mem_schedule, mem_range]
      exact and_iff_left_of_imp (unfolded index)
    rw [all.length_eq, length_range]
  have entries (reply : Reply) (mem : reply ∈ replies) : ∃ number, reply.1.2 = (Plan.of inputs).entry number reply.1.1 := by
    have statement : reply.1 ∈ (Plan.of inputs).statements order := by
      rw [← listed]
      exact mem_map_of_mem mem
    exact mem_statements statement
  have reported (row : JobInsertResult) (mem : row ∈ replies.flatMap Prod.snd) (_ : row.duplicate = false) :
      row.job.id ∈ jobs.filterMap (Option.map fun returned => returned.job.id) := by
    rw [returned]
    exact mem_filterMap.mpr ⟨_, row_returned listed executed mem, rfl⟩
  obtain ⟨last, continues, counts⟩ :=
    executed_counts batched exist reachable held entries executed reported
  refine ⟨last, continues, ?_⟩
  rw [← aligned.length_eq, sent] at counts
  omega

/-- A batch none of whose inputs is folded, and each of whose insert statements
finds none of its keys held by a live job, has completed and inserted its
callbacks in every later store in which none of the jobs its insert returned is
live. -/
theorem inserted_batch_completes {result : BatchResult} {last : Store} (reachable : Reachable engine MindsBatches before)
    (runs : Runs (Others engine MindsBatches) (StoreAnswers engine Unheld) before
      (Batch.insert client order batch inTx) (.ok result) after)
    (unfolded : Unfolded client batch) (later : Relation.ReflTransGen (Others engine MindsBatches) after last)
    (gone : ∀ returned, some returned ∈ result.jobs → last.live returned.job.id = false) :
    ∃ bp encoded row, client.batchParams batch = .ok bp ∧
      encodeBatch bp.onSuccess bp.onFailure bp.onComplete bp.metadata = .ok encoded ∧
      last.batches.find? result.id = some row ∧ row.completedAt.isSome = true ∧
      row.onSuccess = encoded.onSuccess ∧ row.onFailure = encoded.onFailure ∧
      row.onComplete = encoded.onComplete ∧
      List.Forall₂ (CallbackJob result.id) (callbacksWith row row.failed) (callbacksIn last.journal result.id) := by
  obtain ⟨any, bp, asked, opened, middle, accepted, between, answered, inserted, settled⟩ := runs_batchInsert runs
  obtain ⟨askedReachable, _⟩ := others_continue reachable between
  obtain ⟨now, applied⟩ := answered.apply
  have openedReachable : Reachable engine MindsBatches opened := by
    rw [applied]
    exact askedReachable.step now _ trivial
  obtain ⟨_, now, is⟩ := answered
  obtain ⟨encoded, callbacks, minted, free, same⟩ := W.yields_batchInsert (Call.reply_ok is)
  have found : opened.batches.find? result.id = some (W.batchRow ⟨engine, now⟩ result.id "" bp.total encoded none [] false) := by
    rw [same, Table.find?_append, key_batchRow]
    exact if_pos rfl
  have exist : result.id ≠ 0 := by
    rw [minted]
    exact engine.newID_ne_zero _
  obtain ⟨inputs, replies, built, listed, executed, jobs⟩ := runs_insertMany inserted
  obtain ⟨length, batched⟩ := buildAll_batched built
  obtain ⟨middleReachable, placed, counts⟩ :=
    batch_counts exist openedReachable (Table.has_eq_true.mpr ⟨_, Table.find?_eq_some.mp found⟩) batched
      (unfolded _ _ built) listed executed jobs
  obtain ⟨lastReachable, continues⟩ := others_continue middleReachable (settled.trans later)
  obtain ⟨row, lastFound, same⟩ := (placed.trans continues).fixed _ _ found
  have total : row.total = inputs.length := by
    have kept : row.total = bp.total := congrArg BatchRow.total same
    rw [kept, batchParams_total accepted, length]
  have reached := batch_reached lastReachable
  have balanced : (tally result.id ⟨last, []⟩).Balanced := reached.balanced accounts_always
  have counter := tally_counter lastFound
  have complete : row.completedAt.isSome = true := by
    by_contra pending
    rw [Bool.not_eq_true] at pending
    have agrees := balanced.opened row.counter counter pending
    have pending : row.pending + arrivals last result.id =
        row.total + (Lifecycle.joined last.journal result.id).countP last.live + 0 := agrees.pending
    have nonempty : 0 < inputs.length := by
      rw [length]
      exact length_pos_iff.mpr any
    have positive : 0 < row.pending := agrees.positive (show 0 < row.total by omega)
    have absent : ∀ job ∈ result.jobs.filterMap (Option.map fun returned => returned.job.id), last.live job = false := by
      intro job member
      obtain ⟨returned, among, is⟩ := mem_filterMap.mp member
      obtain ⟨kept, rfl, rfl⟩ := Option.map_eq_some_iff.mp is
      exact gone kept among
    have present := present_add_counted_le result.id absent
    have grows := counted_suffix continues.journal result.id (result.jobs.filterMap (Option.map fun returned => returned.job.id))
    omega
  refine ⟨bp, encoded, row, accepted, callbacks, lastFound, complete, congrArg BatchRow.onSuccess same,
    congrArg BatchRow.onFailure same, congrArg BatchRow.onComplete same, ?_⟩
  have closings : completions last.journal result.id = [row.failed] := balanced.closed row.counter counter complete
  have calls := (reached.callsBack result.id).called row lastFound
  rw [closings, reverse_singleton, flatMap_singleton] at calls
  exact calls

end

def page (key : String) : Input :=
  { params := { kind := "page", queue := "default", priority := 2, maxAttempts := 3, uniqueKey := key } }

def report : Input :=
  { params := { kind := "report", queue := "default", priority := 2, maxAttempts := 3 } }

/-- A batch of a page for each unique key. -/
def pages (keys : List String) : Batch Input :=
  { opts := { onComplete := some report }, params := keys.map page }

/-- The job with an ID, claimed and completed at a client. -/
def worked (id : JobID) (store : Store) : Store :=
  (Operation.jobFinalizeMany { jobs := [{ id := id, attemptedBy := 9, fence := 1, state := .completed }] }).apply
    .counting 40 ((Operation.jobClaim { queue := "default", clientID := 9, limit := 1 }).apply .counting 30 store)

theorem worked_others (id : JobID) (store : Store) : Relation.ReflTransGen (Others .counting MindsBatches) store (worked id store) := by
  refine .tail (.single ⟨30, .jobClaim { queue := "default", clientID := 9, limit := 1 }, ?_, rfl⟩) ⟨40, _, ?_, rfl⟩
  · exact (by decide : (0 : Int) < 9)
  · exact nofun

/-- What the insert of the batch returns, and the store after it. -/
def insertedPages (keys : List String) : Except Failure BatchResult × Store :=
  (Batch.insert builtClient (fun _ => false) (pages keys) false).exec (alone 10) {}

def workedPages : Store :=
  worked 4 (worked 3 (worked 2 (insertedPages ["mon", "tue", ""]).2))

theorem inserted_batch_completes_keyed : ∃ (result : BatchResult) (row : BatchRow),
    (insertedPages ["mon", "tue", ""]).1 = .ok result ∧ result.jobs.length = 3 ∧
      workedPages.batches.find? result.id = some row ∧ row.completedAt.isSome = true ∧
      List.Forall₂ (CallbackJob result.id) (callbacksWith row row.failed) (callbacksIn workedPages.journal result.id) := by
  have met : (Batch.insert builtClient (fun _ => false) (pages ["mon", "tue", ""]) false).Meets (alone 10)
      (fun _ call store => Unheld store call.operation) {} := by
    decide +kernel
  have runs : Runs (Others .counting MindsBatches) (StoreAnswers .counting Unheld) {} _ (insertedPages ["mon", "tue", ""]).1
      (insertedPages ["mon", "tue", ""]).2 := alone_runs 10 met
  have shown : ∃ result, (insertedPages ["mon", "tue", ""]).1 = .ok result ∧ result.jobs.length = 3 ∧
      ∀ returned ∈ result.jobs, (returned.map fun returned => workedPages.live returned.job.id) = some false := by
    decide +kernel
  obtain ⟨result, is, three, jobs⟩ := shown
  rw [is] at runs
  have unfolded : Unfolded builtClient (pages ["mon", "tue", ""]) := by
    intro id inputs built index within
    cases built
    match index, within with
    | 0, _ | 1, _ | 2, _ => rfl
  obtain ⟨_, _, row, _, _, found, complete, _, _, _, callbacks⟩ :=
    inserted_batch_completes .start runs unfolded
      ((worked_others 2 _).trans ((worked_others 3 _).trans (worked_others 4 _))) fun _ among => Option.some.inj (jobs _ among)
  exact ⟨result, row, is, three, found, complete, callbacks⟩

/-- A batch of two inputs with one unique key: the second is folded onto the
first and never counted, so once the one job has completed nothing is left to
complete the batch. -/
theorem repeated_key_never_counted : ∃ (result : BatchResult) (after last : Store) (row : BatchRow),
      Runs (Others .counting MindsBatches) (StoreAnswers .counting fun _ _ => True) {}
        (Batch.insert builtClient (fun _ => false) (pages ["*", "*"]) false) (.ok result) after ∧
      Relation.ReflTransGen (Others .counting MindsBatches) after last ∧
      (∀ returned, some returned ∈ result.jobs → last.live returned.job.id = false) ∧
      last.batches.find? result.id = some row ∧ row.completedAt = none ∧ row.pending = 1 ∧
      callbacksIn last.journal result.id = [] := by
  have runs : Runs (Others .counting MindsBatches) (StoreAnswers .counting fun _ _ => True) {} _ (insertedPages ["*", "*"]).1
      (insertedPages ["*", "*"]).2 := alone_runs 10 (Program.meets_of_forall (fun _ _ _ => trivial) _ _)
  have shown : ∃ result, (insertedPages ["*", "*"]).1 = .ok result ∧ result.id = 1 ∧
      ∀ returned ∈ result.jobs, (returned.map fun returned => returned.job.id) = some 2 := by
    decide +kernel
  obtain ⟨result, is, id, jobs⟩ := shown
  rw [is] at runs
  have left : ∃ row ∈ (worked 2 (insertedPages ["*", "*"]).2).batches.rows, row.id = 1 ∧ row.completedAt = none ∧
      row.pending = 1 ∧ callbacksIn (worked 2 (insertedPages ["*", "*"]).2).journal 1 = [] := by
    decide +kernel
  obtain ⟨row, member, same, unended, pending, callbacks⟩ := left
  refine ⟨result, _, worked 2 (insertedPages ["*", "*"]).2, row, runs, worked_others 2 _, fun returned among => ?_, ?_, unended, pending, ?_⟩
  · have named : returned.job.id = 2 := Option.some.inj (jobs _ among)
    rw [named]
    decide +kernel
  · rw [id]
    exact Table.find?_eq_some.mpr ⟨member, same⟩
  · rw [id]
    exact callbacks

end Hopper.Guarantees
