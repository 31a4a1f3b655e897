import Hopper.Client.Statements
import Hopper.Lifecycle.Runs

/-! The order in which the jobs of one insert get their sequence numbers, and
with them the order in which the jobs of an ordering key run. -/

namespace Hopper.Guarantees

open List Option Kernel Driver Sqlite Lifecycle Client

def Climbs (first second : JobInsertResult) : Prop :=
  first.duplicate = false → second.duplicate = false → first.job.seq < second.job.seq

variable {before after : Store} {engine : Engine} {x : W} {onConflict : ConflictAction} {results : List JobInsertResult}
variable {store : Store} {now : Int}

theorem insertOne_seq {job : JobInsert} (mints : job.id = 0)
    {result : JobInsertResult} (inserted : Yields (x.insertOne onConflict job) before result after) :
    before.seq ≤ after.seq ∧ (result.duplicate = false → before.seq < result.job.seq ∧ result.job.seq ≤ after.seq) := by
  rcases W.yields_insertOne inserted with
    ⟨holder, _, duplicate, same⟩ | ⟨_, _, found, _, rfl, same⟩ | ⟨_, _, _, stored⟩
  · refine ⟨?_, fun new => absurd (duplicate.symm.trans new) (by decide)⟩
    rcases same with ⟨_, _, _, rfl⟩ | ⟨_, _, rfl⟩ <;> exact le_rfl
  · refine ⟨?_, fun new => by cases new⟩
    rcases same with ⟨_, rfl⟩ | ⟨_, counted⟩
    · exact le_rfl
    · obtain ⟨rows, counts⟩ := W.countBatch_counts counted
      exact counts.seq
  · obtain ⟨_, _, row, rfl⟩ := W.yields_insertJob mints stored
    rw [row]
    exact ⟨Nat.le_succ _, fun _ => ⟨Nat.lt_succ_self _, le_rfl⟩⟩

theorem insertJobs_seq {jobs : List JobInsert}
    (mints : ∀ job ∈ jobs, job.id = 0)
    (inserted : Yields (x.insertJobs jobs onConflict) before results after) :
    before.seq ≤ after.seq ∧ results.Pairwise Climbs ∧
      ∀ result ∈ results, result.duplicate = false → before.seq < result.job.seq ∧ result.job.seq ≤ after.seq := by
  unfold W.insertJobs at inserted
  induction jobs generalizing before results with
  | nil =>
    obtain ⟨rfl, rfl⟩ := yields_mapM_nil.mp inserted
    exact ⟨le_rfl, .nil, forall_mem_nil _⟩
  | cons job jobs ih =>
    obtain ⟨result, middle, rest, first, others, rfl⟩ := yields_mapM_cons.mp inserted
    obtain ⟨grows, new⟩ := insertOne_seq (mints job mem_cons_self) first
    obtain ⟨later, climbs, within⟩ := ih (fun other mem => mints other (mem_cons_of_mem _ mem)) others
    refine ⟨grows.trans later, pairwise_cons.mpr ⟨fun other mem isNew otherNew => ?_, climbs⟩, ?_⟩
    · exact (new isNew).2.trans_lt (within other mem otherNew).1
    · intro other mem isNew
      rcases mem_cons.mp mem with rfl | among
      · exact ⟨(new isNew).1, (new isNew).2.trans later⟩
      · exact ⟨grows.trans_lt (within other among isNew).1, (within other among isNew).2⟩

theorem jobInsertMany_seq {params : List JobInsertParams} {opts : JobInsertOpts}
    (inserted : Yields (x.jobInsertMany params opts) before results after) :
    results.length = params.length ∧ before.seq ≤ after.seq ∧ results.Pairwise Climbs ∧
      ∀ result ∈ results, result.duplicate = false → before.seq < result.job.seq ∧ result.job.seq ≤ after.seq := by
  obtain ⟨jobs, middle, notes, encoded, stored, rfl⟩ := W.yields_jobInsertMany inserted
  have mints (job : JobInsert) (mem : job ∈ jobs) : job.id = 0 := by
    obtain ⟨given, _, made⟩ := mapM_ok_mem encoded mem
    rw [encodeInsert_ok made]
  have climbs := insertJobs_seq mints stored
  refine ⟨?_, climbs⟩
  rw [yields_mapM_length stored, (mapM_ok encoded).length_eq]

abbrev Usable (engine : Engine) : Store → Prop :=
  Reachable engine fun _ operation => operation.PositiveClient

theorem usable_seq {operation : Operation} (usable : Usable engine store)
    (positive : operation.PositiveClient) : store.seq ≤ (operation.apply engine now store).seq := by
  have obeys : Obeys Rules.none ⟨engine, now⟩ store operation := obeys_starting positive fun _ => trivial
  have reached := positive_reached usable
  exact Changes.seq_le ((apply_performs obeys reached.sound).moves reached.sound).1

abbrev AnyOthers (engine : Engine) : Store → Store → Prop :=
  Others engine fun _ operation => operation.PositiveClient

theorem others_seq (usable : Usable engine before) (others : Relation.ReflTransGen (AnyOthers engine) before after) :
    Usable engine after ∧ before.seq ≤ after.seq := by
  induction others with
  | refl => exact ⟨usable, le_rfl⟩
  | tail _ step ih =>
    obtain ⟨now, operation, positive, rfl⟩ := step
    exact ⟨ih.1.step now operation positive, ih.2.trans (usable_seq ih.1 positive)⟩

theorem executed_climbs {inputs : List Input} {inTx : Bool} {replies : List Reply} (usable : Usable engine before)
    (executed : Executed (AnyOthers engine) (StoreAnswers engine fun _ _ => True) inputs inTx before replies after) :
    (replies.flatMap Prod.snd).Pairwise Climbs ∧
      ∀ result ∈ replies.flatMap Prod.snd, result.duplicate = false → before.seq < result.job.seq := by
  induction executed with
  | nil => exact ⟨.nil, forall_mem_nil _⟩
  | @cons before asked replied after action indexes rows rest between answered next ih =>
    obtain ⟨askedUsable, waited⟩ := others_seq usable between
    obtain ⟨now, applied⟩ := answered.apply
    have repliedUsable : Usable engine replied := by
      rw [applied]
      exact askedUsable.step now _ trivial
    obtain ⟨_, now, is⟩ := answered
    obtain ⟨_, _, climbs, within⟩ := jobInsertMany_seq (Call.reply_ok is)
    obtain ⟨later, above⟩ := ih repliedUsable
    rw [flatMap_cons]
    refine ⟨pairwise_append.mpr ⟨climbs, later, ?_⟩, ?_⟩
    · intro one mem other among isNew otherNew
      exact (within one mem isNew).2.trans_lt (above other among otherNew)
    · intro one mem isNew
      rcases List.mem_append.mp mem with here | there
      · exact waited.trans_lt (within one here isNew).1
      · have grows := (jobInsertMany_seq (Call.reply_ok is)).2.1
        exact (waited.trans grows).trans_lt (above one there isNew)

theorem claimEligible_older {queue : String} {older younger : LiveJob}
    (mem : older ∈ store.jobs) (waits : older.state.waiting = true) (sameQueue : older.queue = younger.queue)
    (sameKey : older.orderingKey = younger.orderingKey) (keyed : younger.orderingKey ≠ none)
    (less : older.seq < younger.seq) : store.claimEligible now queue younger = false := by
  have blocked : store.orderingAllows younger = false := by
    unfold Store.orderingAllows Store.oldestWaiting
    rw [Option.isNone_eq_false_iff.mpr (ne_none_iff_isSome.mp keyed), Bool.false_or, Bool.and_eq_false_iff]
    refine .inr (decide_eq_false fun oldest => ?_)
    have among : older.seq ∈ (store.jobs.rows.filter fun row =>
        decide (row.queue = younger.queue ∧ row.orderingKey = younger.orderingKey) && row.state.waiting).map fun row => row.seq := by
      refine mem_map_of_mem (mem_filter.mpr ⟨mem, ?_⟩)
      rw [waits, Bool.and_true]
      exact decide_eq_true ⟨sameQueue, sameKey⟩
    have least := (min?_eq_some_iff.mp oldest.symm).2 older.seq among
    omega
  unfold Store.claimEligible
  rw [blocked, Bool.and_false]

/-- The first of two inputs reaches the store before the second, whatever order
the maps of conflict actions are iterated in: the finished states have changed
less often along the inputs of its key, or as often, and it has the action of the
second. -/
def GoesFirst (inputs : List Input) (first second : Nat) : Prop :=
  keyRound inputs first < keyRound inputs second ∨
    keyRound inputs first = keyRound inputs second ∧ SharesAction inputs first second

theorem goesFirst_iff {inputs : List Input} {first second : Nat} (less : first < second) {other : Input}
    (otherAt : inputs[second]? = some other) :
    GoesFirst inputs first second ↔ ∀ order, ¬SentBefore inputs order second first := by
  constructor
  · rintro goes order (earlier | ⟨same, acts⟩)
    · rcases goes with fewer | ⟨same, _⟩
      · omega
      · omega
    · rcases goes with fewer | ⟨_, one, two, oneIs, twoIs, shares⟩
      · omega
      · rcases acts with ⟨_, before⟩ | ⟨apart, _⟩
        · omega
        · exact apart ⟨two, one, twoIs, oneIs, shares.symm⟩
  · intro never
    by_contra stays
    -- the maps iterated from the second's action send it first
    refine never (fun _ => decide (other.onConflict = .replace)) ?_
    rcases Nat.lt_trichotomy (keyRound inputs first) (keyRound inputs second) with fewer | same | more
    · exact absurd (.inl fewer) stays
    · refine .inr ⟨same.symm, .inr ⟨?_, ?_⟩⟩
      · rintro ⟨two, one, twoIs, oneIs, shares⟩
        exact stays (.inr ⟨same, one, two, oneIs, twoIs, shares.symm⟩)
      · rw [otherAt, Option.map_some, leadingAction]
        cases other.onConflict <;> rfl
    · exact .inl more

section
variable {Args : Type} {client : Config Args} {order : Nat → Bool} {params : List (InsertParams Args)} {inTx : Bool}
  {engine : Engine} {before : Store} {inputs : List Input} {first second : Nat} {firstResult secondResult : InsertResult}

/-- An insert, among other operations on the store, returns a new job for each
of two inputs. -/
def InsertsNew (engine : Engine) (before : Store) (program : Code (List (Option InsertResult)))
    (first second : Nat) (firstResult secondResult : InsertResult) : Prop :=
  ∃ results after, Runs (AnyOthers engine) (StoreAnswers engine fun _ _ => True) before program (.ok results) after ∧
    results[first]? = some (some firstResult) ∧ results[second]? = some (some secondResult) ∧
    firstResult.duplicate = false ∧ secondResult.duplicate = false

theorem sent_of_new {collected : List (Option InsertResult)} {index : Nat} (within : index < inputs.length) {result : InsertResult}
    (returned : (fillFolded (Plan.of inputs).dupOf collected)[index]? = some (some result)) (new : result.duplicate = false) :
    foldsOnto inputs index = none ∧ collected[index]? = some (some result) := by
  have room : index < collected.length := by
    rw [← length_fillFolded (Plan.of inputs).dupOf collected]
    exact (List.getElem?_eq_some_iff.mp returned).1
  cases folded : foldsOnto inputs index with
  | none => exact ⟨rfl, by rw [← returned, fillFolded_sent within folded]⟩
  | some onto =>
    rw [fillFolded_folded folded within room] at returned
    obtain ⟨_, _, rfl⟩ := map_eq_some_iff.mp (some.inj returned)
    cases new

theorem insertsNew_seq (usable : Usable engine before) (built : client.buildAll params = .ok inputs) (apart : first ≠ second)
    (firstWithin : first < inputs.length) (secondWithin : second < inputs.length)
    (inserts : InsertsNew engine before (client.insertMany order params inTx) first second firstResult secondResult) :
    SentBefore inputs order first second ∧ firstResult.job.seq < secondResult.job.seq ∨
      SentBefore inputs order second first ∧ secondResult.job.seq < firstResult.job.seq := by
  obtain ⟨_, _, runs, firstAt, secondAt, firstNew, secondNew⟩ := inserts
  obtain ⟨given, replies, accepted, listed, executed, rfl⟩ := runs_insertMany runs
  cases accepted.symm.trans built
  have climbs := pairwise_iff_getElem.mp (executed_climbs usable executed).1
  have ordered := pairwise_iff_getElem.mp (schedule_ordered inputs order)
  obtain ⟨sameLength, aligned⟩ := forall₂_iff_get.mp (insert_aligned listed executed)
  obtain ⟨firstSent, firstCollected⟩ := sent_of_new firstWithin firstAt firstNew
  obtain ⟨secondSent, secondCollected⟩ := sent_of_new secondWithin secondAt secondNew
  obtain ⟨i, iBelow, iAt⟩ := mem_iff_getElem.mp ((mem_schedule order).mpr ⟨firstWithin, firstSent⟩)
  obtain ⟨j, jBelow, jAt⟩ := mem_iff_getElem.mp ((mem_schedule order).mpr ⟨secondWithin, secondSent⟩)
  have iRow := aligned i iBelow (sameLength ▸ iBelow)
  have jRow := aligned j jBelow (sameLength ▸ jBelow)
  simp only [get_eq_getElem, iAt, jAt] at iRow jRow
  cases firstCollected.symm.trans iRow
  cases secondCollected.symm.trans jRow
  rcases Nat.lt_trichotomy i j with earlier | same | later
  · exact .inl ⟨iAt ▸ jAt ▸ ordered i j iBelow jBelow earlier, climbs i j _ _ earlier firstNew secondNew⟩
  · subst same
    exact absurd (iAt.symm.trans jAt) apart
  · exact .inr ⟨iAt ▸ jAt ▸ ordered j i jBelow iBelow later, climbs j i _ _ later secondNew firstNew⟩

/-- Two inputs inserted as new jobs of one ordering key get sequence numbers in
input order if the first goes first, and then it is claimed before the second
while both wait. Otherwise there is an order of iterating the maps of conflict
actions in which the second gets the smaller one. -/
theorem insertMany_keeps_order (usable : Usable engine before) (built : client.buildAll params = .ok inputs) (less : first < second)
    {one other : Input} (oneAt : inputs[first]? = some one) (otherAt : inputs[second]? = some other)
    (queue : one.params.queue = other.params.queue) (key : one.params.orderingKey = other.params.orderingKey) :
    (GoesFirst inputs first second → ∀ order firstResult secondResult,
      InsertsNew engine before (client.insertMany order params inTx) first second firstResult secondResult →
      firstResult.job.seq < secondResult.job.seq ∧
        ∀ (store : Store) (now : Int) (older younger : LiveJob), older ∈ store.jobs → older.state.waiting = true →
          older.seq = firstResult.job.seq → younger.seq = secondResult.job.seq →
          older.queue = one.params.queue → younger.queue = other.params.queue →
          older.orderingKey = some one.params.orderingKey → younger.orderingKey = some other.params.orderingKey →
          store.claimEligible now other.params.queue younger = false) ∧
    (¬GoesFirst inputs first second → ∃ order, ∀ firstResult secondResult,
      InsertsNew engine before (client.insertMany order params inTx) first second firstResult secondResult →
      secondResult.job.seq < firstResult.job.seq) := by
  have seqs {order : Nat → Bool} {firstResult secondResult : InsertResult}
      (inserts : InsertsNew engine before (client.insertMany order params inTx) first second firstResult secondResult) :=
    insertsNew_seq usable built less.ne (List.getElem?_eq_some_iff.mp oneAt).1 (List.getElem?_eq_some_iff.mp otherAt).1 inserts
  rw [goesFirst_iff less otherAt]
  refine ⟨fun never order firstResult secondResult inserts => ?_, fun sometimes => ?_⟩
  · have climbs := ((seqs inserts).resolve_right fun swapped => never order swapped.1).2
    refine ⟨climbs, fun store now older younger member waits olderSeq youngerSeq olderQueue youngerQueue olderKey youngerKey => ?_⟩
    refine claimEligible_older member waits ?_ ?_ ?_ (by rwa [olderSeq, youngerSeq])
    · rw [olderQueue, youngerQueue, queue]
    · rw [olderKey, youngerKey, key]
    · rw [youngerKey]
      exact Option.some_ne_none _
  · obtain ⟨order, swapped⟩ := not_forall_not.mp sometimes
    exact ⟨order, fun _ _ inserts => ((seqs inserts).resolve_left fun kept => kept.1.asymm swapped).2⟩

def shipment : Input :=
  { params := { kind := "ship", queue := "default", priority := 2, maxAttempts := 3, orderingKey := "order-7" } }

def bill : Input :=
  { params :=
      { kind := "bill", queue := "default", priority := 2, maxAttempts := 3, orderingKey := "order-7", uniqueKey := "*" }
    onConflict := .replace }

/-- Two shipments with a bill between them, each map iterated from the bill's
action: the shipments keep their order. -/
theorem insertMany_keeps_order_twice : ∃ first second,
    InsertsNew .counting {}
        (builtClient.insertMany (fun _ => true) [{ args := shipment }, { args := bill }, { args := shipment }] false) 0 2 first second ∧
      first.job.seq < second.job.seq := by
  have runs : Runs (AnyOthers .counting) (StoreAnswers .counting fun _ _ => True) {} _ _ _ :=
    alone_runs 10 (Program.meets_of_forall (fun _ _ _ => trivial)
      (builtClient.insertMany (fun _ => true) [{ args := shipment }, { args := bill }, { args := shipment }] false) _)
  have shown : ∃ results, (Program.exec (alone 10)
        (builtClient.insertMany (fun _ => true) [{ args := shipment }, { args := bill }, { args := shipment }] false) {}).1 = .ok results ∧
        results.map (Option.map fun result => result.duplicate) = [some false, some false, some false] := by
    decide +kernel
  obtain ⟨_ | ⟨_ | first, _ | ⟨_, _ | ⟨_ | second, _ | _⟩⟩⟩, is, shape⟩ := shown <;> simp at shape
  rw [is] at runs
  have inserts : InsertsNew .counting {} _ 0 2 first second := ⟨_, _, runs, rfl, rfl, shape.1, shape.2.2⟩
  have goes : GoesFirst [shipment, bill, shipment] 0 2 := .inr ⟨rfl, shipment, shipment, rfl, rfl, rfl⟩
  exact ⟨first, second, inserts, ((insertMany_keeps_order .start rfl Nat.two_pos rfl rfl rfl rfl).1 goes _ _ _ inserts).1⟩

/-- The later of two inputs of an ordering key gets the smaller sequence
number if the map of conflict actions is iterated from its action. -/
theorem insertMany_reorders : ∃ first second after, Runs (AnyOthers .counting) (StoreAnswers .counting fun _ _ => True) {}
        (builtClient.insertMany (fun _ => true) [{ args := shipment }, { args := bill }] false)
        (.ok [some first, some second]) after ∧
      first.duplicate = false ∧ second.duplicate = false ∧ first.job.queue = second.job.queue ∧
      first.job.orderingKey = some "order-7" ∧ second.job.orderingKey = some "order-7" ∧
      second.job.seq < first.job.seq := by
  have runs : Runs (AnyOthers .counting) (StoreAnswers .counting fun _ _ => True) {} _ _ _ :=
    alone_runs 10 (Program.meets_of_forall (fun _ _ _ => trivial)
      (builtClient.insertMany (fun _ => true) [{ args := shipment }, { args := bill }] false) _)
  have shown : ∃ results, (Program.exec (alone 10)
        (builtClient.insertMany (fun _ => true) [{ args := shipment }, { args := bill }] false) {}).1 = .ok results ∧
        results.map (Option.map fun result => (result.duplicate, result.job.seq)) = [some (false, 2), some (false, 1)] ∧
        results.map (Option.map fun result => (result.job.queue, result.job.orderingKey)) =
          [some ("default", some "order-7"), some ("default", some "order-7")] := by
    decide +kernel
  obtain ⟨_ | ⟨_ | first, _ | ⟨_ | second, _ | _⟩⟩, is, shape⟩ := shown <;> simp at shape
  obtain ⟨⟨⟨firstNew, firstSeq⟩, secondNew, secondSeq⟩, ⟨firstQueue, firstKey⟩, secondQueue, secondKey⟩ := shape
  rw [is] at runs
  exact ⟨first, second, _, runs, firstNew, secondNew, firstQueue.trans secondQueue.symm, firstKey, secondKey, by omega⟩

end

end Hopper.Guarantees
