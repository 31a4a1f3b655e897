import Hopper.Client.Cells
import Hopper.Client.Statements
import Hopper.Client.Unique

/-! Inserts alone with a store at one time, as runs over the cells of their
inputs' keys: an insert of many takes its plan's schedule, inserts of one job
each take input order. -/

namespace Hopper.Client

open List Kernel Driver Sqlite

section
variable {Args : Type}

/-- The jobs inserted one after another, each by an insert of its own. -/
def Config.insertEach (client : Config Args) (order : Nat → Bool) (inTx : Bool) :
    List (InsertParams Args) → Code (List (Option InsertResult))
  | [] => pure []
  | given :: rest => do
      let first ← client.insertMany order [given] inTx
      let others ← client.insertEach order inTx rest
      pure (first ++ others)

end

def atTime (engine : Engine) (now : Int) (Reply : Type) (call : Call Reply) (store : Store) :
    Except Failure Reply × Store :=
  call.reply engine now store

def AnswersAt (engine : Engine) (now : Int) (Reply : Type) (call : Call Reply) (before : Store)
    (reply : Except Failure Reply) (after : Store) : Prop :=
  call.reply engine now before = (reply, after)

theorem runs_atTime {Result : Type} {engine : Engine} {now : Int} {program : Code Result} {pre post : Store}
    {outcome : Except Failure Result} (ran : program.exec (atTime engine now) pre = (outcome, post)) :
    Runs (fun _ _ => False) (AnswersAt engine now) pre program outcome post := by
  have met : program.Meets (atTime engine now) (fun _ _ _ => True) pre :=
    Program.meets_of_forall (fun _ _ _ => trivial) program pre
  have runs : Runs (fun _ _ => False) (AnswersAt engine now) pre program
      (program.exec (atTime engine now) pre).1 (program.exec (atTime engine now) pre).2 :=
    Program.exec_runs (fun _ _ _ _ => rfl) met
  rwa [ran] at runs

def jobOf (params : JobInsertParams) : JobInsert :=
  { kind := params.kind, queue := params.queue, priority := params.priority, maxAttempts := params.maxAttempts,
    scheduledAt := params.scheduledAt, args := jsonValue params.args emptyObject,
    metadata := params.metadata.getD (.object []), tags := params.tags, uniqueKey := params.uniqueKey,
    uniqueFinished := params.uniqueFinished, orderingKey := params.orderingKey, partitionKey := params.partitionKey,
    batchID := params.batchID, ttl := params.ttl, await := params.await }

def sentOf (inputs : List Input) (index : Nat) : Sent :=
  match inputs[index]? with
  | some input => ⟨jobOf input.params, input.onConflict⟩
  | none => ⟨jobOf { kind := "", queue := "", priority := 1, maxAttempts := 1 }, .skip⟩

variable {inputs : List Input}

theorem sentOf_eq {index : Nat} {input : Input} (given : inputs[index]? = some input) :
    sentOf inputs index = ⟨jobOf input.params, input.onConflict⟩ := by
  rw [sentOf, given]

theorem encode_jobs {params : List JobInsertParams} {jobs : List JobInsert}
    (encoded : params.mapM encodeInsert = .ok jobs) : jobs = params.map jobOf := by
  have each := mapM_ok encoded
  clear encoded
  induction each with
  | nil => rfl
  | cons first _ ih => rw [map_cons, ← ih, encodeInsert_ok first, jobOf]

theorem subParams_jobs {indexes : List Nat} (valid : ∀ index ∈ indexes, index < inputs.length) :
    (subParams inputs indexes).map jobOf = indexes.map fun index => (sentOf inputs index).job := by
  induction indexes with
  | nil => rfl
  | cons index indexes ih =>
    have given := getElem?_eq_getElem (valid index mem_cons_self)
    rw [map_cons, ← ih fun other mem => valid other (mem_cons_of_mem _ mem), sentOf_eq given]
    simp only [subParams, filterMap_cons, given, Option.map_some, map_cons]

section
variable {engine : Engine} {now : Int} {start pre post : Store} {inputs : List Input} {inTx : Bool}
  {done : List Nat} {naming : Naming} {cells : Lane → Cell}

theorem Shows.notified {sent : Nat → Sent} (shows : Shows start sent done naming cells pre)
    (notes : List Notification) : Shows start sent done naming cells { pre with notifications := notes } :=
  { holders := shows.holders, rows := shows.rows, history := shows.history, kept := shows.kept
    lanes := shows.lanes, old := shows.old, new := shows.new, apart := shows.apart }

abbrev resultsOf (x : W) (start : Store) (inputs : List Input) (naming : Naming) (indexes : List Nat)
    (cells : Lane → Cell) : List JobInsertResult :=
  (Lanes.answers (laneOf (sentOf inputs)) (act x start (sentOf inputs)) (answer x start (sentOf inputs)) indexes
    cells).map (Found.result naming)

theorem Shows.statement (shows : Shows start (sentOf inputs) done naming cells pre) {indexes : List Nat}
    (distinct : (done ++ indexes).Nodup) {action : ConflictAction} {params : List JobInsertParams}
    (sends : params.map jobOf = indexes.map fun index => (sentOf inputs index).job)
    (plain : ∀ index ∈ indexes, (sentOf inputs index).job.batchID = 0 ∧ (sentOf inputs index).onConflict = action)
    {rows : List JobInsertResult}
    (answered : AnswersAt engine now _ (.jobInsertMany params { notify := inTx, onConflict := action }) pre (.ok rows) post) :
    ∃ later, (∀ other ∈ done, later other = naming other) ∧ Shows start (sentOf inputs) (done ++ indexes) later
        (Lanes.run (laneOf (sentOf inputs)) (act ⟨engine, now⟩ start (sentOf inputs)) indexes cells) post ∧
      rows = resultsOf ⟨engine, now⟩ start inputs later indexes cells ∧
      ∀ found ∈ Lanes.answers (laneOf (sentOf inputs)) (act ⟨engine, now⟩ start (sentOf inputs))
        (answer ⟨engine, now⟩ start (sentOf inputs)) indexes cells, found.Within (done ++ indexes) := by
  obtain ⟨jobs, middle, notes, encoded, stored, rfl⟩ := W.yields_jobInsertMany (Call.reply_ok answered)
  rw [encode_jobs encoded, sends] at stored
  have mints (index : Nat) : (sentOf inputs index).job.id = 0 := by
    unfold sentOf
    split <;> rfl
  obtain ⟨later, same, laterShows, is, within⟩ :=
    shows.run distinct (fun index mem => ⟨mints index, plain index mem⟩) stored
  exact ⟨later, same, laterShows.notified notes, is, within⟩

theorem Shows.executed (shows : Shows start (sentOf inputs) done naming cells pre) {replies : List Reply}
    (executed : Executed (fun _ _ => False) (AnswersAt engine now) inputs inTx pre replies post)
    (distinct : (done ++ replies.flatMap fun reply => reply.1.2).Nodup)
    (unbatched : ∀ input ∈ inputs, input.params.batchID = 0)
    (acts : ∀ reply ∈ replies, ∀ index ∈ reply.1.2, ∃ input, inputs[index]? = some input ∧ input.onConflict = reply.1.1) :
    ∃ later, (∀ other ∈ done, later other = naming other) ∧
      Shows start (sentOf inputs) (done ++ replies.flatMap fun reply => reply.1.2) later
        (Lanes.run (laneOf (sentOf inputs)) (act ⟨engine, now⟩ start (sentOf inputs))
          (replies.flatMap fun reply => reply.1.2) cells) post ∧
      replies.flatMap Prod.snd = resultsOf ⟨engine, now⟩ start inputs later (replies.flatMap fun reply => reply.1.2) cells := by
  induction executed generalizing done naming cells with
  | nil =>
    rw [flatMap_nil, append_nil]
    exact ⟨naming, fun _ _ => rfl, shows, rfl⟩
  | @cons pre asked replied post action indexes rows rest between answered next ih =>
    have quiet : asked = pre := by
      cases between with
      | refl => rfl
      | tail _ step => exact step.elim
    subst quiet
    rw [flatMap_cons, ← append_assoc] at distinct
    rw [flatMap_cons, flatMap_cons, ← append_assoc]
    have mine := acts _ mem_cons_self
    have sends : (subParams inputs indexes).map jobOf = indexes.map fun index => (sentOf inputs index).job := by
      refine subParams_jobs fun index mem => ?_
      obtain ⟨input, given, _⟩ := mine index mem
      exact (List.getElem?_eq_some_iff.mp given).1
    have plain (index : Nat) (mem : index ∈ indexes) :
        (sentOf inputs index).job.batchID = 0 ∧ (sentOf inputs index).onConflict = action := by
      obtain ⟨input, given, acts⟩ := mine index mem
      rw [sentOf_eq given]
      exact ⟨unbatched input (mem_of_getElem? given), acts⟩
    obtain ⟨middle, middleSame, middleShows, is, within⟩ :=
      shows.statement (nodup_append.mp distinct).1 sends plain answered
    obtain ⟨later, same, laterShows, restIs⟩ :=
      ih middleShows distinct fun reply mem => acts reply (mem_cons_of_mem _ mem)
    refine ⟨later, fun other isDone => ?_, ?_, ?_⟩
    · rw [same other (mem_append_left _ isDone), middleSame other isDone]
    · rw [Lanes.run_append]
      exact laterShows
    · rw [resultsOf, Lanes.answers_append, map_append, restIs, is]
      refine congrArg (· ++ _) (map_congr_left fun found mem => ?_)
      exact (Found.result_congr same (within found mem)).symm

end

section
variable {Args : Type} {client : Config Args} {order : Nat → Bool} {inTx : Bool} {engine : Engine} {now : Int}
  {start pre post : Store} {inputs : List Input} {results : List (Option InsertResult)}

theorem buildAll_ok {params : List (InsertParams Args)} (built : client.buildAll params = .ok inputs) :
    List.Forall₂ (fun given input => client.buildInsertParams given = .ok input) params inputs := by
  have each := mapM_ok built
  have unmarked (given : InsertParams Args) (mark : Failure → Failure) (input : Input)
      (accepted : (client.buildInsertParams given).mapError mark = .ok input) :
      client.buildInsertParams given = .ok input := by
    cases outcome : client.buildInsertParams given with
    | error =>
      rw [outcome] at accepted
      cases accepted
    | ok =>
      rw [outcome] at accepted
      exact accepted
  have firsts : params = params.zipIdx.map Prod.fst := (zipIdx_map_fst ..).symm
  rw [firsts, forall₂_map_left_iff]
  exact each.imp fun entry input accepted => unmarked _ _ _ accepted

theorem plan_single (order : Nat → Bool) (input : Input) :
    (Plan.of [input]).statements order = [(input.onConflict, [0])] ∧ (Plan.of [input]).dupOf = [none] := by
  have placed : Plan.place {} [input] input = .round 0 := by
    unfold Plan.place
    split <;> rfl
  have is : Plan.of [input] = Plan.step [input] {} (input, 0) := rfl
  rw [is, Plan.step, placed]
  refine ⟨?_, rfl⟩
  cases acts : input.onConflict <;> cases first : order 0 <;>
    simp [Plan.statements, Plan.enter, Round.add, Round.statements, first]

theorem runs_insertOne {given : InsertParams Args} {input : Input}
    (runs : Runs (fun _ _ => False) (AnswersAt engine now) pre (client.insertMany order [given] inTx)
      (.ok results) post) (built : client.buildInsertParams given = .ok input) :
    ∃ row, results = [some row] ∧
      AnswersAt engine now _ (.jobInsertMany [input.params] { notify := inTx, onConflict := input.onConflict }) pre
        (.ok [row]) post := by
  obtain ⟨inputs, replies, accepted, listed, executed, rfl⟩ := runs_insertMany runs
  cases buildAll_ok accepted with
  | cons head rest =>
    cases rest
    cases built.symm.trans head
    obtain ⟨statements, unfolded⟩ := plan_single order input
    rw [statements] at listed
    rw [unfolded]
    cases executed with
    | nil => cases listed
    | @cons _ asked replied _ action indexes rows rest between answered next =>
      rw [map_cons, List.cons.injEq, Prod.mk.injEq] at listed
      obtain ⟨⟨rfl, rfl⟩, none⟩ := listed
      cases map_eq_nil_iff.mp none
      cases next
      have quiet : asked = pre := by
        cases between with
        | refl => rfl
        | tail _ step => exact step.elim
      subst quiet
      obtain ⟨jobs, _, _, encoded, stored, _⟩ := W.yields_jobInsertMany (Call.reply_ok answered)
      have length : rows.length = 1 := by
        rw [yields_mapM_length stored, ← (mapM_ok encoded).length_eq]
        rfl
      obtain ⟨row, rfl⟩ := length_eq_one_iff.mp length
      exact ⟨row, rfl, answered⟩

theorem Shows.each {naming : Naming} {cells : Lane → Cell} {done : Nat}
    (shows : Shows start (sentOf inputs) (List.range done) naming cells pre) {rest : List (InsertParams Args)}
    (built : List.Forall₂ (fun given input => client.buildInsertParams given = .ok input) rest (inputs.drop done))
    (unbatched : ∀ input ∈ inputs, input.params.batchID = 0)
    (runs : Runs (fun _ _ => False) (AnswersAt engine now) pre (client.insertEach order inTx rest) (.ok results) post) :
    ∃ later, (∀ other ∈ List.range done, later other = naming other) ∧
      Shows start (sentOf inputs) (List.range (done + rest.length)) later
        (Lanes.run (laneOf (sentOf inputs)) (act ⟨engine, now⟩ start (sentOf inputs)) (List.range' done rest.length) cells) post ∧
      results = (resultsOf ⟨engine, now⟩ start inputs later (List.range' done rest.length) cells).map some := by
  induction rest generalizing done naming cells pre results with
  | nil =>
    obtain ⟨rfl, rfl⟩ := runs_pure runs
    exact ⟨naming, fun _ _ => rfl, shows, rfl⟩
  | cons given rest ih =>
    obtain ⟨first, middleStore, firstRuns, others⟩ := runs_bind runs
    obtain ⟨second, lastStore, restRuns, returned⟩ := runs_bind others
    obtain ⟨rfl, rfl⟩ := runs_pure returned
    cases left : inputs.drop done with
    | nil =>
      rw [left] at built
      cases built
    | cons input inputsLeft =>
      rw [left] at built
      cases built with
      | cons head tail =>
        have stands : inputs[done]? = some input := by rw [← head?_drop, left, head?_cons]
        have next : inputs.drop (done + 1) = inputsLeft := by rw [← tail_drop, left, tail_cons]
        obtain ⟨row, rfl, answered⟩ := runs_insertOne firstRuns head
        have distinct : (List.range done ++ [done]).Nodup := by
          rw [← range_succ]
          exact nodup_range
        obtain ⟨middle, middleSame, middleShows, is, within⟩ :=
          shows.statement distinct (by rw [map_singleton, map_singleton, sentOf_eq stands]) (fun index mem => by
              rw [mem_singleton.mp mem, sentOf_eq stands]
              exact ⟨unbatched input (mem_of_getElem? stands), rfl⟩) answered
        rw [← range_succ] at middleShows within
        rw [← next] at tail
        obtain ⟨later, same, laterShows, restIs⟩ := ih middleShows tail restRuns
        have count : done + 1 + rest.length = done + (rest.length + 1) := by omega
        rw [count] at laterShows
        rw [length_cons, List.range'_succ]
        refine ⟨later, fun other isDone => ?_, laterShows, ?_⟩
        · rw [same other (mem_range.mpr ((mem_range.mp isDone).trans (Nat.lt_succ_self _))), middleSame other isDone]
        · have kept := Found.result_congr same (within _ mem_cons_self)
          rw [resultsOf, Lanes.answers, map_cons, map_cons, kept]
          rw [restIs, cons_append, nil_append]
          exact congrArg (some · :: _) (List.cons.inj is).1

end

end Hopper.Client
