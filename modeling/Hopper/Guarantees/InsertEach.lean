import Hopper.Client.Each
import Mathlib.Data.Set.Function

/-! An insert of many jobs leaves and returns what inserts of the same jobs one
at a time do, up to IDs and sequence numbers, unless an input that is folded
onto the one before it would replace the job it finds by another. -/

namespace Hopper.Guarantees

open List Kernel Driver Sqlite Client

/-- Two stores that come from one have the same live jobs, but for the IDs of
the new ones and their sequence numbers. -/
structure SameJobs (rename : JobID → JobID) (start one other : Store) : Prop where
  fixes : ∀ row ∈ start.jobs, rename row.id = row.id
  injective : Set.InjOn rename {id | one.jobs.has id = true}
  forward : ∀ row ∈ one.jobs, ∃ found ∈ other.jobs,
    scanJob found = { scanJob row with id := rename row.id, seq := found.seq }
  backward : ∀ row ∈ other.jobs, ∃ found ∈ one.jobs,
    scanJob row = { scanJob found with id := rename found.id, seq := row.seq }

/-- Two results are of corresponding jobs; a finished job is the same one. -/
structure SameResult (rename : JobID → JobID) (one other : InsertResult) : Prop where
  duplicate : other.duplicate = one.duplicate
  finished : one.job.finalizedAt ≠ none → other.job = one.job
  live : one.job.finalizedAt = none → other.job = { one.job with id := rename one.job.id, seq := other.job.seq }

def InCells (cells : Lane → Cell) : Found → Prop
  | .live origin row _ => ∃ lane content, cells lane = some (origin, content) ∧ content.id = row.id
  | .finished _ => True

section
variable {start after afterEach : Store} {sent : Nat → Sent} {done eachDone : List Nat} {naming eachNaming : Naming}
  {cells eachCells : Lane → Cell} {origin : Origin}

private theorem exists_renaming (shows : Client.Shows start sent done naming cells after) (eachNaming : Naming) : ∃ rename : JobID → JobID,
      (∀ lane index row, cells lane = some (.new index, row) → rename (naming index).1 = (eachNaming index).1) ∧
      ∀ id, start.jobs.has id = true → rename id = id := by
  classical
  let IsNew (id : JobID) (index : Nat) : Prop := (∃ lane row, cells lane = some (.new index, row)) ∧ (naming index).1 = id
  refine ⟨fun id => if new : ∃ index, IsNew id index then (eachNaming new.choose).1 else id, ?_, ?_⟩
  · intro lane index row is
    have new : ∃ other, IsNew (naming index).1 other := ⟨index, ⟨lane, row, is⟩, rfl⟩
    obtain ⟨⟨otherLane, otherRow, otherIs⟩, same⟩ := new.choose_spec
    have chosen := shows.apart _ _ _ _ _ _ otherIs is same
    exact (dif_pos new).trans (by rw [chosen])
  · intro id live
    refine dif_neg fun new => ?_
    obtain ⟨index, ⟨lane, row, is⟩, rfl⟩ := new
    exact Bool.false_ne_true ((shows.new _ _ _ is).2.2.symm.trans live)

theorem sight_across {cell other : Cell} (same : sight cell = sight other) {row : LiveJob}
    (is : cell = some (origin, row)) : ∃ content, other = some (origin, content) ∧ scanJob content = scanJob row := by
  subst is
  exact sight_eq_some.mp same.symm

theorem scanJob_placed {rename : JobID → JobID} {row content : LiveJob} (scan : scanJob content = scanJob row)
    (named : rename (placed naming origin row).id = (placed eachNaming origin content).id) :
    scanJob (placed eachNaming origin content) = { scanJob (placed naming origin row) with
        id := rename (placed naming origin row).id, seq := (placed eachNaming origin content).seq } := by
  rw [named]
  cases origin with
  | old =>
    change scanJob content = { scanJob row with id := content.id, seq := content.seq }
    rw [← scan]
    rfl
  | new index =>
    change { scanJob content with id := (eachNaming index).1, seq := (eachNaming index).2 } =
      { scanJob row with id := (eachNaming index).1, seq := (eachNaming index).2 }
    rw [scan]

theorem shows_same (shows : Client.Shows start sent done naming cells after)
    (eachShows : Client.Shows start sent eachDone eachNaming eachCells afterEach)
    (alike : ∀ lane, sight (cells lane) = sight (eachCells lane)) :
    ∃ rename, SameJobs rename start after afterEach ∧ ∀ found other : Found, InCells cells found → found.sight = other.sight →
        SameResult rename (found.result naming) (other.result eachNaming) := by
  obtain ⟨rename, new, fixes⟩ := exists_renaming shows eachNaming
  have old {row : LiveJob} (mem : row ∈ start.jobs) : rename row.id = row.id :=
    fixes _ (Table.has_eq_true.mpr ⟨row, mem, rfl⟩)
  have oldCell {lane : Lane} {row : LiveJob} (is : cells lane = some (.old, row)) : start.jobs.has row.id = true := by
    obtain ⟨first, firstIs, same⟩ := shows.old _ _ is
    exact Table.has_eq_true.mpr ⟨first, (firstCells_eq_some firstIs).2.1, same.symm⟩
  have named {lane : Lane} {origin : Origin} {held row content : LiveJob} (is : cells lane = some (origin, held))
      (sameID : held.id = row.id) (scan : scanJob content = scanJob row) :
      rename (placed naming origin row).id = (placed eachNaming origin content).id := by
    cases origin with
    | old =>
      change rename row.id = content.id
      rw [← sameID, fixes _ (oldCell is), sameID]
      exact (congrArg (fun job : JobRow => job.id) scan).symm
    | new => exact new _ _ _ is
  refine ⟨rename, ⟨fun row mem => old mem, ?_, ?_, ?_⟩, ?_⟩
  · intro id live other otherLive same
    have origins (id : JobID) (live : after.jobs.has id = true) :
        start.jobs.has id = true ∨ ∃ lane index row, cells lane = some (.new index, row) ∧ id = (naming index).1 := by
      obtain ⟨row, mem, rfl⟩ := Table.has_eq_true.mp live
      rcases (shows.rows row).mp mem with aside | ⟨lane, origin, content, is, rfl⟩
      · exact .inl (Table.has_eq_true.mpr ⟨row, aside.1, rfl⟩)
      · cases origin with
        | old => exact .inl (oldCell is)
        | new index => exact .inr ⟨lane, index, content, is, rfl⟩
    have fresh {lane : Lane} {index : Nat} {row : LiveJob} (is : cells lane = some (.new index, row)) :
        start.jobs.has (eachNaming index).1 = false := by
      obtain ⟨_, eachIs, _⟩ := sight_across (alike lane) is
      exact (eachShows.new _ _ _ eachIs).2.2
    rcases origins id live with first | ⟨lane, index, row, is, rfl⟩
    · rcases origins other otherLive with second | ⟨lane, index, row, is, rfl⟩
      · rw [fixes _ first, fixes _ second] at same
        exact same
      · rw [fixes _ first, new _ _ _ is] at same
        rw [same, fresh is] at first
        cases first
    · rcases origins other otherLive with second | ⟨otherLane, otherIndex, otherRow, otherIs, rfl⟩
      · rw [fixes _ second, new _ _ _ is] at same
        rw [← same, fresh is] at second
        cases second
      · rw [new _ _ _ is, new _ _ _ otherIs] at same
        obtain ⟨_, eachIs, _⟩ := sight_across (alike lane) is
        obtain ⟨_, eachOtherIs, _⟩ := sight_across (alike otherLane) otherIs
        rw [eachShows.apart _ _ _ _ _ _ eachIs eachOtherIs same]
  · intro row mem
    rcases (shows.rows row).mp mem with aside | ⟨lane, origin, content, is, rfl⟩
    · refine ⟨row, (eachShows.rows row).mpr (.inl aside), ?_⟩
      rw [old aside.1]
      rfl
    · obtain ⟨found, eachIs, scan⟩ := sight_across (alike lane) is
      exact ⟨_, eachShows.live eachIs, scanJob_placed scan (named is rfl scan)⟩
  · intro row mem
    rcases (eachShows.rows row).mp mem with aside | ⟨lane, origin, content, eachIs, rfl⟩
    · refine ⟨row, (shows.rows row).mpr (.inl aside), ?_⟩
      rw [old aside.1]
      rfl
    · obtain ⟨found, is, scan⟩ := sight_across (alike lane).symm eachIs
      exact ⟨_, shows.live is, scanJob_placed scan.symm (named is rfl scan.symm)⟩
  · intro found other kept same
    cases found with
    | finished =>
      cases other with
      | finished =>
        cases same
        exact ⟨rfl, fun _ => rfl, nofun⟩
      | live => cases same
    | live =>
      cases other with
      | finished => cases same
      | live =>
        obtain ⟨lane, held, is, sameID⟩ := kept
        obtain ⟨rfl, scan, rfl⟩ := Sighting.live.inj same
        refine ⟨rfl, fun finished => absurd rfl finished, fun _ => ?_⟩
        exact scanJob_placed scan.symm (named is sameID scan.symm)

end

/-! Folded inputs find what the input they are folded onto left. -/

theorem mem_iff_of_sameStates {left right : List JobState} (leftNodup : left.Nodup)
    (same : sameStates left right = true) (state : JobState) : state ∈ left ↔ state ∈ right := by
  rw [sameStates, Bool.and_eq_true, decide_eq_true_eq, all_eq_true] at same
  obtain ⟨length, subset⟩ := same
  have within : left ⊆ right := fun state mem => of_decide_eq_true (subset state mem)
  exact ((subperm_of_subset leftNodup within).perm_of_length_le length.ge).mem_iff

variable {start : Store} {x : W} {sent : Nat → Sent} {cell : Cell}

theorem finishedFor_congr {job other : JobInsert} (kind : other.kind = job.kind) (key : other.uniqueKey = job.uniqueKey)
    (states : ∀ state, state ∈ other.uniqueFinished ↔ state ∈ job.uniqueFinished) :
    finishedFor start other = finishedFor start job := by
  unfold finishedFor W.finishedDuplicate W.finishedHolders
  simp only [kind, key, states]

def again : Found → Found
  | .live origin row _ => .live origin row true
  | .finished row => .finished row

theorem folded_again {onto index : Nat}
    (same : finishedFor start (sent index).job = finishedFor start (sent onto).job)
    (quiet : sight (act x start sent index (act x start sent onto cell)) = sight (act x start sent onto cell)) :
    (answer x start sent index (act x start sent onto cell)).sight = (again (answer x start sent onto cell)).sight := by
  have looks {origin : Origin} {row : LiveJob}
      (quiet : sight (act x start sent index (some (origin, row))) = sight (some (origin, row))) :
      (answer x start sent index (some (origin, row))).sight = .live origin (scanJob row) true := by
    have scan := (Prod.mk.inj (Option.some.inj quiet)).2
    exact congrArg (Sighting.live origin · true) scan
  cases cell with
  | some => exact looks quiet
  | none =>
    cases finished : finishedFor start (sent onto).job with
    | some => simp only [act, answer, finished, same, again]
    | none =>
      simp only [act, answer, finished, again] at quiet ⊢
      exact looks quiet

theorem act_eq_some {index : Nat} {origin : Origin} {row : LiveJob} :
    act x start sent index cell = some (origin, row) ↔ ∃ duplicate, answer x start sent index cell = .live origin row duplicate := by
  cases cell with
  | some => simp [act, answer]
  | none => cases finished : finishedFor start (sent index).job <;> simp [act, answer, finished]

theorem again_sight {found other : Found} (same : found.sight = other.sight) : (again found).sight = (again other).sight := by
  cases found with
  | finished =>
    cases other with
    | finished =>
      cases same
      rfl
    | live => cases same
  | live origin =>
    cases other with
    | finished => cases same
    | live =>
      obtain ⟨rfl, scan, rfl⟩ := Sighting.live.inj same
      exact congrArg (Sighting.live origin · true) scan

section
variable {inputs : List Input} {first second : Nat}

theorem laneOf_eq_iff {one other : Input} (oneAt : inputs[first]? = some one) (otherAt : inputs[second]? = some other)
    (apart : first ≠ second) :
    laneOf (sentOf inputs) first = laneOf (sentOf inputs) second ↔ SharesKey inputs first second := by
  unfold laneOf SharesKey
  rw [sentOf_eq oneAt, sentOf_eq otherAt, oneAt, otherAt]
  constructor
  · intro same
    refine ⟨one, other, rfl, rfl, ?_⟩
    split at same
    · split at same
      · exact absurd (Lane.single.inj same) apart
      · cases same
    · split at same
      · cases same
      · next keyed => exact ⟨Lane.keyed.inj same, keyed⟩
  · rintro ⟨_, _, ⟨⟩, ⟨⟩, same, keyed⟩
    have otherKeyed : (jobOf other.params).uniqueKey ≠ "" := keyed
    have oneKeyed : (jobOf one.params).uniqueKey ≠ "" := (congrArg UniqueRef.key same).trans_ne keyed
    rw [if_neg oneKeyed, if_neg otherKeyed]
    exact congrArg Lane.keyed same

theorem laneOf_of_sharesKey (shares : SharesKey inputs first second) :
    laneOf (sentOf inputs) first = laneOf (sentOf inputs) second := by
  by_cases same : first = second
  · rw [same]
  · obtain ⟨one, other, oneAt, otherAt, both⟩ := shares
    exact (laneOf_eq_iff oneAt otherAt same).mpr ⟨one, other, oneAt, otherAt, both⟩

end

theorem schedule_lanes (inputs : List Input) (order : Nat → Bool) :
    ((Plan.of inputs).schedule order).Pairwise fun first second =>
      laneOf (sentOf inputs) first = laneOf (sentOf inputs) second → first < second := by
  refine ((schedule_ordered inputs order).and (schedule_nodup inputs order)).imp_of_mem
    fun {first second} firstMem secondMem ordered same => ?_
  obtain ⟨firstWithin, sent⟩ := (mem_schedule order).mp firstMem
  have firstAt := getElem?_eq_getElem firstWithin
  have secondAt := getElem?_eq_getElem ((mem_schedule order).mp secondMem).1
  rcases Nat.lt_or_gt_of_ne ordered.2 with less | more
  · exact less
  · -- the later of the two in input order is not folded, so it is in a later round
    have shares := (laneOf_eq_iff secondAt firstAt (Ne.symm ordered.2)).mp same.symm
    have climbs := keyRound_lt more shares sent
    rcases ordered.1 with less | ⟨same, _⟩
    · omega
    · omega

/-- The job of an input's key, with the inputs before it inserted in turn. -/
def jobBefore (x : W) (start : Store) (inputs : List Input) (index : Nat) : Cell :=
  Lanes.cellBefore (laneOf (sentOf inputs)) (act x start (sentOf inputs)) (firstCells start) index

/-- The input does not replace the job it finds, or the job runs or looks as the
input would leave it. -/
def QuietAt (x : W) (start : Store) (inputs : List Input) (index : Nat) : Prop :=
  ∀ input origin row, inputs[index]? = some input → input.onConflict = .replace →
    jobBefore x start inputs index = some (origin, row) → row.state ≠ .running →
      scanJob (x.replaced (jobOf input.params) row) = scanJob row

/-- No input that is folded onto the one before it would change what it finds. -/
def FoldsQuiet (x : W) (start : Store) (inputs : List Input) : Prop :=
  ∀ index onto, foldsOnto inputs index = some onto → QuietAt x start inputs index

section
variable {inputs : List Input} {x : W} {start : Store} {index onto : Nat}

theorem folded_finds (x : W) (start : Store) (distinct : ∀ input ∈ inputs, input.params.uniqueFinished.Nodup)
    (folded : foldsOnto inputs index = some onto) :
    jobBefore x start inputs index = act x start (sentOf inputs) onto (jobBefore x start inputs onto) ∧
      finishedFor start (sentOf inputs index).job = finishedFor start (sentOf inputs onto).job := by
  obtain ⟨less, shares, between, one, other, oneAt, otherAt, states⟩ := foldsOnto_spec folded
  constructor
  · refine Lanes.cellBefore_eq (firstCells start) less (laneOf_of_sharesKey shares) fun middle after earlier lanes => ?_
    have middleAt := getElem?_eq_getElem (earlier.trans (List.getElem?_eq_some_iff.mp otherAt).1)
    exact between middle after earlier ((laneOf_eq_iff middleAt otherAt (Nat.ne_of_lt earlier)).mp lanes)
  · obtain ⟨_, _, oneIs, otherIs, refs, _⟩ := shares
    cases oneIs.symm.trans oneAt
    cases otherIs.symm.trans otherAt
    rw [sentOf_eq oneAt, sentOf_eq otherAt]
    refine finishedFor_congr (congrArg UniqueRef.kind refs).symm (congrArg UniqueRef.key refs).symm fun state => ?_
    exact (mem_iff_of_sameStates (distinct one (mem_of_getElem? oneAt)) states state).symm

theorem quietAt_iff (distinct : ∀ input ∈ inputs, input.params.uniqueFinished.Nodup) (folded : foldsOnto inputs index = some onto) :
    QuietAt x start inputs index ↔
      sight (act x start (sentOf inputs) index (jobBefore x start inputs index)) = sight (jobBefore x start inputs index) := by
  obtain ⟨left, same⟩ := folded_finds x start distinct folded
  obtain ⟨_, _, _, _, input, _, given, _⟩ := foldsOnto_spec folded
  cases found : jobBefore x start inputs index with
  | none =>
    refine iff_of_true (fun _ _ _ _ _ is => by cases found.symm.trans is) (congrArg sight ?_)
    rw [left] at found
    rw [act, same]
    cases finished : finishedFor start (sentOf inputs onto).job with
    | some => rfl
    | none =>
      cases pre : jobBefore x start inputs onto with
      | some =>
        rw [pre] at found
        cases found
      | none =>
        rw [pre, act, finished] at found
        cases found
  | some entry =>
    obtain ⟨origin, row⟩ := entry
    have looks : sight (act x start (sentOf inputs) index (some (origin, row))) = sight (some (origin, row)) ↔
        scanJob (revised x (sentOf inputs) index row) = scanJob row := by
      simp only [act, sight, Option.map_some, Option.some.injEq, Prod.mk.injEq, true_and]
    rw [looks, revised, sentOf_eq given]
    constructor
    · intro quiet
      split
      · next replaces => exact quiet input origin row given replaces.1 found replaces.2
      · rfl
    · intro scan other first content otherAt replaces is waits
      cases given.symm.trans otherAt
      cases found.symm.trans is
      rwa [if_pos ⟨replaces, waits⟩] at scan

end

section
variable {Args : Type} {client : Config Args} {order : Nat → Bool} {inTx : Bool} {engine : Engine} {now : Int}
  {start after : Store} {params : List (InsertParams Args)} {inputs : List Input}
  {results : List (Option InsertResult)}

/-- What an input finds with all of them inserted in turn. -/
def foundAt (x : W) (start : Store) (inputs : List Input) (index : Nat) : Found :=
  answer x start (sentOf inputs) index (jobBefore x start inputs index)

def lastCells (x : W) (start : Store) (inputs : List Input) : Lane → Cell :=
  Lanes.run (laneOf (sentOf inputs)) (act x start (sentOf inputs)) (List.range inputs.length) (firstCells start)

/-- The cells once the inputs that an insert sends are inserted. -/
def sentCells (x : W) (start : Store) (inputs : List Input) (order : Nat → Bool) : Lane → Cell :=
  Lanes.run (laneOf (sentOf inputs)) (act x start (sentOf inputs)) ((Plan.of inputs).schedule order) (firstCells start)

def sentFound (x : W) (start : Store) (inputs : List Input) (order : Nat → Bool) (index : Nat) : Found :=
  answer x start (sentOf inputs) index (Lanes.cellAt (laneOf (sentOf inputs)) (act x start (sentOf inputs))
    ((Plan.of inputs).schedule order) (firstCells start) index)

theorem schedule_members (inputs : List Input) (order : Nat → Bool) (index : Nat) :
    index ∈ (Plan.of inputs).schedule order ↔ index < inputs.length ∧ (foldsOnto inputs index).isNone = true := by
  rw [mem_schedule, Option.isNone_iff_eq_none]

theorem many_shows (built : client.buildAll params = .ok inputs) (unbatched : ∀ input ∈ inputs, input.params.batchID = 0)
    (runs : Runs (fun _ _ => False) (AnswersAt engine now) start (client.insertMany order params inTx) (.ok results) after) :
    ∃ done naming, Client.Shows start (sentOf inputs) done naming (sentCells ⟨engine, now⟩ start inputs order) after ∧
      results.length = inputs.length ∧
      (∀ index < inputs.length, foldsOnto inputs index = none →
        results[index]? = some (some ((sentFound ⟨engine, now⟩ start inputs order index).result naming))) ∧
      ∀ index onto, foldsOnto inputs index = some onto →
        results[index]? = some (foldedResult (results.getD onto none)) := by
  obtain ⟨given, replies, accepted, listed, executed, rfl⟩ := runs_insertMany runs
  cases accepted.symm.trans built
  have distinctSchedule := schedule_nodup inputs order
  have nodup : ([] ++ replies.flatMap fun reply : Reply => reply.1.2).Nodup := by
    rwa [nil_append, schedule_eq listed]
  have acts (reply : Reply) (mem : reply ∈ replies) (index : Nat) (among : index ∈ reply.1.2) :
      ∃ input, inputs[index]? = some input ∧ input.onConflict = reply.1.1 := by
    have statement := listed ▸ mem_map_of_mem mem
    obtain ⟨number, same⟩ := mem_statements statement
    rw [same] at among
    exact Option.map_eq_some_iff.mp (mem_entry.mp among).2.2
  obtain ⟨naming, _, shows, rows⟩ :=
    (Client.Shows.first start (sentOf inputs) fun _ => (0, 0)).executed executed nodup unbatched acts
  rw [schedule_eq listed] at shows
  rw [schedule_eq listed, resultsOf, Lanes.answers_nodup distinctSchedule, map_map] at rows
  have answered : Executed (fun _ _ => False) (StoreAnswers engine fun _ _ => True) inputs inTx start replies after :=
    executed.mono fun _ _ _ _ _ is => ⟨trivial, now, is⟩
  have aligned := insert_aligned listed answered
  rw [rows, forall₂_map_right_iff, forall₂_same] at aligned
  refine ⟨_, naming, shows, by simp [length_fillFolded], fun index within sent => ?_, fun index onto folded => ?_⟩
  · rw [fillFolded_sent within sent]
    exact aligned index ((mem_schedule order).mpr ⟨within, sent⟩)
  · obtain ⟨_, _, _, _, _, _, given, _⟩ := foldsOnto_spec folded
    have within := (List.getElem?_eq_some_iff.mp given).1
    exact fillFolded_folded folded within (by simpa using within)

section
variable {x : W}

theorem act_sight (op : Nat) (cell other : Cell) (same : sight cell = sight other) :
    sight (act x start (sentOf inputs) op cell) = sight (act x start (sentOf inputs) op other) :=
  (sight_congr same).1

variable (distinct : ∀ input ∈ inputs, input.params.uniqueFinished.Nodup)
include distinct

private theorem folded_sight {index : Nat} (dropped : (foldsOnto inputs index).isNone = false)
    (quiet : ∀ onto, foldsOnto inputs index = some onto → QuietAt x start inputs index) :
    sight (act x start (sentOf inputs) index (jobBefore x start inputs index)) = sight (jobBefore x start inputs index) := by
  obtain ⟨onto, folded⟩ := Option.isSome_iff_exists.mp (Option.isNone_eq_false_iff.mp dropped)
  exact (quietAt_iff distinct folded).mp (quiet onto folded)

theorem sentCells_sight (quiet : FoldsQuiet x start inputs) (lane : Lane) :
    sight (sentCells x start inputs order lane) = sight (lastCells x start inputs lane) := by
  exact Lanes.run_schedule act_sight (schedule_lanes inputs order) (schedule_members inputs order)
    (fun index _ dropped => folded_sight distinct dropped (quiet index)) lane

theorem result_sight {naming : Naming} (sent : ∀ index < inputs.length, foldsOnto inputs index = none →
      results[index]? = some (some ((sentFound x start inputs order index).result naming)))
    (copied : ∀ index onto, foldsOnto inputs index = some onto →
      results[index]? = some (foldedResult (results.getD onto none)))
    {index : Nat} (within : index < inputs.length)
    (quiet : ∀ other onto, other ≤ index → foldsOnto inputs other = some onto → QuietAt x start inputs other) :
    ∃ found : Found, results[index]? = some (some (found.result naming)) ∧ found.sight = (foundAt x start inputs index).sight := by
  induction index using Nat.strong_induction_on with
  | _ index ih =>
    cases folded : foldsOnto inputs index with
    | none =>
      refine ⟨_, sent index within folded, (sight_congr ?_).2⟩
      exact Lanes.cellAt_schedule act_sight (schedule_lanes inputs order) (schedule_members inputs order)
        (schedule_nodup inputs order) ((mem_schedule order).mpr ⟨within, folded⟩) fun other less dropped =>
          folded_sight distinct dropped fun onto => quiet other onto less.le
    | some onto =>
      have less := (foldsOnto_spec folded).1
      obtain ⟨found, is, same⟩ := ih onto less (less.trans within) fun other first below =>
        quiet other first (below.trans less.le)
      refine ⟨again found, ?_, ?_⟩
      · rw [copied index onto folded, getD_eq_getElem?_getD, is]
        cases found <;> rfl
      · have unchanged := (quietAt_iff distinct folded).mp (quiet index onto le_rfl folded)
        obtain ⟨left, finished⟩ := folded_finds x start distinct folded
        rw [left] at unchanged
        rw [foundAt, left, folded_again finished unchanged]
        exact again_sight same

end

theorem each_shows (built : client.buildAll params = .ok inputs) (unbatched : ∀ input ∈ inputs, input.params.batchID = 0)
    (runs : Runs (fun _ _ => False) (AnswersAt engine now) start (client.insertEach order inTx params) (.ok results) after) :
    ∃ done naming, Client.Shows start (sentOf inputs) done naming (lastCells ⟨engine, now⟩ start inputs) after ∧
      results = (List.range inputs.length).map fun index =>
        some ((foundAt ⟨engine, now⟩ start inputs index).result naming) := by
  have each := buildAll_ok built
  have first : Client.Shows start (sentOf inputs) (List.range 0) (fun _ => (0, 0)) (firstCells start) start :=
    Client.Shows.first start (sentOf inputs) _
  obtain ⟨naming, _, shows, is⟩ := first.each each unbatched runs
  rw [each.length_eq, ← range_eq_range'] at shows is
  refine ⟨_, naming, shows, ?_⟩
  rw [is, resultsOf, Lanes.answers_range, map_map, map_map]
  rfl

theorem cellRun_keeps (x : W) (start : Store) (sent : Nat → Sent) (ops : List Nat) (origin : Origin) (row : LiveJob) :
    ∃ content, Lanes.cellRun (act x start sent) ops (some (origin, row)) = some (origin, content) ∧ content.id = row.id := by
  induction ops generalizing row with
  | nil => exact ⟨row, rfl, rfl⟩
  | cons op ops ih =>
    obtain ⟨content, is, same⟩ := ih (revised x sent op row)
    refine ⟨content, is, same.trans ?_⟩
    unfold revised
    split <;> rfl

theorem found_kept (x : W) (start : Store) (inputs : List Input) {index : Nat} (within : index < inputs.length) :
    InCells (lastCells x start inputs) (foundAt x start inputs index) := by
  have split : List.range inputs.length = List.range index ++ index :: List.range' (index + 1) (inputs.length - index - 1) := by
    have count : inputs.length = index + (1 + (inputs.length - index - 1)) := by omega
    conv_lhs => rw [count, range_eq_range', ← List.range'_append_1, ← range_eq_range', Nat.zero_add,
      Nat.add_comm 1, List.range'_succ]
  have last : lastCells x start inputs (laneOf (sentOf inputs) index) = Lanes.cellRun (act x start (sentOf inputs))
        (Lanes.own (laneOf (sentOf inputs)) (laneOf (sentOf inputs) index) (List.range' (index + 1) (inputs.length - index - 1)))
        (act x start (sentOf inputs) index (jobBefore x start inputs index)) := by
    rw [lastCells, split, Lanes.run_append, Lanes.run, foldl_cons, ← Lanes.run, Lanes.run_apply, Lanes.step,
      Function.update_self, Lanes.run_apply, jobBefore, Lanes.cellBefore]
  cases is : foundAt x start inputs index with
  | finished => trivial
  | live origin row duplicate =>
    rw [act_eq_some.mpr ⟨duplicate, is⟩] at last
    obtain ⟨content, held, same⟩ := cellRun_keeps x start (sentOf inputs) _ origin row
    exact ⟨_, content, last.trans held, same⟩

end

section
variable {Args : Type} {client : Config Args} {order eachOrder : Nat → Bool} {inTx : Bool} {engine : Engine} {now : Int}
  {start after afterEach : Store} {args : List Args} {inputs : List Input}
  {results eachResults : List (Option InsertResult)}

theorem built_inputs (counts : ∀ given input, client.encode given = .ok input →
      ∃ states, UniqueOpts.finished states = .ok input.params.uniqueFinished)
    (built : client.buildAll (args.map fun given => { args := given }) = .ok inputs) :
    ∀ input ∈ inputs, input.params.batchID = 0 ∧ input.params.uniqueFinished.Nodup := by
  have pairs := forall₂_map_left_iff.mp (buildAll_ok built)
  clear built
  induction pairs with
  | nil => exact forall_mem_nil _
  | @cons given input _ _ made _ ih =>
    refine forall_mem_cons.mpr ⟨?_, ih⟩
    rw [Config.buildInsertParams] at made
    cases encoded : client.encode given with
    | error =>
      rw [encoded] at made
      cases made
    | ok accepted =>
      rw [encoded] at made
      cases made
      obtain ⟨states, is⟩ := counts given accepted encoded
      exact ⟨rfl, UniqueOpts.nodup_finished is⟩

theorem inCells_of_sight {cells eachCells : Lane → Cell} (alike : ∀ lane, sight (cells lane) = sight (eachCells lane))
    {found other : Found} (same : found.sight = other.sight) (kept : InCells eachCells other) : InCells cells found := by
  cases found with
  | finished => trivial
  | live origin row =>
    cases other with
    | finished => cases same
    | live =>
      obtain ⟨rfl, scan, rfl⟩ := Sighting.live.inj same
      obtain ⟨lane, content, is, sameID⟩ := kept
      obtain ⟨held, heldIs, heldScan⟩ := sight_across (alike lane).symm is
      refine ⟨lane, held, heldIs, ?_⟩
      have ids := congrArg (fun job : JobRow => job.id) heldScan
      exact ids.trans (sameID.trans (congrArg (fun job : JobRow => job.id) scan).symm)

theorem scanJob_unplaced {naming eachNaming : Naming} {origin : Origin} {row content : LiveJob} (id : row.id = content.id)
    (seq : row.seq = content.seq) {newID : JobID} {newSeq : Nat}
    (same : scanJob (placed eachNaming origin content) =
      { scanJob (placed naming origin row) with id := newID, seq := newSeq }) : scanJob content = scanJob row := by
  have named := congrArg (fun job : JobRow => { job with id := row.id, seq := row.seq }) same
  have contentIs : { scanJob (placed eachNaming origin content) with id := row.id, seq := row.seq } = scanJob content := by
    rw [id, seq]
    cases origin <;> rfl
  have rowIs : { scanJob (placed naming origin row) with id := row.id, seq := row.seq } = scanJob row := by
    cases origin <;> rfl
  exact contentIs.symm.trans (named.trans rowIs)

/-- Alone with the store at one time, and without an error, an insert of many
jobs returns and leaves what inserts of each of them in turn do, just when no
input folded onto the one before it would change the job it finds. -/
theorem insertMany_as_each (counts : ∀ given input, client.encode given = .ok input →
      ∃ states, UniqueOpts.finished states = .ok input.params.uniqueFinished)
    (built : client.buildAll (args.map fun given => { args := given }) = .ok inputs)
    (many : (client.insertMany order (args.map fun given => { args := given }) inTx).exec (atTime engine now) start =
      (.ok results, after))
    (each : (client.insertEach eachOrder inTx (args.map fun given => { args := given })).exec (atTime engine now) start =
      (.ok eachResults, afterEach)) :
    (∃ rename, SameJobs rename start after afterEach ∧ results.length = args.length ∧
      List.Forall₂ (fun one other => ∃ result found, one = some result ∧ other = some found ∧
        SameResult rename result found) results eachResults) ↔ FoldsQuiet ⟨engine, now⟩ start inputs := by
  have made := built_inputs counts built
  have unbatched (input : Input) (member : input ∈ inputs) := (made input member).1
  have distinct (input : Input) (member : input ∈ inputs) := (made input member).2
  obtain ⟨_, naming, shows, length, sent, copied⟩ := many_shows built unbatched (runs_atTime many)
  obtain ⟨_, eachNaming, eachShows, rfl⟩ := each_shows built unbatched (runs_atTime each)
  constructor
  · rintro ⟨rename, _, _, same⟩ index onto folded
    -- the first folded input that changes its job would have another result
    induction index using Nat.strong_induction_on generalizing onto with
    | _ index ih =>
      intro input origin row given replaces is waits
      have within := (List.getElem?_eq_some_iff.mp given).1
      have less := (foldsOnto_spec folded).1
      obtain ⟨found, foundIs, looks⟩ := result_sight distinct sent copied (less.trans within)
        fun other first below otherFolded => ih other (below.trans_lt less) first otherFolded
      have inserted := (folded_finds ⟨engine, now⟩ start distinct folded).1.symm.trans is
      obtain ⟨duplicate, ontoFinds⟩ := act_eq_some.mp inserted
      obtain ⟨earlier, rfl, scan⟩ : ∃ earlier, found = .live origin earlier duplicate ∧ scanJob earlier = scanJob row := by
        rw [foundAt, ontoFinds] at looks
        cases found with
        | finished => cases looks
        | live first earlier =>
          obtain ⟨rfl, scan, rfl⟩ := Sighting.live.inj looks
          exact ⟨earlier, rfl, scan⟩
      have finds : foundAt ⟨engine, now⟩ start inputs index =
          .live origin (W.replaced ⟨engine, now⟩ (jobOf input.params) row) true := by
        rw [foundAt, is, answer, revised, sentOf_eq given, if_pos ⟨replaces, waits⟩]
      have copy : results[index]? = some (some ((Found.live origin earlier true).result naming)) := by
        rw [copied index onto folded, getD_eq_getElem?_getD, foundIs]
        rfl
      have pair := forall₂_iff_get.mp same
      obtain ⟨below, copyIs⟩ := List.getElem?_eq_some_iff.mp copy
      obtain ⟨result, other, resultIs, otherIs, corresponds⟩ := pair.2 index below (pair.1 ▸ below)
      simp only [get_eq_getElem, copyIs, Option.some.injEq] at resultIs
      simp only [get_eq_getElem, getElem_map, getElem_range, finds, Option.some.injEq] at otherIs
      subst resultIs otherIs
      let changed := W.replaced ⟨engine, now⟩ (jobOf input.params) row
      have ids : earlier.id = changed.id := congrArg (fun job : JobRow => job.id) scan
      have seqs := congrArg (fun job : JobRow => job.seq) scan
      exact (scanJob_unplaced ids seqs (corresponds.live rfl)).trans scan
  · intro quiet
    obtain ⟨rename, jobs, same⟩ := shows_same shows eachShows (sentCells_sight distinct quiet)
    refine ⟨rename, jobs, ?_, ?_⟩
    · have lengths := (buildAll_ok built).length_eq
      rw [length_map] at lengths
      rw [length, lengths]
    · refine forall₂_iff_get.mpr ⟨by simp [length], fun index below eachBelow => ?_⟩
      have within := length ▸ below
      obtain ⟨found, is, looks⟩ := result_sight distinct sent copied within fun other onto _ folded => quiet other onto folded
      have alike : ∀ lane, sight (sentCells ⟨engine, now⟩ start inputs order lane) = _ :=
        sentCells_sight distinct quiet
      refine ⟨found.result naming, _, (List.getElem?_eq_some_iff.mp is).2, getElem_map _, ?_⟩
      rw [getElem_range]
      exact same _ _ (inCells_of_sight alike looks (found_kept _ _ _ within)) looks

/-- A digest of a number, one at a time. The third counts completed digests,
and from it on they replace one that waits. -/
def digest (number : Nat) : Input where
  params :=
    { kind := "digest", queue := "default", priority := 2, maxAttempts := 3, args := toString number
      uniqueKey := "*", uniqueFinished := if number = 3 then [.completed] else [] }
  onConflict := if 3 ≤ number then .replace else .skip

def digests : Config Nat := ⟨fun number => .ok (digest number)⟩

def manyDigests (numbers : List Nat) : Except Failure (List (Option InsertResult)) × Store :=
  (digests.insertMany (fun _ => true) (numbers.map fun number => { args := number }) false).exec (atTime .counting 10) {}

def eachDigest (numbers : List Nat) : Except Failure (List (Option InsertResult)) × Store :=
  (digests.insertEach (fun _ => true) false (numbers.map fun number => { args := number })).exec (atTime .counting 10) {}

theorem digests_finished (given : Nat) (input : Input) (encoded : digests.encode given = .ok input) :
    ∃ states, UniqueOpts.finished states = .ok input.params.uniqueFinished := by
  cases encoded
  by_cases third : given = 3
  · exact ⟨[.completed], by rw [digest, if_pos third]; rfl⟩
  · exact ⟨[], by rw [digest, if_neg third]; rfl⟩

theorem digests_quiet (x : W) : FoldsQuiet x {} [digest 1, digest 2, digest 3] := by
  intro index _ folded input _ _ given replaces
  match index with
  | 0 | 2 | _ + 3 => cases folded
  | 1 =>
    cases given
    cases replaces

/-- The second of three is folded onto the first, and the third replaces it. -/
theorem insertMany_as_each_digests : (manyDigests [1, 2, 3]).2.jobs.rows.map (fun row => row.args) = ["3"] ∧
      ∃ rename, SameJobs rename {} (manyDigests [1, 2, 3]).2 (eachDigest [1, 2, 3]).2 := by
  obtain ⟨results, many⟩ : ∃ results, (manyDigests [1, 2, 3]).1 = .ok results := ⟨_, rfl⟩
  obtain ⟨eachResults, each⟩ : ∃ results, (eachDigest [1, 2, 3]).1 = .ok results := ⟨_, rfl⟩
  obtain ⟨rename, same, _⟩ :=
    (insertMany_as_each digests_finished rfl (Prod.ext many rfl) (Prod.ext each rfl)).mpr (digests_quiet _)
  exact ⟨by decide +kernel, rename, same⟩

/-- The second of two digests is folded onto the first, so it does not replace
it as it does inserted after it. -/
theorem folded_replace_dropped :
    (∃ results eachResults, (manyDigests [1, 4]).1 = .ok results ∧ (eachDigest [1, 4]).1 = .ok eachResults) ∧
      (manyDigests [1, 4]).2.jobs.rows.map (fun row => row.args) = ["1"] ∧
      (eachDigest [1, 4]).2.jobs.rows.map (fun row => row.args) = ["4"] ∧
      ∀ rename, ¬SameJobs rename {} (manyDigests [1, 4]).2 (eachDigest [1, 4]).2 := by
  have many : (manyDigests [1, 4]).2.jobs.rows.map (fun row => row.args) = ["1"] := by decide +kernel
  have each : (eachDigest [1, 4]).2.jobs.rows.map (fun row => row.args) = ["4"] := by decide +kernel
  refine ⟨⟨_, _, rfl, rfl⟩, many, each, fun rename same => ?_⟩
  have args : "1" ∈ (manyDigests [1, 4]).2.jobs.rows.map fun row => row.args := by
    rw [many]
    exact mem_singleton_self _
  obtain ⟨row, member, first⟩ := mem_map.mp args
  obtain ⟨found, foundMember, scan⟩ := same.forward row member
  have kept : found.args = row.args := congrArg (fun job : JobRow => job.args) scan
  have replaced := mem_map_of_mem (f := fun row : LiveJob => row.args) foundMember
  rw [each, kept, first] at replaced
  exact absurd replaced (by decide)

end

end Hopper.Guarantees
