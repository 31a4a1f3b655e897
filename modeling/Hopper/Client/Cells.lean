import Hopper.Client.Insert
import Hopper.Kernel.Lanes

/-! What inserts at one time come to, key by key. Each unique key is a cell with
the live job that holds it, an input without a key is a cell of its own, and an
input reads and changes only its cell, whatever IDs and sequence numbers the
store draws for new jobs. -/

namespace Hopper.Client

open List Option Kernel Driver Sqlite

inductive Lane where
  | keyed (ref : UniqueRef)
  | single (index : Nat)
deriving DecidableEq

/-- Whether a job was there before the inserts, or else which input it is of. -/
inductive Origin where
  | old
  | new (index : Nat)

abbrev Cell := Option (Origin × LiveJob)

inductive Found where
  | live (origin : Origin) (row : LiveJob) (duplicate : Bool)
  | finished (row : HistoryJob)

abbrev Naming := Nat → JobID × Nat

/-- The row of a job, one of an input under the input's ID and number. -/
def placed (naming : Naming) : Origin → LiveJob → LiveJob
  | .old, row => row
  | .new index, row => { row with id := (naming index).1, seq := (naming index).2 }

def Found.Within (done : List Nat) : Found → Prop
  | .live (.new index) _ _ => index ∈ done
  | _ => True

def Found.result (naming : Naming) : Found → JobInsertResult
  | .live origin row duplicate => ⟨scanJob (placed naming origin row), duplicate⟩
  | .finished row => ⟨scanHistoryJob row, true⟩

structure Sent where
  job : JobInsert
  onConflict : ConflictAction

/-- The finished job that an insert resolves to where no live job holds its key. -/
def finishedFor (start : Store) (job : JobInsert) : Option HistoryJob :=
  if job.uniqueKey = "" then none else W.finishedDuplicate start job

section
variable (x : W) (start : Store) (sent : Nat → Sent)

def laneOf (index : Nat) : Lane :=
  if (sent index).job.uniqueKey = "" then .single index
  else .keyed ⟨(sent index).job.kind, (sent index).job.uniqueKey⟩

/-- A held key's job once an input of the key is inserted. -/
def revised (index : Nat) (row : LiveJob) : LiveJob :=
  if (sent index).onConflict = .replace ∧ row.state ≠ .running then x.replaced (sent index).job row else row

def act (index : Nat) : Cell → Cell
  | some (origin, row) => some (origin, revised x sent index row)
  | none =>
    match finishedFor start (sent index).job with
    | some _ => none
    | none => some (.new index, x.newRow (sent index).job 0)

def answer (index : Nat) : Cell → Found
  | some (origin, row) => .live origin (revised x sent index row) true
  | none =>
    match finishedFor start (sent index).job with
    | some found => .finished found
    | none => .live (.new index) (x.newRow (sent index).job 0) false

def firstCells : Lane → Cell
  | .keyed ref => if ref.key = "" then none else (start.holder? ref.kind ref.key).map fun row => (.old, row)
  | .single _ => none

def Aside (row : LiveJob) : Prop :=
  row ∈ start.jobs ∧ ∀ lane, firstCells start lane ≠ some (.old, row)

def OfLane (row : LiveJob) : Lane → Prop
  | .keyed ref => row.kind = ref.kind ∧ row.uniqueKey = some ref.key
  | .single _ => row.uniqueKey = none

/-- A store shows the cells: its jobs are theirs, and those that were in none,
once some inputs are inserted. -/
structure Shows (done : List Nat) (naming : Naming) (cells : Lane → Cell) (store : Store) : Prop where
  holders : ∀ ref : UniqueRef, ref.key ≠ "" →
    store.holder? ref.kind ref.key = (cells (.keyed ref)).map fun entry => placed naming entry.1 entry.2
  rows : ∀ row, row ∈ store.jobs ↔
    Aside start row ∨ ∃ lane origin content, cells lane = some (origin, content) ∧ row = placed naming origin content
  history : store.history = start.history
  kept : ∀ id, start.jobs.has id = true → store.jobs.has id = true
  lanes : ∀ lane origin row, cells lane = some (origin, row) → OfLane row lane
  old : ∀ lane row, cells lane = some (.old, row) →
    ∃ first, firstCells start lane = some (.old, first) ∧ row.id = first.id
  new : ∀ lane index row, cells lane = some (.new index, row) →
    index ∈ done ∧ lane = laneOf sent index ∧ start.jobs.has (naming index).1 = false
  apart : ∀ lane other index second row content, cells lane = some (.new index, row) →
    cells other = some (.new second, content) → (naming index).1 = (naming second).1 → index = second

end

/-- What is to be seen of a cell: its job, as a reader gets it. -/
def sight (cell : Cell) : Option (Origin × JobRow) :=
  cell.map fun entry => (entry.1, scanJob entry.2)

inductive Sighting where
  | live (origin : Origin) (job : JobRow) (duplicate : Bool)
  | finished (row : HistoryJob)

def Found.sight : Found → Sighting
  | .live origin row duplicate => .live origin (scanJob row) duplicate
  | .finished row => .finished row

variable {found : Found}

theorem Found.result_congr {done : List Nat} {naming later : Naming} (same : ∀ index ∈ done, later index = naming index)
    (within : found.Within done) : found.result later = found.result naming := by
  cases found with
  | finished => rfl
  | live origin =>
    cases origin with
    | old => rfl
    | new index => rw [result, result, placed, placed, same index within]

theorem Found.Within.mono {done later : List Nat} (more : done ⊆ later) (within : found.Within done) :
    found.Within later := by
  cases found with
  | finished => trivial
  | live origin =>
    cases origin with
    | old => trivial
    | new => exact more within

theorem placed_replaced (x : W) (job : JobInsert) (naming : Naming) (origin : Origin) (row : LiveJob) :
    placed naming origin (x.replaced job row) = x.replaced job (placed naming origin row) := by
  cases origin <;> rfl

variable {sent : Nat → Sent} {index : Nat} {row : LiveJob} {origin : Origin} {x : W} {start : Store} {lane : Lane}

theorem scanJob_revised {other : LiveJob} (same : scanJob row = scanJob other) :
    scanJob (revised x sent index row) = scanJob (revised x sent index other) := by
  have state : row.state = other.state := congrArg (fun job : JobRow => job.state) same
  unfold revised
  rw [state]
  split
  · simp only [scanJob, JobRow.mk.injEq, Job.mk.injEq] at same
    simp [scanJob, W.replaced, same]
  · exact same

theorem sight_eq_some {cell : Cell} {job : JobRow} :
    sight cell = some (origin, job) ↔ ∃ row, cell = some (origin, row) ∧ scanJob row = job := by
  cases cell with
  | none => simp [sight]
  | some entry =>
    obtain ⟨first, row⟩ := entry
    simp only [sight, map_some, some.injEq, Prod.mk.injEq]
    constructor
    · rintro ⟨rfl, rfl⟩
      exact ⟨row, ⟨rfl, rfl⟩, rfl⟩
    · rintro ⟨_, ⟨rfl, rfl⟩, rfl⟩
      exact ⟨rfl, rfl⟩

theorem sight_congr {cell other : Cell} (same : sight cell = sight other) :
    sight (act x start sent index cell) = sight (act x start sent index other) ∧
      (answer x start sent index cell).sight = (answer x start sent index other).sight := by
  cases cell with
  | none =>
    cases other with
    | none => exact ⟨rfl, rfl⟩
    | some => cases same
  | some entry =>
    obtain ⟨origin, row⟩ := entry
    obtain ⟨content, rfl, scan⟩ := sight_eq_some.mp same.symm
    have looks : scanJob (revised x sent index row) = scanJob (revised x sent index content) :=
      scanJob_revised scan.symm
    simp only [act, answer, sight, Found.sight, map_some, looks, and_self]

theorem ofLane_placed {naming : Naming} : OfLane (placed naming origin row) lane ↔ OfLane row lane := by
  cases origin <;> cases lane <;> exact Iff.rfl

theorem laneOf_keyed {ref : UniqueRef} : laneOf sent index = .keyed ref ↔
      (sent index).job.uniqueKey ≠ "" ∧ (sent index).job.kind = ref.kind ∧ (sent index).job.uniqueKey = ref.key := by
  unfold laneOf
  obtain ⟨kind, key⟩ := ref
  split <;> simp_all

theorem laneOf_single {other : Nat} (same : laneOf sent index = .single other) : index = other := by
  unfold laneOf at same
  split at same
  · exact Lane.single.inj same
  · cases same

theorem firstCells_eq_some (found : firstCells start lane = some (origin, row)) :
    origin = .old ∧ row ∈ start.jobs ∧ OfLane row lane := by
  cases lane with
  | single => cases found
  | keyed =>
    rw [firstCells] at found
    split at found
    · cases found
    · obtain ⟨holder, is, same⟩ := map_eq_some_iff.mp found
      cases same
      have holds := find?_some is
      rw [decide_eq_true_eq] at holds
      exact ⟨rfl, mem_of_find?_eq_some is, holds⟩

theorem holder?_updateJob {id : JobID} {change : LiveJob → LiveJob} {same : ∀ row : LiveJob, (change row).id = row.id}
    (keeps : ∀ row, (change row).kind = row.kind ∧ (change row).uniqueKey = row.uniqueKey)
    (store : Store) (kind key : String) :
    (W.updateJob id change same store).holder? kind key =
      (store.holder? kind key).map fun row => if row.id = id then change row else row := by
  have mapped : (W.updateJob id change same store).jobs.rows =
      store.jobs.rows.map fun row => if row.id = id then change row else row := rfl
  unfold Store.holder?
  rw [mapped, find?_map]
  refine congrArg (Option.map _ ·) (congrArg (List.find? · _) (funext fun row => ?_))
  rw [Function.comp_apply]
  split
  · rw [(keeps row).1, (keeps row).2]
  · rfl

section
variable {x : W} {start : Store} {sent : Nat → Sent} {done : List Nat} {naming : Naming} {cells : Lane → Cell}
  {pre post : Store} {index : Nat}

namespace Shows

theorem first (start : Store) (sent : Nat → Sent) (naming : Naming) : Shows start sent [] naming (firstCells start) start where
  holders := by
    intro ref named
    rw [firstCells, if_neg named, Option.map_map]
    exact Option.map_id'.symm
  rows := by
    intro row
    constructor
    · intro member
      by_cases held : ∃ lane, firstCells start lane = some (.old, row)
      · obtain ⟨lane, is⟩ := held
        exact .inr ⟨lane, .old, row, is, rfl⟩
      · exact .inl ⟨member, not_exists.mp held⟩
    · intro shown
      rcases shown with aside | ⟨lane, origin, content, is, rfl⟩
      · exact aside.1
      · obtain ⟨rfl, member, _⟩ := firstCells_eq_some is
        exact member
  history := rfl
  kept := fun _ live => live
  lanes := fun _ _ _ is => (firstCells_eq_some is).2.2
  old := fun _ row is => ⟨row, is, rfl⟩
  new := fun _ _ _ is => by cases (firstCells_eq_some is).1
  apart := fun _ _ _ _ _ _ is => by cases (firstCells_eq_some is).1

variable {origin : Origin} {row : LiveJob} (shows : Shows start sent done naming cells pre) {lane : Lane}
variable {ref : UniqueRef}
include shows

theorem live (is : cells lane = some (origin, row)) : placed naming origin row ∈ pre.jobs :=
  (shows.rows _).mpr (.inr ⟨lane, origin, row, is, rfl⟩)

theorem aside_ne {aside : LiveJob} (isAside : Aside start aside) (is : cells lane = some (origin, row)) :
    aside.id ≠ (placed naming origin row).id := by
  intro same
  cases origin with
  | old =>
    obtain ⟨first, firstIs, firstID⟩ := shows.old lane row is
    have equal : aside = first :=
      Table.eq_of_key isAside.1 (firstCells_eq_some firstIs).2.1 (same.trans firstID)
    exact isAside.2 lane (equal ▸ firstIs)
  | new index =>
    have absent := (shows.new lane index row is).2.2
    exact Table.has_eq_false.mp absent aside isAside.1 same

theorem lane_eq {other : Lane} {second : Origin}
    {content : LiveJob} (is : cells (.keyed ref) = some (origin, row))
    (otherIs : cells other = some (second, content))
    (same : (placed naming second content).id = (placed naming origin row).id) : other = .keyed ref := by
  have equal := Table.eq_of_key (shows.live otherIs) (shows.live is) same
  have here : OfLane (placed naming origin row) (.keyed ref) := ofLane_placed.mpr (shows.lanes _ _ _ is)
  have there : OfLane (placed naming second content) other := ofLane_placed.mpr (shows.lanes _ _ _ otherIs)
  rw [equal] at there
  obtain ⟨kind, key⟩ := ref
  cases other with
  | keyed ref =>
    obtain ⟨otherKind, otherKey⟩ := ref
    have kinds : otherKind = kind := there.1.symm.trans here.1
    have keys : otherKey = key := some.inj (there.2.symm.trans here.2)
    rw [kinds, keys]
  | single => cases there.symm.trans here.2

theorem liveDuplicate_eq (fresh : index ∉ done) : W.liveDuplicate pre (sent index).job =
      (cells (laneOf sent index)).map fun entry => placed naming entry.1 entry.2 := by
  unfold W.liveDuplicate laneOf
  split
  · cases is : cells (.single index) with
    | none => rfl
    | some entry =>
      obtain ⟨origin, row⟩ := entry
      cases origin with
      | old =>
        obtain ⟨_, firstIs, _⟩ := shows.old _ _ is
        cases firstIs
      | new =>
        obtain ⟨isDone, lane, _⟩ := shows.new _ _ _ is
        cases laneOf_single lane.symm
        exact absurd isDone fresh
  · next named => exact shows.holders ⟨(sent index).job.kind, (sent index).job.uniqueKey⟩ named

theorem finished_eq (job : JobInsert) : W.finishedDuplicate pre job = W.finishedDuplicate start job := by
  unfold W.finishedDuplicate W.finishedHolders
  rw [shows.history]

omit shows in
private theorem update_cases {changed lane : Lane} {entry other : Origin × LiveJob}
    (found : Function.update cells changed (some entry) lane = some other) :
    (lane = changed ∧ other = entry) ∨ (lane ≠ changed ∧ cells lane = some other) := by
  by_cases here : lane = changed
  · subst here
    rw [Function.update_self] at found
    exact .inl ⟨rfl, (some.inj found).symm⟩
  · rw [Function.update_of_ne here] at found
    exact .inr ⟨here, found⟩

theorem replace {job : JobInsert}
    (is : cells (.keyed ref) = some (origin, row)) (sameID : ∀ held : LiveJob, (x.replaced job held).id = held.id) :
    Shows start sent done naming (Function.update cells (.keyed ref) (some (origin, x.replaced job row)))
      (W.updateJob (placed naming origin row).id (x.replaced job) sameID pre) := by
  have keeps (held : LiveJob) :
      (x.replaced job held).kind = held.kind ∧ (x.replaced job held).uniqueKey = held.uniqueKey := ⟨rfl, rfl⟩
  refine ⟨?_, ?_, shows.history, ?_, ?_, ?_, ?_, ?_⟩
  · intro other named
    rw [holder?_updateJob keeps, shows.holders other named, Option.map_map]
    by_cases here : other = ref
    · subst here
      rw [Function.update_self, is, Option.map_some, Option.map_some, Function.comp_apply, if_pos rfl, placed_replaced]
    · have apart : Lane.keyed other ≠ .keyed ref := fun same => here (Lane.keyed.inj same)
      rw [Function.update_of_ne apart]
      cases otherIs : cells (.keyed other) with
      | none => rfl
      | some =>
        rw [Option.map_some, Option.map_some, Function.comp_apply, if_neg fun same => apart (shows.lane_eq is otherIs same)]
  · intro found
    rw [W.mem_updateJob, shows.rows]
    constructor
    · intro member
      rcases member with ⟨aside | ⟨lane, second, content, otherIs, rfl⟩, other⟩ | ⟨holder, member, same, rfl⟩
      · exact .inl aside
      · refine .inr ⟨lane, second, content, ?_, rfl⟩
        rw [Function.update_of_ne, otherIs]
        rintro rfl
        cases is.symm.trans otherIs
        exact other rfl
      · rw [Table.eq_of_key member (shows.live is) same, ← placed_replaced]
        exact .inr ⟨.keyed ref, origin, _, Function.update_self .., rfl⟩
    · intro shown
      rcases shown with aside | ⟨lane, second, content, otherIs, rfl⟩
      · exact .inl ⟨.inl aside, shows.aside_ne aside is⟩
      · rcases update_cases otherIs with ⟨rfl, same⟩ | ⟨apart, otherIs⟩
        · cases same
          exact .inr ⟨_, shows.live is, rfl, placed_replaced ..⟩
        · exact .inl ⟨.inr ⟨lane, second, content, otherIs, rfl⟩, fun same => apart (shows.lane_eq is otherIs same)⟩
  · intro id live
    rw [W.has_updateJob]
    exact shows.kept id live
  · intro lane second content found
    rcases update_cases found with ⟨rfl, same⟩ | ⟨_, otherIs⟩
    · cases same
      have held := shows.lanes _ _ _ is
      exact held
    · exact shows.lanes _ _ _ otherIs
  · intro lane content found
    rcases update_cases found with ⟨rfl, same⟩ | ⟨_, otherIs⟩
    · cases same
      obtain ⟨first, firstIs, firstID⟩ := shows.old _ _ is
      exact ⟨first, firstIs, firstID⟩
    · exact shows.old _ _ otherIs
  · intro lane index content found
    rcases update_cases found with ⟨rfl, same⟩ | ⟨_, otherIs⟩
    · cases same
      exact shows.new _ _ _ is
    · exact shows.new _ _ _ otherIs
  · intro lane other index second content last found otherFound
    rcases update_cases found with ⟨rfl, same⟩ | ⟨_, firstIs⟩
    · cases same
      rcases update_cases otherFound with ⟨rfl, same⟩ | ⟨_, otherIs⟩
      · cases same
        exact fun _ => rfl
      · exact shows.apart _ _ _ _ _ _ is otherIs
    · rcases update_cases otherFound with ⟨rfl, same⟩ | ⟨_, otherIs⟩
      · cases same
        exact shows.apart _ _ _ _ _ _ firstIs is
      · exact shows.apart _ _ _ _ _ _ firstIs otherIs

theorem placed_update (drawn : JobID × Nat) (fresh : index ∉ done) (is : cells lane = some (origin, row)) :
    placed (Function.update naming index drawn) origin row = placed naming origin row := by
  cases origin with
  | old => rfl
  | new other =>
    have apart : other ≠ index := by
      rintro rfl
      exact fresh (shows.new _ _ _ is).1
    rw [placed, placed, Function.update_of_ne apart]

theorem insert (fresh : index ∉ done) (none : cells (laneOf sent index) = none)
    (free : pre.jobs.has (x.insertedRow (sent index).job pre).id = false) {seq drawn : Nat}
    {journal : List Event} :
    Shows start sent (done ++ [index]) (Function.update naming index (x.engine.newID pre.drawn, pre.seq + 1))
      (Function.update cells (laneOf sent index) (some (.new index, x.newRow (sent index).job 0)))
      { pre with
        jobs := pre.jobs.append (x.insertedRow (sent index).job pre) free
        seq := seq, drawn := drawn, journal := journal } := by
  have inserted : placed (Function.update naming index (x.engine.newID pre.drawn, pre.seq + 1)) (.new index)
      (x.newRow (sent index).job 0) = x.insertedRow (sent index).job pre := by
    rw [placed, Function.update_self]
    rfl
  have old {lane : Lane} {origin : Origin} {row : LiveJob} (is : cells lane = some (origin, row)) :=
    placed_update shows (x.engine.newID pre.drawn, pre.seq + 1) fresh is
  have elsewhere {lane : Lane} {entry : Origin × LiveJob} (is : cells lane = some entry) : lane ≠ laneOf sent index := by
    rintro rfl
    cases none.symm.trans is
  have unnamed {lane : Lane} {other : Nat} {row : LiveJob} (is : cells lane = some (.new other, row)) :
      other ≠ index ∧ (naming other).1 ≠ x.engine.newID pre.drawn := by
    refine ⟨?_, fun same => ?_⟩
    · rintro rfl
      exact fresh (shows.new _ _ _ is).1
    · exact Table.has_eq_false.mp free _ (shows.live is) same
  refine ⟨?_, ?_, shows.history, ?_, ?_, ?_, ?_, ?_⟩
  · intro ref named
    change (pre.jobs.rows ++ [x.insertedRow (sent index).job pre]).find? _ = _
    rw [List.find?_append]
    change (pre.holder? ref.kind ref.key).or _ = _
    rw [shows.holders ref named]
    by_cases here : Lane.keyed ref = laneOf sent index
    · obtain ⟨keyed, kind, key⟩ := laneOf_keyed.mp here.symm
      rw [here, none, Function.update_self, map_none, Option.none_or, map_some, inserted,
        find?_singleton, if_pos]
      exact decide_eq_true ⟨kind, by rw [← key]; exact if_neg keyed⟩
    · rw [Function.update_of_ne here, find?_singleton, if_neg, Option.or_none]
      · cases is : cells (.keyed ref) with
        | none => rfl
        | some => rw [map_some, map_some, old is]
      · rw [decide_eq_true_eq]
        rintro ⟨kind, key⟩
        have keys : nullable (sent index).job.uniqueKey = some ref.key := key
        unfold nullable at keys
        split at keys
        · cases keys
        · next keyed => exact here (laneOf_keyed.mpr ⟨keyed, kind, some.inj keys⟩).symm
  · intro row
    rw [Table.mem_append free, shows.rows]
    constructor
    · intro mem
      rcases mem with (aside | ⟨lane, origin, content, is, rfl⟩) | rfl
      · exact .inl aside
      · exact .inr ⟨lane, origin, content, by rw [Function.update_of_ne (elsewhere is), is], (old is).symm⟩
      · exact .inr ⟨_, _, _, Function.update_self .., inserted.symm⟩
    · intro shown
      rcases shown with aside | ⟨lane, origin, content, found, rfl⟩
      · exact .inl (.inl aside)
      · rcases update_cases found with ⟨rfl, same⟩ | ⟨_, is⟩
        · cases same
          exact .inr inserted
        · exact .inl (.inr ⟨lane, origin, content, is, old is⟩)
  · intro id live
    obtain ⟨row, mem, same⟩ := Table.has_eq_true.mp (shows.kept id live)
    exact Table.has_eq_true.mpr ⟨row, (Table.mem_append free).mpr (.inl mem), same⟩
  · intro lane origin row found
    rcases update_cases found with ⟨rfl, same⟩ | ⟨_, is⟩
    · cases same
      unfold laneOf
      split
      · next unkeyed => exact if_pos unkeyed
      · next keyed => exact ⟨rfl, if_neg keyed⟩
    · exact shows.lanes _ _ _ is
  · intro lane row found
    rcases update_cases found with ⟨_, same⟩ | ⟨_, is⟩
    · cases same
    · exact shows.old _ _ is
  · intro lane other row found
    rcases update_cases found with ⟨rfl, same⟩ | ⟨_, is⟩
    · cases same
      refine ⟨mem_append_right _ (mem_singleton_self _), rfl, ?_⟩
      rw [Function.update_self, Bool.eq_false_iff]
      exact fun live => Bool.false_ne_true (free.symm.trans (shows.kept _ live))
    · obtain ⟨isDone, lane, absent⟩ := shows.new _ _ _ is
      rw [Function.update_of_ne (unnamed is).1]
      exact ⟨mem_append_left _ isDone, lane, absent⟩
  · intro lane other first second row content found otherFound
    rcases update_cases found with ⟨rfl, same⟩ | ⟨_, is⟩
    · cases same
      rcases update_cases otherFound with ⟨rfl, same⟩ | ⟨_, otherIs⟩
      · cases same
        exact fun _ => rfl
      · rw [Function.update_self, Function.update_of_ne (unnamed otherIs).1]
        exact fun same => absurd same.symm (unnamed otherIs).2
    · rcases update_cases otherFound with ⟨rfl, same⟩ | ⟨_, otherIs⟩
      · cases same
        rw [Function.update_self, Function.update_of_ne (unnamed is).1]
        exact fun same => absurd same (unnamed is).2
      · rw [Function.update_of_ne (unnamed is).1, Function.update_of_ne (unnamed otherIs).1]
        exact shows.apart _ _ _ _ _ _ is otherIs

theorem idle : Shows start sent (done ++ [index]) naming cells pre :=
  { shows with
    new := fun lane other row is => by
      obtain ⟨isDone, rest⟩ := shows.new lane other row is
      exact ⟨mem_append_left _ isDone, rest⟩ }

theorem within (is : cells lane = some (origin, row)) (content : LiveJob) (duplicate : Bool) :
    (Found.live origin content duplicate).Within done := by
  cases origin with
  | old => trivial
  | new => exact (shows.new _ _ _ is).1

end Shows

theorem Shows.step (shows : Shows start sent done naming cells pre) (fresh : index ∉ done)
    (mints : (sent index).job.id = 0) (unbatched : (sent index).job.batchID = 0) {result : JobInsertResult}
    (inserted : Yields (x.insertOne (sent index).onConflict (sent index).job) pre result post) :
    ∃ later, (∀ other ∈ done, later other = naming other) ∧
      Shows start sent (done ++ [index]) later (Lanes.step (laneOf sent) (act x start sent) cells index) post ∧
      result = (answer x start sent index (cells (laneOf sent index))).result later ∧
      (answer x start sent index (cells (laneOf sent index))).Within (done ++ [index]) := by
  have cell := shows.liveDuplicate_eq fresh
  have kept {entry : Cell} (is : cells (laneOf sent index) = entry) (same : act x start sent index entry = entry) :
      Lanes.step (laneOf sent) (act x start sent) cells index = cells := by
    rw [Lanes.step, is, same, ← is, Function.update_eq_self]
  rcases W.yields_insertOne inserted with
    ⟨holder, found, duplicate, same⟩ | ⟨free, named, found, searched, rfl, same⟩ | ⟨free, unfinished, new, stored⟩
  · rw [found] at cell
    obtain ⟨⟨origin, row⟩, is, rfl⟩ := map_eq_some_iff.mp cell.symm
    have sameState : (placed naming origin row).state = row.state := by cases origin <;> rfl
    rw [sameState] at same
    have idle : Shows start sent (done ++ [index]) naming cells pre := shows.idle
    refine ⟨naming, fun _ _ => rfl, ?_, ?_, by rw [is]; exact idle.within is _ true⟩
    · rcases same with ⟨replaces, waits, _, rfl⟩ | ⟨keeps, _, rfl⟩
      · have named : (sent index).job.uniqueKey ≠ "" := by
          intro unnamed
          rw [W.liveDuplicate, if_pos unnamed] at found
          cases found
        have lane : laneOf sent index = .keyed ⟨(sent index).job.kind, (sent index).job.uniqueKey⟩ := if_neg named
        rw [Lanes.step, is, lane, act, revised, if_pos ⟨replaces, waits⟩]
        rw [lane] at is
        exact (shows.replace is _).idle
      · rw [kept is (by rw [act, revised, if_neg keeps])]
        exact shows.idle
    · obtain ⟨job, flag⟩ := result
      cases duplicate
      rw [is, answer, Found.result, revised]
      rcases same with ⟨replaces, waits, job, _⟩ | ⟨keeps, job, _⟩
      · rw [if_pos ⟨replaces, waits⟩, placed_replaced]
        exact congrArg (JobInsertResult.mk · true) job
      · rw [if_neg keeps]
        exact congrArg (JobInsertResult.mk · true) job
  · rw [free] at cell
    have is := map_eq_none_iff.mp cell.symm
    have finished : finishedFor start (sent index).job = some found := by
      rw [finishedFor, if_neg named, ← shows.finished_eq, searched]
    have unchanged : post = pre := by
      rcases same with ⟨_, rfl⟩ | ⟨batched, _⟩
      · rfl
      · exact absurd unbatched batched
    subst unchanged
    refine ⟨naming, fun _ _ => rfl, ?_, ?_, ?_⟩
    · rw [kept is (by rw [act, finished])]
      exact shows.idle
    · rw [is, answer, finished]
      rfl
    · rw [is, answer, finished]
      trivial
  · rw [free] at cell
    have is := map_eq_none_iff.mp cell.symm
    have finished : finishedFor start (sent index).job = none := by
      rw [finishedFor]
      split
      · rfl
      · next named => rw [← shows.finished_eq, unfinished.resolve_left named]
    obtain ⟨unused, _, job, rfl⟩ := W.yields_insertJob mints stored
    refine ⟨Function.update naming index (x.engine.newID pre.drawn, pre.seq + 1), ?_, ?_, ?_, ?_⟩
    · intro other isDone
      rw [Function.update_of_ne]
      rintro rfl
      exact fresh isDone
    · rw [Lanes.step, is, act, finished]
      exact shows.insert fresh is unused
    · obtain ⟨row, flag⟩ := result
      cases new
      rw [is, answer, finished, Found.result, placed, Function.update_self]
      exact congrArg (JobInsertResult.mk · false) job
    · rw [is, answer, finished]
      exact mem_append_right _ (mem_singleton_self _)

theorem Shows.run (shows : Shows start sent done naming cells pre) {indexes : List Nat}
    (distinct : (done ++ indexes).Nodup) {action : ConflictAction}
    (plain : ∀ index ∈ indexes, (sent index).job.id = 0 ∧ (sent index).job.batchID = 0 ∧ (sent index).onConflict = action)
    {results : List JobInsertResult}
    (inserted : Yields (x.insertJobs (indexes.map fun index => (sent index).job) action) pre results post) :
    ∃ later, (∀ other ∈ done, later other = naming other) ∧
      Shows start sent (done ++ indexes) later (Lanes.run (laneOf sent) (act x start sent) indexes cells) post ∧
      results = (Lanes.answers (laneOf sent) (act x start sent) (answer x start sent) indexes cells).map (Found.result later) ∧
      ∀ found ∈ Lanes.answers (laneOf sent) (act x start sent) (answer x start sent) indexes cells,
        found.Within (done ++ indexes) := by
  unfold W.insertJobs at inserted
  induction indexes generalizing done naming cells pre results with
  | nil =>
    obtain ⟨rfl, rfl⟩ := yields_mapM_nil.mp inserted
    rw [append_nil]
    exact ⟨naming, fun _ _ => rfl, shows, rfl, forall_mem_nil _⟩
  | cons index indexes ih =>
    obtain ⟨result, middle, rest, first, others, rfl⟩ := yields_mapM_cons.mp inserted
    obtain ⟨mints, unbatched, acts⟩ := plain index mem_cons_self
    have fresh : index ∉ done := fun isDone => (nodup_append.mp distinct).2.2 index isDone index mem_cons_self rfl
    rw [← acts] at first
    obtain ⟨middleNaming, middleSame, middleShows, is, within⟩ := shows.step fresh mints unbatched first
    have snoc : done ++ index :: indexes = done ++ [index] ++ indexes := by simp
    rw [snoc] at distinct ⊢
    obtain ⟨later, same, laterShows, restIs, restWithin⟩ :=
      ih middleShows distinct (fun other mem => plain other (mem_cons_of_mem _ mem)) others
    refine ⟨later, fun other isDone => ?_, laterShows, ?_, ?_⟩
    · rw [same other (mem_append_left _ isDone), middleSame other isDone]
    · rw [Lanes.answers, map_cons, is, restIs, Found.result_congr same within]
    · intro found mem
      rcases mem_cons.mp mem with rfl | later
      · exact within.mono (subset_append_left _ _)
      · exact restWithin found later

end

end Hopper.Client
