import Hopper.Client.PeriodicWalks

/-! What a periodic pass keeps of a job, which it comes to at most once. -/

namespace Hopper.Client

open List Kernel Driver Sqlite

section
variable {Ref : Type} (c : PeriodicClient Ref) (name : String)

structure Frame (before after : PeriodicPass Ref) : Prop where
  store : before.store.Same name after.store
  next : ∀ ref, (c.jobs ref).name = name → after.state.next ref = before.state.next ref
  done : ∀ ref ∈ after.done, (c.jobs ref).name = name → ref ∈ before.done

end

section
variable {Ref : Type} {c : PeriodicClient Ref} {name : String} {pre middle post : PeriodicPass Ref}

theorem Frame.refl : Frame c name pre pre :=
  ⟨.refl, fun _ _ => rfl, fun _ member _ => member⟩

theorem Frame.trans (one : Frame c name pre middle) (other : Frame c name middle post) : Frame c name pre post :=
  ⟨one.store.trans other.store, fun ref own => (other.next ref own).trans (one.next ref own),
    fun ref member own => one.done ref (other.done ref member own) own⟩

theorem Frame.stored {store : PeriodicStore} (same : pre.store.Same name store) :
    Frame c name pre { pre with store := store } :=
  ⟨same, fun _ _ => rfl, fun _ member _ => member⟩

theorem foldl_once {step : PeriodicPass Ref → Ref → PeriodicPass Ref}
    (others : ∀ pass ref, (c.jobs ref).name ≠ name → Frame c name pass (step pass ref)) {refs : List Ref}
    (distinct : (refs.map fun ref => (c.jobs ref).name).Nodup) (pass : PeriodicPass Ref) :
    Frame c name pass (refs.foldl step pass) ∨ ∃ ref ∈ refs, (c.jobs ref).name = name ∧
      ∃ middle, Frame c name pass middle ∧ Frame c name (step middle ref) (refs.foldl step pass) := by
  induction refs generalizing pass with
  | nil => exact .inl .refl
  | cons ref rest ih =>
    obtain ⟨fresh, distinct⟩ := nodup_cons.mp distinct
    rw [foldl_cons]
    by_cases own : (c.jobs ref).name = name
    · refine .inr ⟨ref, mem_cons_self, own, pass, .refl, ?_⟩
      rcases ih distinct (step pass ref) with framed | ⟨other, member, same, _⟩
      · exact framed
      · exact absurd (mem_map.mpr ⟨other, member, same.trans own.symm⟩) fresh
    · have one := others pass ref own
      rcases ih distinct (step pass ref) with framed | ⟨other, member, same, middle, first, second⟩
      · exact .inl (one.trans framed)
      · exact .inr ⟨other, mem_cons_of_mem _ member, same, middle, one.trans first, second⟩

end

namespace PeriodicClient

variable {Ref : Type} [DecidableEq Ref] {c : PeriodicClient Ref} {name : String} {input : PeriodicInput Ref} {now : Int}
variable {pass : PeriodicPass Ref} {ref : Ref} {job : PeriodicJob}

theorem retry_store (pass : PeriodicPass Ref) (ref : Ref) : (c.retry input pass ref).store = pass.store := by
  unfold PeriodicClient.retry
  split <;> rfl

theorem retry_frame (pass : PeriodicPass Ref) (ref : Ref) : Frame c name pass (c.retry input pass ref) := by
  unfold PeriodicClient.retry
  split
  · exact .refl
  · exact ⟨.refl, fun _ _ => rfl, fun _ member _ => member⟩

theorem moved_frame {next : Option (Option Int)} (differ : (c.jobs ref).name ≠ name) :
    Frame c name pass { pass with state := { pass.state with next := Function.update pass.state.next ref next } } :=
  ⟨.refl, fun other own => Function.update_of_ne (fun same : other = ref => differ (same ▸ own)) _ _, fun _ member _ => member⟩

theorem succeed_frame {next : Option Int} (differ : (c.jobs ref).name ≠ name) :
    Frame c name pass (succeed now next pass ref) := by
  have apart {other : Ref} (own : (c.jobs other).name = name) : other ≠ ref := fun same => differ (same ▸ own)
  refine ⟨.refl, fun other own => Function.update_of_ne (apart own) _ _, fun other member own => ?_⟩
  exact (mem_cons.mp member).resolve_left (apart own)

omit [DecidableEq Ref] in
theorem goOn_other (differ : job.name ≠ name) (fate : Nat → InsertFate) (heldUp : Bool)
    (next : Option Int) (store : PeriodicStore) : store.Same name (c.goOn job fate now heldUp next store).store := by
  have further {walk : Walk} (same : store.Same name walk.store) :
      store.Same name (if walk.inserted then insertSlots c.engine job fate (job.schedule.listed walk.next now) walk
        else walk).store := by
    split
    · exact same.trans (insertSlots_other c.engine differ fate _ walk)
    · exact same
  unfold PeriodicClient.goOn
  refine further ?_
  cases next with
  | none => exact .refl
  | some =>
    dsimp only
    split
    · exact insertSlots_other c.engine differ fate _ { next := _, store := store }
    · exact .refl

omit [DecidableEq Ref] in
theorem startPeriodic_other (differ : job.name ≠ name) (fate : Nat → InsertFate)
    (last : Option Int) (store : PeriodicStore) : store.Same name (c.startPeriodic job fate now last store).2 := by
  have missed : store.Same name (last.elim { next := none, store := store : Walk } fun last =>
      insertSlots c.engine job fate (c.missedSlots job last now) { next := none, store := store }).store := by
    cases last with
    | none => exact .refl
    | some => exact insertSlots_other c.engine differ fate _ { next := none, store := store }
  unfold PeriodicClient.startPeriodic
  dsimp only
  generalize Option.elim _ _ _ = walk at missed ⊢
  split
  · split
    · have one := insertPeriodic_other (s := walk.store) c.engine differ now (fate walk.calls)
      split
      · next failed =>
        rw [failed] at one
        exact missed.trans one
      · next inserted =>
        rw [inserted] at one
        exact missed.trans one
    · exact missed
  · exact missed

theorem goOnWith_frame {stale : Bool} (pass : PeriodicPass Ref) (ref : Ref) (differ : (c.jobs ref).name ≠ name) :
    Frame c name pass (c.goOnWith input now stale pass ref) := by
  unfold PeriodicClient.goOnWith
  split
  · exact .refl
  · next next found =>
    split
    · exact .refl
    · dsimp only
      have framed : Frame c name pass { pass with store := (c.goOn (c.jobs ref) (input.fate ref) now
          (stale || (pass.state.retryAt ref).isSome) next pass.store).store } :=
        .stored (goOn_other differ _ _ next pass.store)
      split
      · exact framed.trans (succeed_frame differ)
      · exact framed.trans ((moved_frame differ).trans (retry_frame _ ref))

theorem startWith_frame {lastSlots : String → Option Int} (pass : PeriodicPass Ref) (ref : Ref)
    (differ : (c.jobs ref).name ≠ name) : Frame c name pass (c.startWith input now lastSlots pass ref) := by
  have same : pass.store.Same name (c.startPeriodic (c.jobs ref) (input.fate ref) now (lastSlots (c.jobs ref).name) pass.store).2 :=
    startPeriodic_other differ _ _ pass.store
  unfold PeriodicClient.startWith
  split
  · next failed =>
    rw [failed] at same
    exact (Frame.stored same).trans (retry_frame _ ref)
  · next started =>
    rw [started] at same
    exact (Frame.stored same).trans (succeed_frame differ)

/-! What a pass inserts rises. -/

section
variable (plain : ∀ ref, (c.jobs ref).name = name → ∀ slot, ((c.jobs ref).params slot).uniqueKey = "")
  (stays : ∀ ref, (c.jobs ref).name = name → ∀ call, input.fate ref call ≠ .removed ∧ input.fate ref call ≠ .unbuilt)
include plain stays

omit [DecidableEq Ref] in
theorem goOn_grows (ref : Ref) (heldUp : Bool) (next : Option Int) (store : PeriodicStore) :
    Grows name store (c.goOn (c.jobs ref) (input.fate ref) now heldUp next store).store := by
  have further {walk : Walk} (grows : Grows name store walk.store) :
      Grows name store (if walk.inserted then insertSlots c.engine (c.jobs ref) (input.fate ref)
        ((c.jobs ref).schedule.listed walk.next now) walk else walk).store := by
    split
    · exact grows.trans (insertSlots_grows (plain ref) (stays ref) _ walk)
    · exact grows
  unfold PeriodicClient.goOn
  refine further ?_
  cases next with
  | none => exact .refl store
  | some =>
    dsimp only
    split
    · exact insertSlots_grows (plain ref) (stays ref) _ { next := _, store := store }
    · exact .refl store

omit [DecidableEq Ref] in
theorem startPeriodic_grows (ref : Ref) (last : Option Int) (store : PeriodicStore) :
    Grows name store (c.startPeriodic (c.jobs ref) (input.fate ref) now last store).2 := by
  have missed : Grows name store (last.elim { next := none, store := store : Walk } fun last =>
      insertSlots c.engine (c.jobs ref) (input.fate ref) (c.missedSlots (c.jobs ref) last now)
        { next := none, store := store }).store := by
    cases last with
    | none => exact .refl store
    | some => exact insertSlots_grows (plain ref) (stays ref) _ { next := none, store := store }
  unfold PeriodicClient.startPeriodic
  dsimp only
  generalize Option.elim _ _ _ = walk at missed ⊢
  split
  · split
    · have one : Grows name walk.store (insertPeriodic c.engine (c.jobs ref) now walk.store (input.fate ref walk.calls)).2 :=
        insertPeriodic_grows (plain ref) now fun own => stays ref own walk.calls
      split
      · next failed =>
        rw [failed] at one
        exact missed.trans one
      · next inserted =>
        rw [inserted] at one
        exact missed.trans one
    · exact missed
  · exact missed

theorem goOnWith_grows (stale : Bool) (pass : PeriodicPass Ref) (ref : Ref) :
    Grows name pass.store (c.goOnWith input now stale pass ref).store := by
  unfold PeriodicClient.goOnWith
  split
  · exact .refl _
  · next next _ =>
    split
    · exact .refl _
    · have grows : Grows name pass.store (c.goOn (c.jobs ref) (input.fate ref) now
          (stale || (pass.state.retryAt ref).isSome) next pass.store).store := goOn_grows plain stays ref _ next pass.store
      dsimp only
      split
      · exact grows
      · rw [retry_store]
        exact grows

theorem startWith_grows (lastSlots : String → Option Int) (pass : PeriodicPass Ref) (ref : Ref) :
    Grows name pass.store (c.startWith input now lastSlots pass ref).store := by
  have grows : Grows name pass.store
      (c.startPeriodic (c.jobs ref) (input.fate ref) now (lastSlots (c.jobs ref).name) pass.store).2 :=
    startPeriodic_grows plain stays ref _ pass.store
  unfold PeriodicClient.startWith
  split
  · next failed =>
    rw [failed] at grows
    rw [retry_store]
    exact grows
  · next started =>
    rw [started] at grows
    exact grows

omit plain stays [DecidableEq Ref] in
theorem foldl_grows {step : PeriodicPass Ref → Ref → PeriodicPass Ref}
    (steps : ∀ pass ref, Grows name pass.store (step pass ref).store) (refs : List Ref) (pass : PeriodicPass Ref) :
    Grows name pass.store (refs.foldl step pass).store := by
  induction refs generalizing pass with
  | nil => exact .refl _
  | cons ref rest ih => exact (steps pass ref).trans (ih _)

theorem startAll_grows (added : List Ref) (pass : PeriodicPass Ref) :
    Grows name pass.store (c.startAll input now added pass).store := by
  unfold PeriodicClient.startAll
  dsimp only
  split
  · exact .refl _
  · split
    · exact foldl_grows (startWith_grows plain stays _) _ pass
    · refine foldl_grows (fun pass ref => ?_) _ pass
      rw [retry_store]
      exact .refl _

theorem passAt_grows (added : List Ref) (state : PeriodicState Ref) (store : PeriodicStore) :
    Grows name store (c.passAt input now added state store).store := by
  unfold PeriodicClient.passAt
  dsimp only
  refine .trans (foldl_grows (goOnWith_grows plain stays _) input.regs
    { state := { state with clockFailed := false }, store := store }) (startAll_grows plain stays added _)

end

/-! What a pass leaves out. -/

section
variable {Slot : Int → Prop}

/-- No slot before the one that a job has come to was left out. -/
structure PassHolds (c : PeriodicClient Ref) (Slot : Int → Prop) (name : String) (regs : List Ref)
    (pass : PeriodicPass Ref) : Prop where
  gapless : Gapless Slot name pass.store
  next : ∀ ref next, (c.jobs ref).name = name → pass.state.next ref = some next →
    ref ∈ regs ∧ Reaches Slot (pass.store.slots name) next

/-- Nor was one up to the time of the pass, if nothing failed for the job. -/
structure PassDone (c : PeriodicClient Ref) (Slot : Int → Prop) (name : String) (regs : List Ref) (now : Int)
    (pass : PeriodicPass Ref) : Prop extends PassHolds c Slot name regs pass where
  through : ∀ ref ∈ pass.done, (c.jobs ref).name = name → Covered Slot (pass.store.slots name) (· ≤ now)

variable {regs : List Ref} {pre post pass : PeriodicPass Ref}

omit [DecidableEq Ref] in
theorem PassHolds.frame (holds : PassHolds c Slot name regs pre) (framed : Frame c name pre post) :
    PassHolds c Slot name regs post where
  gapless := holds.gapless.same framed.store
  next ref next own found := framed.store.slots ▸ holds.next ref next own ((framed.next ref own).symm.trans found)

omit [DecidableEq Ref] in
theorem PassDone.frame (done : PassDone c Slot name regs now pre) (framed : Frame c name pre post) :
    PassDone c Slot name regs now post where
  toPassHolds := done.toPassHolds.frame framed
  through ref member own := framed.store.slots ▸ done.through ref (framed.done ref member own) own

omit [DecidableEq Ref] in
theorem PassHolds.done (holds : PassHolds c Slot name regs pass) (fresh : ∀ ref ∈ pass.done, (c.jobs ref).name ≠ name) :
    PassDone c Slot name regs now pass where
  toPassHolds := holds
  through ref member own := absurd own (fresh ref member)

section
variable {ref : Ref} (alone : ∀ other ∈ regs, (c.jobs other).name = name → other = ref) (member : ref ∈ regs)
  (holds : PassHolds c Slot name regs pass)
include alone member holds

theorem PassHolds.move {next : Option Int} {store : PeriodicStore} (gapless : Gapless Slot name store)
    (reaches : Reaches Slot (store.slots name) next) : PassHolds c Slot name regs { pass with
      store := store, state := { pass.state with next := Function.update pass.state.next ref (some next) } } := by
  refine ⟨gapless, fun other upcoming own found => ?_⟩
  dsimp only at found
  by_cases same : other = ref
  · subst same
    rw [Function.update_self] at found
    cases found
    exact ⟨member, reaches⟩
  · rw [Function.update_of_ne same] at found
    exact absurd (alone other (holds.next other upcoming own found).1 own) same

variable (regular : c.Regular Slot name (c.jobs ref) (input.fate ref)) (fresh : ∀ ref ∈ pass.done, (c.jobs ref).name ≠ name)
  (covered : Covered Slot (pass.store.slots name) (· ≤ now - c.tuning.leaderTTL))
include regular fresh covered

theorem goOnWith_done (stale : Bool) : PassDone c Slot name regs now (c.goOnWith input now stale pass ref) := by
  unfold PeriodicClient.goOnWith
  split
  · exact holds.done fresh
  · next next found =>
    split
    · exact holds.done fresh
    · have reached := (holds.next ref next regular.own found).2
      have walk : WalkDone Slot name now { next := next, store := pass.store } (c.goOn (c.jobs ref) (input.fate ref) now
          (stale || (pass.state.retryAt ref).isSome) next pass.store) := goOn_done regular holds.gapless reached covered
      have moved := PassHolds.move alone member holds walk.gapless (walk.reaches reached)
      dsimp only
      split
      · next inserted => exact ⟨⟨moved.gapless, moved.next⟩, fun _ _ _ => walk.through inserted⟩
      · exact (moved.done fresh).frame (retry_frame _ ref)

theorem startWith_done (tracked : Tracked name pass.store)
    (unstarted : pass.state.next ref = none) {lastSlots : String → Option Int}
    (read : lastSlots name = (pass.store.last name).map (· * 1000)) :
    PassDone c Slot name regs now (c.startWith input now lastSlots pass ref) := by
  have start : StartDone Slot name now
      (c.startPeriodic (c.jobs ref) (input.fate ref) now (lastSlots (c.jobs ref).name) pass.store) := by
    rw [regular.own, read]
    exact startPeriodic_done regular tracked holds.gapless covered
  unfold PeriodicClient.startWith
  split
  · next store failed =>
    rw [failed] at start
    refine PassDone.frame (.mk ⟨start.gapless, fun other next own found => ?_⟩ fun other member own => ?_)
      (retry_frame { pass with store := store } ref)
    · obtain rfl := alone other (holds.next other next own found).1 own
      cases unstarted.symm.trans found
    · exact absurd own (fresh other member)
  · next next store started =>
    rw [started] at start
    have moved := PassHolds.move alone member holds start.gapless (start.reaches next rfl)
    exact ⟨⟨moved.gapless, moved.next⟩, fun _ _ _ => start.through next rfl⟩

end

omit [DecidableEq Ref] in
theorem foldl_frame {step : PeriodicPass Ref → Ref → PeriodicPass Ref} {refs : List Ref}
    (steps : ∀ pass, ∀ ref ∈ refs, Frame c name pass (step pass ref)) (pass : PeriodicPass Ref) :
    Frame c name pass (refs.foldl step pass) := by
  induction refs generalizing pass with
  | nil => exact .refl
  | cons ref rest ih =>
    exact (steps pass ref mem_cons_self).trans (ih (fun pass ref member => steps pass ref (mem_cons_of_mem _ member)) _)

theorem startAll_frame {added : List Ref} (others : ∀ ref ∈ added, (c.jobs ref).name ≠ name) :
    Frame c name pass (c.startAll input now added pass) := by
  unfold PeriodicClient.startAll
  dsimp only
  split
  · exact .refl
  · split
    · exact foldl_frame (fun pass ref member => startWith_frame pass ref (others ref (mem_filter.mp member).1)) pass
    · exact foldl_frame (fun pass ref _ => retry_frame pass ref) pass

section
variable (regular : ∀ ref, (c.jobs ref).name = name → c.Regular Slot name (c.jobs ref) (input.fate ref))
  (distinct : (regs.map fun ref => (c.jobs ref).name).Nodup)
include regular distinct

variable {added : List Ref}

theorem startAll_done (part : added.Sublist regs) (holds : PassHolds c Slot name regs pass)
    (fresh : ∀ ref ∈ pass.done, (c.jobs ref).name ≠ name) (tracked : Tracked name pass.store)
    (covered : Covered Slot (pass.store.slots name) (· ≤ now - c.tuning.leaderTTL))
    (unstarted : ∀ ref ∈ added, (c.jobs ref).name = name → pass.state.next ref = none) :
    PassDone c Slot name regs now (c.startAll input now added pass) := by
  unfold PeriodicClient.startAll
  dsimp only
  split
  · exact holds.done fresh
  · split
    · have portion : (added.filter fun ref => !waiting input pass.state ref).Sublist regs := filter_sublist.trans part
      rcases foldl_once startWith_frame (distinct.sublist (portion.map _)) pass with
        framed | ⟨ref, member, own, middle, first, second⟩
      · exact (holds.done fresh).frame framed
      · have alone : ∀ other ∈ regs, (c.jobs other).name = name → other = ref := fun other there same =>
          inj_on_of_nodup_map distinct there (portion.subset member) (same.trans own.symm)
        refine (startWith_done alone (portion.subset member) (holds.frame first) (regular ref own)
          (fun other member own => fresh other (first.done other member own) own) (first.store.slots ▸ covered)
          (first.store.grows.tracked tracked) ?_ ?_).frame second
        · rw [first.next ref own]
          exact unstarted ref (mem_filter.mp member).1 own
        · rw [first.store.last, PeriodicStore.last, Option.map_map]
          rfl
    · exact (holds.done fresh).frame (foldl_frame (fun pass ref _ => retry_frame pass ref) pass)

theorem passAt_done (all : input.regs = regs) (part : added.Sublist regs) {state : PeriodicState Ref}
    {store : PeriodicStore} (unstarted : ∀ ref ∈ added, (c.jobs ref).name = name → state.next ref = none)
    (holds : PassHolds c Slot name regs { state := state, store := store }) (tracked : Tracked name store)
    (covered : Covered Slot (store.slots name) (· ≤ now - c.tuning.leaderTTL)) :
    PassDone c Slot name regs now (c.passAt input now added state store) := by
  unfold PeriodicClient.passAt
  dsimp only
  rw [all]
  generalize (state.clockFailed || _) = stale
  obtain ⟨start, begun⟩ : ∃ start, start = ({ state := { state with clockFailed := false }, store := store } : PeriodicPass Ref) :=
    ⟨_, rfl⟩
  have holds : PassHolds c Slot name regs start := begun ▸ ⟨holds.gapless, holds.next⟩
  have fresh : ∀ ref ∈ start.done, (c.jobs ref).name ≠ name := begun ▸ forall_mem_nil _
  have covered : Covered Slot (start.store.slots name) (· ≤ now - c.tuning.leaderTTL) := begun ▸ covered
  have tracked : Tracked name start.store := begun ▸ tracked
  have unstarted : ∀ ref ∈ added, (c.jobs ref).name = name → start.state.next ref = none := begun ▸ unstarted
  rw [← begun]
  suffices done : PassDone c Slot name regs now (c.startAll input now added (regs.foldl (c.goOnWith input now stale) start)) from
    ⟨⟨done.gapless, done.next⟩, done.through⟩
  have idle (framed : Frame c name start (regs.foldl (c.goOnWith input now stale) start)) :
      PassDone c Slot name regs now (c.startAll input now added (regs.foldl (c.goOnWith input now stale) start)) :=
    startAll_done regular distinct part (holds.frame framed)
      (fun ref member own => fresh ref (framed.done ref member own) own) (framed.store.grows.tracked tracked)
      (framed.store.slots ▸ covered) fun ref member own => (framed.next ref own).trans (unstarted ref member own)
  rcases foldl_once goOnWith_frame distinct start with framed | ⟨ref, member, own, middle, first, second⟩
  · exact idle framed
  · cases found : middle.state.next ref with
    | none =>
      have same : c.goOnWith input now stale middle ref = middle := by
        unfold PeriodicClient.goOnWith
        rw [found]
      rw [same] at second
      exact idle (first.trans second)
    | some =>
      have alone : ∀ other ∈ regs, (c.jobs other).name = name → other = ref := fun other there same =>
        inj_on_of_nodup_map distinct there member (same.trans own.symm)
      have went := goOnWith_done alone member (holds.frame first) (regular ref own)
        (fun other member own => fresh other (first.done other member own) own) (first.store.slots ▸ covered) stale
      refine (went.frame second).frame (startAll_frame fun other there same => ?_)
      obtain rfl := alone other (part.subset there) same
      cases ((first.next other own).trans (unstarted other there own)).symm.trans found

end

end

theorem periodicPass_cases (c : PeriodicClient Ref) (input : PeriodicInput Ref) (state : PeriodicState Ref)
    (store : PeriodicStore) :
    ((c.periodicPass input state store).store = store ∧ (c.periodicPass input state store).done = [] ∧
        ∀ ref next, (c.periodicPass input state store).state.next ref = some next → state.next ref = some next) ∨
      ∃ now kept added, input.clock = some now ∧ c.periodicPass input state store = c.passAt input now added kept store ∧
        added.Sublist input.regs ∧ (∀ ref ∈ added, kept.next ref = none) ∧
        ∀ ref next, kept.next ref = some next → ref ∈ input.regs ∧ state.next ref = some next := by
  have keeps {ref : Ref} {next : Option Int}
      (found : (if (!input.removed ref && decide (ref ∈ input.regs)) = true then state.next ref else none) = some next) :
      ref ∈ input.regs ∧ state.next ref = some next := by
    split at found
    · next kept => exact ⟨of_decide_eq_true (Bool.and_eq_true_iff.mp kept).2, found⟩
    · cases found
  unfold PeriodicClient.periodicPass
  dsimp only
  split
  · exact .inl ⟨rfl, rfl, fun ref next found => (keeps found).2⟩
  · split
    · exact .inl ⟨rfl, rfl, fun ref next found => (keeps found).2⟩
    · next now read =>
      refine .inr ⟨now, _, _, read, rfl, filter_sublist, fun ref member => ?_, fun ref next found => keeps found⟩
      dsimp only
      split
      · exact Option.isNone_iff_eq_none.mp (mem_filter.mp member).2
      · rfl

end PeriodicClient

end Hopper.Client
