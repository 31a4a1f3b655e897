import Hopper.Client.PeriodicPass
import Hopper.Sqlite.Operation

/-! Periodic slots: those inserted rise, and none is lost while passes follow
each other within the leader TTL. -/

namespace Hopper.Client

open List Kernel Driver Sqlite

section
variable {Ref : Type} [DecidableEq Ref]

/-- What is asked of the registrations of a job: no unique options, and a
schedule of the slots, of whole microseconds, not too many for a lease. -/
structure PeriodicClient.Schedules (c : PeriodicClient Ref) (Slot : Int → Prop) (name : String) : Prop where
  whole : ∀ slot, Slot slot → 1000 ∣ slot
  plain : ∀ ref, (c.jobs ref).name = name → ∀ slot, ((c.jobs ref).params slot).uniqueKey = ""
  enumerates : ∀ ref, (c.jobs ref).name = name → (c.jobs ref).schedule.Enumerates Slot
  sparse : ∀ ref, (c.jobs ref).name = name → ∀ time,
    ((c.jobs ref).schedule.between time (time + c.tuning.leaderTTL)).length ≤ maxCatchUp

/-- Times, latest first, that are never more than a duration apart. -/
def Close (ttl : Int) (times : List Int) : Prop :=
  times.IsChain fun later earlier => later ≤ earlier + ttl

/-- What holds of a job in every state that is reached. -/
structure RunHolds (c : PeriodicClient Ref) (Slot : Int → Prop) (name : String) (s : PeriodicSystem Ref) (times : List Int) :
    Prop where
  tracked : Tracked name s.store
  started : times = [] ↔ s.store.slots name = []
  settled : Close c.tuning.leaderTTL times → ∀ time, times.head? = some time →
    Covered Slot (s.store.slots name) (· ≤ time)
  live : Close c.tuning.leaderTTL times →
    (∀ time, times.head? = some time → ∀ clock, s.clock = some clock → clock ≤ time + c.tuning.leaderTTL) →
    Gapless Slot name s.store ∧ ∀ ref next, (c.jobs ref).name = name → s.state.next ref = some next →
      Reaches Slot (s.store.slots name) next

variable {c : PeriodicClient Ref} {name : String} {Slot : Int → Prop} {s : PeriodicSystem Ref} {times : List Int}
  {input : PeriodicInput Ref} {now : Int}

theorem good_eq_some (good : s.good c input name = some now) :
    input.clock = some now ∧ ∃ ref ∈ (s.pass c input).done, (c.jobs ref).name = name := by
  unfold PeriodicSystem.good at good
  split at good
  · next done =>
    obtain ⟨ref, mem, own⟩ := any_eq_true.mp done
    exact ⟨good, ref, mem, of_decide_eq_true own⟩
  · cases good

omit [DecidableEq Ref] in
theorem followed_none (started : times = [] ↔ s.store.slots name = []) :
    followed (s.store.slots name) (s.store.slots name) none times = times := by
  unfold followed
  cases shape : s.store.slots name with
  | nil => exact (started.mpr shape).symm
  | cons => rfl

theorem RunHolds.done (holds : RunHolds c Slot name s times) (schedules : c.Schedules Slot name)
    (distinct : (input.regs.map fun ref => (c.jobs ref).name).Nodup)
    (stays : ∀ ref, (c.jobs ref).name = name → ∀ call, input.fate ref call ≠ .removed ∧ input.fate ref call ≠ .unbuilt)
    {kept : PeriodicState Ref} {added : List Ref} (part : added.Sublist input.regs)
    (unstarted : ∀ ref ∈ added, kept.next ref = none)
    (keeps : ∀ ref next, kept.next ref = some next → ref ∈ input.regs ∧ s.state.next ref = some next)
    (later : ∀ clock, s.clock = some clock → clock ≤ now) (close : Close c.tuning.leaderTTL times)
    (near : ∀ time, times.head? = some time → now ≤ time + c.tuning.leaderTTL) :
    c.PassDone Slot name input.regs now (c.passAt input now added kept s.store) := by
  obtain ⟨gapless, reaches⟩ := holds.live close fun time head clock given => Int.le_trans (later clock given) (near time head)
  refine PeriodicClient.passAt_done (fun ref own => ?_) distinct rfl part (fun ref mem _ => unstarted ref mem)
    ⟨gapless, fun ref next own found => ?_⟩ holds.tracked ?_
  · exact ⟨own, schedules.whole, schedules.plain ref own, schedules.enumerates ref own, schedules.sparse ref own, stays ref own⟩
  · obtain ⟨mem, pre⟩ := keeps ref next found
    exact ⟨mem, reaches ref next own pre⟩
  · cases times with
    | nil => exact holds.started.mp rfl ▸ .nil
    | cons time =>
      refine (holds.settled close time rfl).mono fun slot _ early => ?_
      have := near time rfl
      omega

omit [DecidableEq Ref] in
theorem RunHolds.idle (holds : RunHolds c Slot name s times)
    (later : ∀ now, input.clock = some now → ∀ clock, s.clock = some clock → clock ≤ now) {state : PeriodicState Ref}
    (keeps : ∀ ref next, state.next ref = some next → s.state.next ref = some next) :
    RunHolds c Slot name { store := s.store, state := state, clock := input.clock <|> s.clock } times := by
  refine ⟨holds.tracked, holds.started, holds.settled, fun close near => ?_⟩
  obtain ⟨gapless, reaches⟩ := holds.live close fun time head clock given => by
    have near := near time head
    dsimp only at near
    cases read : input.clock with
    | none =>
      rw [read] at near
      exact near clock given
    | some now =>
      rw [read] at near
      exact Int.le_trans (later now read clock given) (near now rfl)
  exact ⟨gapless, fun ref next own found => reaches ref next own (keeps ref next found)⟩

section
variable {now : Int} {pass : PeriodicPass Ref} {clock good : Option Int}

omit [DecidableEq Ref] in
theorem RunHolds.first (tracked : Tracked name pass.store) (done : c.PassDone Slot name input.regs now pass)
    (through : good.isSome = true → good = some now ∧ Covered Slot (pass.store.slots name) (· ≤ now)) :
    RunHolds c Slot name { store := pass.store, state := pass.state, clock := clock }
      (followed [] (pass.store.slots name) good []) := by
  have live := fun ref next own found => (done.next ref next own found).2
  cases post : pass.store.slots name with
  | nil => exact ⟨tracked, iff_of_true rfl post, nofun, fun _ _ => ⟨done.gapless, live⟩⟩
  | cons =>
    have present : pass.store.slots name ≠ [] := by rw [post]; nofun
    refine ⟨tracked, iff_of_false nofun present, fun _ time head => ?_, fun _ _ => ⟨done.gapless, live⟩⟩
    cases head
    cases good with
    | none =>
      intro oldest head slot _ later early
      dsimp only at head
      rw [post] at head
      cases head
      exact absurd early (Int.not_le.mpr later)
    | some =>
      obtain ⟨same, covered⟩ := through rfl
      cases same
      exact covered

omit [DecidableEq Ref] in
theorem RunHolds.follow (holds : RunHolds c Slot name s times) (present : s.store.slots name ≠ []) (grows : Grows name s.store pass.store)
    (done : Close c.tuning.leaderTTL times →
      (∀ time, times.head? = some time → now ≤ time + c.tuning.leaderTTL) → c.PassDone Slot name input.regs now pass)
    (through : good.isSome = true → good = some now ∧ ∃ ref ∈ pass.done, (c.jobs ref).name = name) :
    RunHolds c Slot name { store := pass.store, state := pass.state, clock := some now } (good.toList ++ times) := by
  obtain ⟨time, rest, rfl⟩ := exists_cons_of_ne_nil fun absent => present (holds.started.mp absent)
  have post : pass.store.slots name ≠ [] := fun absent => present (prefix_nil.mp (absent ▸ grows.slots))
  have tracked := grows.tracked holds.tracked
  cases good with
  | none =>
    refine ⟨tracked, iff_of_false nofun post, fun close time head => ?_, fun close near => ?_⟩
    · exact (holds.settled close time head).grow present grows.slots
    · have done := done close fun time head => near time head now rfl
      exact ⟨done.gapless, fun ref next own found => (done.next ref next own found).2⟩
  | some last =>
    obtain ⟨same, ref, member, own⟩ := through rfl
    obtain rfl := Option.some.inj same
    have done (close : Close c.tuning.leaderTTL (last :: time :: rest)) : c.PassDone Slot name input.regs last pass := by
      obtain ⟨near, close⟩ := isChain_cons_cons.mp close
      exact done close fun other head => Option.some.inj head ▸ near
    refine ⟨tracked, iff_of_false nofun post, fun close other head => ?_, fun close _ => ?_⟩
    · obtain rfl := Option.some.inj head
      exact (done close).through ref member own
    · exact ⟨(done close).gapless, fun ref next own found => ((done close).next ref next own found).2⟩

end

theorem RunHolds.pass (holds : RunHolds c Slot name s times) (schedules : c.Schedules Slot name)
    (distinct : (input.regs.map fun ref => (c.jobs ref).name).Nodup)
    (later : ∀ now, input.clock = some now → ∀ clock, s.clock = some clock → clock ≤ now)
    (stays : ∀ ref, (c.jobs ref).name = name → ∀ call, input.fate ref call ≠ .removed ∧ input.fate ref call ≠ .unbuilt) :
    RunHolds c Slot name { store := (s.pass c input).store, state := (s.pass c input).state, clock := input.clock <|> s.clock }
      (followed (s.store.slots name) ((s.pass c input).store.slots name) (s.good c input name) times) := by
  rcases c.periodicPass_cases input s.state s.store with
    ⟨same, absent, keeps⟩ | ⟨now, kept, added, read, shape, part, unstarted, keeps⟩
  · have good : s.good c input name = none := by
      unfold PeriodicSystem.good PeriodicSystem.pass
      rw [absent]
      rfl
    have same : (s.pass c input).store = s.store := same
    rw [good, same, followed_none holds.started]
    exact holds.idle later keeps
  · have shape : s.pass c input = c.passAt input now added kept s.store := shape
    have grows := shape ▸ PeriodicClient.passAt_grows schedules.plain stays added kept s.store
    have done (close : Close c.tuning.leaderTTL times) (near : ∀ time, times.head? = some time → now ≤ time + c.tuning.leaderTTL) :
        c.PassDone Slot name input.regs now (s.pass c input) :=
      shape ▸ holds.done schedules distinct stays part unstarted keeps (later now read) close near
    have through (present : (s.good c input name).isSome = true) :
        s.good c input name = some now ∧ ∃ ref ∈ (s.pass c input).done, (c.jobs ref).name = name := by
      obtain ⟨last, good⟩ := Option.isSome_iff_exists.mp present
      obtain ⟨same, processed⟩ := good_eq_some good
      exact ⟨good.trans (same.symm.trans read), processed⟩
    rw [read]
    cases pre : s.store.slots name with
    | nil =>
      obtain rfl := holds.started.mpr pre
      have done := done .nil nofun
      refine RunHolds.first (grows.tracked holds.tracked) done fun present => ?_
      obtain ⟨good, ref, mem, own⟩ := through present
      exact ⟨good, done.through ref mem own⟩
    | cons => exact holds.follow (by rw [pre]; nofun) grows done through

theorem PeriodicRun.holds (schedules : c.Schedules Slot name) (run : PeriodicRun c name s times) : RunHolds c Slot name s times := by
  induction run with
  | start store fresh =>
    refine ⟨⟨List.Pairwise.nil, ?_⟩, iff_of_true rfl rfl, by rintro _ _ ⟨⟩, fun _ _ => ⟨.nil, by rintro _ _ _ ⟨⟩⟩⟩
    rw [PeriodicStore.last, fresh]
    rfl
  | term run ih => exact ⟨ih.tracked, ih.started, ih.settled, fun close near => ⟨(ih.live close near).1, by rintro _ _ _ ⟨⟩⟩⟩
  | @other s _ run store kept ih =>
    have same : s.store.Same name { s.store with store := store } := by
      refine ⟨rfl, ?_⟩
      unfold PeriodicStore.last
      rw [kept]
    exact ⟨same.grows.tracked ih.tracked, ih.started, ih.settled, fun close near =>
      ⟨(ih.live close near).1.same same, (ih.live close near).2⟩⟩
  | pass run input distinct later stays ih => exact ih.pass schedules distinct later stays

end

end Hopper.Client

namespace Hopper.Guarantees

open List Kernel Sqlite Client

/-- A job every second, of the one registration there is. -/
def everySecond : PeriodicClient Unit where
  engine := Engine.counting
  tuning := { leaderTTL := 15000000000, leaderInterval := 5000000000 }
  jobs _ :=
    { name := "tick", schedule := intervalSchedule 1000000000 (by decide)
      params := fun _ => { kind := "tick", queue := "default", priority := 1, maxAttempts := 25 } }

theorem everySecond_schedules : everySecond.Schedules (fun slot => 1000000000 ∣ slot - zeroTime) "tick" where
  whole slot aligned := by
    unfold zeroTime at aligned
    omega
  plain _ _ _ := rfl
  enumerates _ _ := intervalSchedule_enumerates (by decide)
  sparse _ _ time := by
    refine Nat.le_trans (intervalSchedule_between_length (by decide) time _) ?_
    change ((time + 15000000000 - zeroTime) / 1000000000 - (time - zeroTime) / 1000000000).toNat ≤ 10000
    omega

/-- A pass at a time, whose inserts are done but for some. -/
def tickPass (now : Int) (fate : Nat → InsertFate) : PeriodicInput Unit where
  regs := [()]
  clock := some now
  read := now
  fate _ := fate

def tickAfter (input : PeriodicInput Unit) (run : PeriodicSystem Unit × List Int) : PeriodicSystem Unit × List Int :=
  ({ store := (run.1.pass everySecond input).store, state := (run.1.pass everySecond input).state
     clock := input.clock <|> run.1.clock },
    followed (run.1.store.slots "tick") ((run.1.pass everySecond input).store.slots "tick")
      (run.1.good everySecond input "tick") run.2)

/-- A leader inserts the first slot, another one fails after one that it thinks
failed, and a third goes on. -/
def tickRun : PeriodicSystem Unit × List Int :=
  let first := tickAfter (tickPass 1001100000000 fun _ => .sent 1001100000 false)
    (tickAfter (tickPass 1000200000000 fun _ => .sent 1000200000 false) (⟨⟨{}, []⟩, {}, none⟩, []))
  let second := tickAfter (tickPass 1005000000000 fun call => .sent 1005000000 (call == 2)) ({ first.1 with state := {} }, first.2)
  tickAfter (tickPass 1010000000000 fun _ => .sent 1010000000 false) ({ second.1 with state := {} }, second.2)

theorem tickRun_eq : tickRun.1.store.slots "tick" =
    [1001000000000, 1002000000000, 1003000000000, 1004000000000, 1005000000000, 1006000000000, 1007000000000,
      1008000000000, 1009000000000, 1010000000000] ∧ tickRun.2 = [1010000000000, 1001100000000] := by
  decide +kernel

theorem tickAfter_run (now : Int) (fate : Nat → InsertFate) {s : PeriodicSystem Unit} {times : List Int}
    (run : PeriodicRun everySecond "tick" s times) (later : ∀ clock, s.clock = some clock → clock ≤ now)
    (stays : ∀ call, fate call ≠ .removed ∧ fate call ≠ .unbuilt) :
    PeriodicRun everySecond "tick" (tickAfter (tickPass now fate) (s, times)).1 (tickAfter (tickPass now fate) (s, times)).2 :=
  run.pass (tickPass now fate) (nodup_singleton _)
    (fun _ same clock given => Option.some.inj same ▸ later clock given) fun _ _ => stays

theorem tickRun_run : PeriodicRun everySecond "tick" tickRun.1 tickRun.2 := by
  have begun : PeriodicRun everySecond "tick" ⟨⟨{}, []⟩, {}, none⟩ [] := .start {} rfl
  have waits := tickAfter_run 1000200000000 (fun _ => .sent 1000200000 false) begun nofun fun _ => ⟨nofun, nofun⟩
  have first := tickAfter_run 1001100000000 (fun _ => .sent 1001100000 false) waits
    (fun clock given => Option.some.inj given ▸ by decide) fun _ => ⟨nofun, nofun⟩
  have second := tickAfter_run 1005000000000 (fun call => .sent 1005000000 (call == 2)) first.term
    (fun clock given => Option.some.inj given ▸ by decide) fun _ => ⟨nofun, nofun⟩
  exact tickAfter_run 1010000000000 (fun _ => .sent 1010000000 false) second.term
    (fun clock given => Option.some.inj given ▸ by decide) fun _ => ⟨nofun, nofun⟩

end Hopper.Guarantees
