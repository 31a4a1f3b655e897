import Hopper.Client.PeriodicSteps

/-! What the loops of a periodic pass keep: the slots inserted rise, and none
before the one they have come to is left out. -/

namespace Hopper.Client

open List Option Kernel Driver Sqlite

/-! The slots inserted. -/

/-- The slots inserted rise, and the last is the one recorded. -/
structure Tracked (name : String) (s : PeriodicStore) : Prop where
  rises : (s.slots name).Pairwise fun one other => one / 1000 < other / 1000
  last : s.last name = (s.slots name).getLast?.map (· / 1000)

structure Grows (name : String) (before after : PeriodicStore) : Prop where
  tracked : Tracked name before → Tracked name after
  slots : before.slots name <+: after.slots name

section
variable {s : PeriodicStore} {name : String}
variable {post : PeriodicStore}

theorem Grows.refl (s : PeriodicStore) : Grows name s s :=
  ⟨id, prefix_refl _⟩

theorem Grows.trans {middle : PeriodicStore} (one : Grows name s middle) (other : Grows name middle post) : Grows name s post :=
  ⟨fun tracked => other.tracked (one.tracked tracked), one.slots.trans other.slots⟩

theorem PeriodicStore.Same.grows (same : s.Same name post) : Grows name s post where
  tracked tracked := ⟨same.slots ▸ tracked.rises, by rw [same.last, same.slots, tracked.last]⟩
  slots := same.slots ▸ prefix_refl _

theorem PeriodicStore.Advanced.grows {slot : Int} (advanced : s.Advanced name slot post) : Grows name s post := by
  refine ⟨fun tracked => ⟨?_, by rw [advanced.last, advanced.slots, getLast?_concat, map_some]⟩,
    advanced.slots ▸ prefix_append _ _⟩
  rw [advanced.slots, pairwise_append]
  refine ⟨tracked.rises, pairwise_singleton _ _, fun old mem new same => ?_⟩
  obtain rfl := mem_singleton.mp same
  have rises := tracked.rises
  obtain ⟨last, found⟩ : ∃ last, (s.slots name).getLast? = some last :=
    ⟨_, getLast?_eq_some_getLast (ne_nil_of_mem mem)⟩
  have newer := advanced.newer (last / 1000) (by rw [tracked.last, found, map_some])
  obtain ⟨pre, split⟩ := getLast?_eq_some_iff.mp found
  rw [split] at rises mem
  rcases List.mem_append.mp mem with early | late
  · exact Int.lt_trans ((pairwise_append.mp rises).2.2 old early last (mem_singleton_self last)) newer
  · rw [mem_singleton.mp late]
    exact newer

/-- The slots of a schedule that are after the first inserted, and within a
bound, were inserted. -/
def Covered (Slot : Int → Prop) (slots : List Int) (bound : Int → Prop) : Prop :=
  ∀ first, slots.head? = some first → ∀ slot, Slot slot → first < slot → bound slot → slot ∈ slots

def Gapless (Slot : Int → Prop) (name : String) (s : PeriodicStore) : Prop :=
  Covered Slot (s.slots name) fun slot => ∃ last, s.last name = some last ∧ slot / 1000 ≤ last

/-- No slot before one was left out; no slot at all, if there is none to come. -/
def Reaches (Slot : Int → Prop) (slots : List Int) (next : Option Int) : Prop :=
  Covered Slot slots fun slot => ∀ bound, next = some bound → slot < bound

variable {Slot : Int → Prop}
variable {slots : List Int} {bound : Int → Prop}

theorem Covered.mono {wide narrow : Int → Prop} (covered : Covered Slot slots wide)
    (within : ∀ slot, Slot slot → narrow slot → wide slot) : Covered Slot slots narrow :=
  fun first head slot isSlot post bound => covered first head slot isSlot post (within slot isSlot bound)

theorem Covered.nil : Covered Slot [] bound :=
  nofun

theorem Covered.grow {more : List Int} (covered : Covered Slot slots bound) (present : slots ≠ [])
    (grown : slots <+: more) : Covered Slot more bound := by
  obtain ⟨rest, rfl⟩ := grown
  intro first head slot isSlot post within
  refine mem_append_left _ (covered first ?_ slot isSlot post within)
  rw [← head, head?_append_of_ne_nil _ present]

theorem Gapless.same {post : PeriodicStore} (same : s.Same name post) (gapless : Gapless Slot name s) :
    Gapless Slot name post := by
  unfold Gapless
  rw [same.slots, same.last]
  exact gapless

theorem Covered.reaches {schedule : Ticks} (enumerates : schedule.Enumerates Slot) {time : Int}
    (covered : Covered Slot slots (· ≤ time)) : Reaches Slot slots (schedule.next time) := by
  refine covered.mono fun slot isSlot pre => ?_
  cases found : schedule.next time with
  | none => exact enumerates.last time found slot isSlot
  | some next =>
    have early := pre next found
    by_contra late
    have := (enumerates.least time next found).2 slot isSlot (Int.not_le.mp late)
    omega

end

section
variable {s : PeriodicStore} {name : String} {Slot : Int → Prop} {engine : Engine} {job : PeriodicJob}
variable {fate : Nat → InsertFate}

/-- An insert leaves no slot before its own out, nor its own if it is done. -/
structure SlotDone (Slot : Int → Prop) (name : String) (slot : Int) (result : Bool × PeriodicStore) : Prop where
  gapless : Gapless Slot name result.2
  before : Covered Slot (result.2.slots name) (· < slot)
  through : result.1 = true → Covered Slot (result.2.slots name) (· ≤ slot)

theorem insertPeriodic_done (own : job.name = name) (whole : ∀ slot, Slot slot → 1000 ∣ slot) {slot : Int}
    (plain : (job.params slot).uniqueKey = "") {fate : InsertFate} (stays : fate ≠ .removed ∧ fate ≠ .unbuilt)
    (gapless : Gapless Slot name s) (covered : Covered Slot (s.slots name) (· < slot)) :
    SlotDone Slot name slot (insertPeriodic engine job slot s fate) := by
  rcases insertPeriodic_own engine own plain stays with ⟨same, older⟩ | advanced
  · refine ⟨gapless.same same, same.slots ▸ covered, fun done => same.slots ▸ gapless.mono fun other _ pre => ?_⟩
    obtain ⟨last, found, old⟩ := older done
    exact ⟨last, found, by omega⟩
  · have upTo : Covered Slot ((insertPeriodic engine job slot s fate).2.slots name) (· ≤ slot) := by
      rw [advanced.slots]
      intro first head other isSlot post pre
      by_cases same : other = slot
      · exact mem_append_right _ (mem_singleton.mpr same)
      · cases shape : s.slots name with
        | nil =>
          rw [shape] at head
          cases head
          omega
        | cons =>
          rw [shape] at head covered
          exact mem_append_left _ (covered first head other isSlot post (by omega))
    refine ⟨upTo.mono fun other isSlot ⟨last, found, pre⟩ => ?_, upTo.mono fun _ _ pre => Int.le_of_lt pre, fun _ => upTo⟩
    cases advanced.last.symm.trans found
    have := whole other isSlot
    omega

theorem insertPeriodic_grows (plain : job.name = name → ∀ slot, (job.params slot).uniqueKey = "")
    (slot : Int) {fate : InsertFate} (stays : job.name = name → fate ≠ .removed ∧ fate ≠ .unbuilt) :
    Grows name s (insertPeriodic engine job slot s fate).2 := by
  by_cases own : job.name = name
  · rcases insertPeriodic_own engine own (plain own slot) (stays own) with ⟨same, _⟩ | advanced
    · exact same.grows
    · exact advanced.grows
  · exact (insertPeriodic_other engine own slot fate).grows

theorem insertSlots_grows (plain : job.name = name → ∀ slot, (job.params slot).uniqueKey = "")
    (stays : job.name = name → ∀ call, fate call ≠ .removed ∧ fate call ≠ .unbuilt)
    (slots : List Int) (walk : Walk) : Grows name walk.store (insertSlots engine job fate slots walk).store := by
  induction slots generalizing walk with
  | nil => exact .refl _
  | cons slot rest ih =>
    have one : Grows name walk.store (insertPeriodic engine job slot walk.store (fate walk.calls)).2 :=
      insertPeriodic_grows plain slot fun own => stays own walk.calls
    unfold insertSlots
    split
    · next failed =>
      rw [failed] at one
      exact one
    · next store done =>
      rw [done] at one
      exact one.trans (ih { next := job.schedule.next slot, calls := walk.calls + 1, store := store })

/-- A loop leaves no slot out before the one it has come to, and none up to a
time if it is done. -/
structure WalkDone (Slot : Int → Prop) (name : String) (now : Int) (before after : Walk) : Prop where
  gapless : Gapless Slot name after.store
  through : after.inserted = true → Covered Slot (after.store.slots name) (· ≤ now)
  reaches : Reaches Slot (before.store.slots name) before.next → Reaches Slot (after.store.slots name) after.next

theorem insertSlots_done (own : job.name = name) (whole : ∀ slot, Slot slot → 1000 ∣ slot)
    (plain : ∀ slot, (job.params slot).uniqueKey = "") (enumerates : job.schedule.Enumerates Slot)
    (stays : ∀ call, fate call ≠ .removed ∧ fate call ≠ .unbuilt) {now : Int}
    {first : Option Int} {walk : Walk} (gapless : Gapless Slot name walk.store)
    (reaches : Reaches Slot (walk.store.slots name) first) :
    WalkDone Slot name now walk (insertSlots engine job fate (job.schedule.listed first now) walk) := by
  generalize listed : job.schedule.listed first now = slots
  induction slots generalizing first walk with
  | nil =>
    refine ⟨gapless, fun _ => reaches.mono fun slot _ pre bound found => ?_, id⟩
    rw [found, Ticks.listed_some] at listed
    split at listed
    · cases listed
    · omega
  | cons slot rest ih =>
    cases first with
    | none => cases listed
    | some tick =>
      rw [Ticks.listed_some] at listed
      split at listed
      · obtain ⟨rfl, further⟩ := List.cons.inj listed
        have pre := reaches.mono fun _ _ early _ same => some.inj same ▸ early
        have one : SlotDone Slot name tick (insertPeriodic engine job tick walk.store (fate walk.calls)) :=
          insertPeriodic_done own whole (plain tick) (stays walk.calls) gapless pre
        unfold insertSlots
        split
        · next failed =>
          rw [failed] at one
          exact ⟨one.gapless, nofun, fun _ => one.before.mono fun _ _ early => early tick rfl⟩
        · next store done =>
          rw [done] at one
          have reached := (one.through rfl).reaches enumerates
          let later : Walk := { next := job.schedule.next tick, calls := walk.calls + 1, store := store }
          have more := @ih _ later one.gapless reached further
          exact ⟨more.gapless, more.through, fun _ => more.reaches reached⟩
      · cases listed

end

namespace PeriodicClient

variable {Ref : Type} {c : PeriodicClient Ref} {name : String} {Slot : Int → Prop} {job : PeriodicJob}
  {fate : Nat → InsertFate}

/-- What is asked of a job: it has no unique options, its schedule is of whole
microseconds and not too many, and it is neither removed nor unbuilt. -/
structure Regular (c : PeriodicClient Ref) (Slot : Int → Prop) (name : String) (job : PeriodicJob)
    (fate : Nat → InsertFate) : Prop where
  own : job.name = name
  whole : ∀ slot, Slot slot → 1000 ∣ slot
  plain : ∀ slot, (job.params slot).uniqueKey = ""
  enumerates : job.schedule.Enumerates Slot
  sparse : ∀ time, (job.schedule.between time (time + c.tuning.leaderTTL)).length ≤ maxCatchUp
  stays : ∀ call, fate call ≠ .removed ∧ fate call ≠ .unbuilt

variable {now : Int} {store : PeriodicStore}

theorem missed_done (regular : c.Regular Slot name job fate) {last : Int} {walk : Walk} (gapless : Gapless Slot name walk.store)
    (covered : Covered Slot (walk.store.slots name) fun slot => slot ≤ last ∨ slot ≤ now - c.tuning.leaderTTL) :
    WalkDone Slot name now walk (insertSlots c.engine job fate (c.missedSlots job last now) walk) := by
  obtain ⟨start, _, within, shape⟩ := c.missedSlots_eq regular.enumerates regular.sparse last now
  have through : Covered Slot (walk.store.slots name) (· ≤ start) := covered.mono fun slot _ pre => by omega
  rw [shape, Ticks.between]
  exact insertSlots_done regular.own regular.whole regular.plain regular.enumerates regular.stays gapless
    (through.reaches regular.enumerates)

theorem goOn_done (regular : c.Regular Slot name job fate) {heldUp : Bool} {next : Option Int}
    (gapless : Gapless Slot name store) (reaches : Reaches Slot (store.slots name) next)
    (covered : Covered Slot (store.slots name) (· ≤ now - c.tuning.leaderTTL)) :
    WalkDone Slot name now { next := next, store := store } (c.goOn job fate now heldUp next store) := by
  have further {walk : Walk} (gapless : Gapless Slot name walk.store) (reaches : Reaches Slot (walk.store.slots name) walk.next) :
      WalkDone Slot name now walk (insertSlots c.engine job fate (job.schedule.listed walk.next now) walk) :=
    insertSlots_done regular.own regular.whole regular.plain regular.enumerates regular.stays gapless reaches
  unfold PeriodicClient.goOn
  cases next with
  | none => exact further gapless reaches
  | some n =>
    dsimp only
    split
    · have below : Covered Slot (store.slots name) fun slot => slot ≤ n - 1 ∨ slot ≤ now - c.tuning.leaderTTL := by
        intro first head slot isSlot post pre
        rcases pre with early | early
        · exact reaches first head slot isSlot post fun bound same => by
            cases same
            omega
        · exact covered first head slot isSlot post early
      let start : Walk := { next := job.schedule.next (now - c.tuning.leaderTTL), store := store }
      have missed : WalkDone Slot name now start (insertSlots c.engine job fate (c.missedSlots job (n - 1) now) start) :=
        missed_done regular gapless below
      have reached := missed.reaches (covered.reaches regular.enumerates)
      split
      · have more := further missed.gapless reached
        exact ⟨more.gapless, more.through, fun _ => more.reaches reached⟩
      · next failed => exact ⟨missed.gapless, fun done => absurd done failed, fun _ => reached⟩
    · exact further gapless reaches

/-- A start leaves no slot out, and none up to its time if it is done. -/
structure StartDone (Slot : Int → Prop) (name : String) (now : Int) (result : Option (Option Int) × PeriodicStore) :
    Prop where
  gapless : Gapless Slot name result.2
  through : ∀ next, result.1 = some next → Covered Slot (result.2.slots name) (· ≤ now)
  reaches : ∀ next, result.1 = some next → Reaches Slot (result.2.slots name) next

theorem startPeriodic_done (regular : c.Regular Slot name job fate) (tracked : Tracked name store)
    (gapless : Gapless Slot name store) (covered : Covered Slot (store.slots name) (· ≤ now - c.tuning.leaderTTL)) :
    StartDone Slot name now (c.startPeriodic job fate now ((store.last name).map (· * 1000)) store) := by
  let start : Walk := { next := none, store := store }
  have missed : WalkDone Slot name now start (((store.last name).map (· * 1000)).elim start fun last =>
      insertSlots c.engine job fate (c.missedSlots job last now) start) := by
    cases found : store.last name with
    | none =>
      have empty : store.slots name = [] := by
        have last := tracked.last
        rw [found, eq_comm, map_eq_none_iff, getLast?_eq_none_iff] at last
        exact last
      refine ⟨gapless, fun _ => ?_, id⟩
      change Covered Slot (store.slots name) _
      rw [empty]
      exact .nil
    | some last =>
      refine missed_done regular gapless fun first head slot isSlot post pre => ?_
      rcases pre with early | early
      · have early : slot ≤ last * 1000 := early
        exact gapless first head slot isSlot post ⟨last, found, by omega⟩
      · exact covered first head slot isSlot post early
  unfold PeriodicClient.startPeriodic
  dsimp only
  generalize Option.elim _ _ _ = walk at missed ⊢
  split
  · next done =>
    have through := missed.through done
    split
    · have one : SlotDone Slot name now (insertPeriodic c.engine job now walk.store (fate walk.calls)) :=
        insertPeriodic_done regular.own regular.whole (regular.plain now) (regular.stays walk.calls) missed.gapless
          (through.mono fun _ _ pre => Int.le_of_lt pre)
      split
      · next failed =>
        rw [failed] at one
        exact ⟨one.gapless, nofun, nofun⟩
      · next inserted =>
        rw [inserted] at one
        have through := one.through rfl
        exact ⟨one.gapless, fun _ _ => through, fun next same => some.inj same ▸ through.reaches regular.enumerates⟩
    · exact ⟨missed.gapless, fun _ _ => through, fun next same => some.inj same ▸ through.reaches regular.enumerates⟩
  · exact ⟨missed.gapless, nofun, nofun⟩

end PeriodicClient

end Hopper.Client
