import Hopper.Client.Backfill

/-! Back-fill: the search for missed slots ends, with the most recent of them. -/

namespace Hopper.Guarantees

open Kernel Client Client.Schedule

/-- The slots after one time and not after another, the oldest first. -/
structure SlotsBetween (Slot : Int → Prop) (last now : Int) (slots : List Int) : Prop where
  ascending : slots.Pairwise (· < ·)
  mem_iff : ∀ slot, slot ∈ slots ↔ Slot slot ∧ last < slot ∧ slot ≤ now

/-- Back-fill ends with the most recent slots, all of them if they are few. -/
theorem recentSlots_most_recent (s : Schedule) (Slot : Int → Prop) (finds : s.Finds Slot) (last now : Int) (n : Nat)
    (proper : ¬(Slot zeroTime ∧ last < zeroTime ∧ zeroTime ≤ now)) :
    ∃ slots, SlotsBetween Slot last now slots ∧
      ∃ enough, ∀ rounds ≥ enough, s.recentSlots last now n rounds = some (slots.drop (slots.length - n)) := by
  have enumerates := ticks_enumerates finds proper
  refine ⟨(s.ticks last now).between last now, ⟨(Ticks.pairwise_between last now).1, fun slot => ?_⟩,
    slotRounds last now, fun rounds enough => ?_⟩
  · rw [enumerates.mem_between]
    tauto
  · rw [Schedule.recentSlots]
    refine recentSlots_eq enumerates (fun time fuel post more => ?_) enough
    rw [collectSlots_ticks finds n fuel post, collectSlots_eq more]

/-! The slots of an interval, which the zero time is one of. -/

theorem finds_interval {interval : Int} (positive : 0 < interval) :
    (Schedule.interval interval).Finds fun slot => interval ∣ slot - zeroTime := by
  intro time
  have enumerates := intervalSchedule_enumerates positive
  obtain ⟨isSlot, least⟩ := enumerates.least time _ rfl
  exact .inl ⟨isSlot, (intervalSchedule interval positive).later time _ rfl, least⟩

def hour : Int := 3600000000000

theorem recentSlots_most_recent_hours : ∃ slots, SlotsBetween (fun slot => hour ∣ slot - zeroTime) 0 (10 * hour) slots ∧
      ∃ enough, ∀ rounds ≥ enough, (Schedule.interval hour).recentSlots 0 (10 * hour) 3 rounds = some (slots.drop (slots.length - 3)) :=
  recentSlots_most_recent _ _ (finds_interval (by decide)) 0 (10 * hour) 3 (by decide)

/-- A slot at the zero time ends the search before the slots after it. -/
theorem recentSlots_stops_at_zero : (Schedule.interval hour).Finds (fun slot => hour ∣ slot - zeroTime) ∧
      (Schedule.interval hour).recentSlots (zeroTime - 2 * hour) (zeroTime + hour) 10 100 = some [zeroTime - hour] ∧
      hour ∣ zeroTime + hour - zeroTime :=
  ⟨finds_interval (by decide), by decide, by decide⟩

end Hopper.Guarantees
