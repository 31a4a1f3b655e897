import Mathlib.Data.List.Basic

/-! Ticks: points of time, each found as the next after another. -/

namespace Hopper.Kernel

open List

/-- What finds the next point after a time, if there is one. -/
structure Ticks where
  next : Int → Option Int
  later : ∀ time tick, next time = some tick → time < tick

namespace Ticks

section
variable (ticks : Ticks)

def upTo (limit : Int) : Nat → Option Int → List Int
  | fuel + 1, some tick => if tick ≤ limit then tick :: upTo limit fuel (ticks.next tick) else []
  | 0, _ | _, none => []

def room (limit : Int) : Option Int → Nat
  | none => 0
  | some tick => (limit - tick + 1).toNat

def listed (first : Option Int) (limit : Int) : List Int :=
  ticks.upTo limit (room limit first) first

def between (after limit : Int) : List Int :=
  ticks.listed (ticks.next after) limit

end

variable {ticks : Ticks} {limit : Int}

theorem room_next {tick : Int} (within : tick ≤ limit) : room limit (ticks.next tick) < room limit (some tick) := by
  cases found : ticks.next tick with
  | none =>
    simp only [room]
    omega
  | some later =>
    have := ticks.later tick later found
    simp only [room]
    omega

theorem upTo_congr {fuel other : Nat} {first : Option Int} (enough : room limit first ≤ fuel)
    (otherEnough : room limit first ≤ other) : ticks.upTo limit fuel first = ticks.upTo limit other first := by
  induction fuel generalizing other first with
  | zero =>
    cases first with
    | none => cases other <;> rfl
    | some =>
      cases other with
      | zero => rfl
      | succ =>
        simp only [room] at enough
        rw [upTo, upTo, if_neg (by omega)]
  | succ fuel ih =>
    cases first with
    | none => cases other <;> rfl
    | some tick =>
      by_cases within : tick ≤ limit
      · have less : room limit (ticks.next tick) < room limit (some tick) := room_next within
        cases other with
        | zero => omega
        | succ other =>
          have same : ticks.upTo limit fuel (ticks.next tick) = ticks.upTo limit other (ticks.next tick) :=
            ih (by omega) (by omega)
          rw [upTo, upTo, if_pos within, if_pos within, same]
      · cases other with
        | zero => rw [upTo, upTo, if_neg within]
        | succ => rw [upTo, upTo, if_neg within, if_neg within]

@[simp] theorem listed_none : ticks.listed none limit = [] :=
  rfl

theorem listed_some (tick : Int) :
    ticks.listed (some tick) limit = if tick ≤ limit then tick :: ticks.between tick limit else [] := by
  have enough : room limit (some tick) ≤ room limit (some tick) + 1 := Nat.le_succ _
  rw [listed, upTo_congr (Nat.le_refl _) enough, upTo]
  split
  · next within =>
    rw [between, listed, upTo_congr (Nat.le_of_lt (room_next within)) (Nat.le_refl _)]
  · rfl

theorem between_induction (ticks : Ticks) (limit : Int) {motive : Int → Prop} (stop : ∀ time, ticks.between time limit = [] → motive time)
    (step : ∀ time tick, ticks.next time = some tick → tick ≤ limit →
      ticks.between time limit = tick :: ticks.between tick limit → motive tick → motive time) (time : Int) :
    motive time := by
  generalize size : (limit - time).toNat = count
  induction count using Nat.strongRecOn generalizing time with
  | ind count ih =>
    cases found : ticks.next time with
    | none => exact stop time (by rw [between, found, listed_none])
    | some tick =>
      have later := ticks.later time tick found
      by_cases within : tick ≤ limit
      · refine step time tick found within ?_ (ih _ (by omega) tick rfl)
        rw [between, found, listed_some, if_pos within]
      · exact stop time (by rw [between, found, listed_some, if_neg within])

theorem pairwise_between (post limit : Int) :
    (ticks.between post limit).Pairwise (· < ·) ∧ ∀ tick ∈ ticks.between post limit, post < tick := by
  induction post using between_induction ticks limit with
  | stop time empty =>
    rw [empty]
    exact ⟨.nil, forall_mem_nil _⟩
  | step time tick found within shape ih =>
    have later := ticks.later time tick found
    rw [shape]
    refine ⟨pairwise_cons.mpr ⟨ih.2, ih.1⟩, forall_mem_cons.mpr ⟨later, fun other mem => ?_⟩⟩
    have := ih.2 other mem
    omega

/-- The ticks found are the points of a set, each the least after the time. -/
structure Enumerates (ticks : Ticks) (Tick : Int → Prop) : Prop where
  least : ∀ time tick, ticks.next time = some tick → Tick tick ∧ ∀ other, Tick other → time < other → tick ≤ other
  last : ∀ time, ticks.next time = none → ∀ other, Tick other → other ≤ time

section
variable {Tick : Int → Prop}
variable {post : Int} {mid : Int}

section
variable (enumerates : ticks.Enumerates Tick)
include enumerates

theorem Enumerates.next_of_le {mid tick : Int}
    (found : ticks.next post = some tick) (le : post ≤ mid) (lt : mid < tick) : ticks.next mid = some tick := by
  obtain ⟨isTick, least⟩ := enumerates.least post tick found
  cases other : ticks.next mid with
  | none =>
    have := enumerates.last mid other tick isTick
    omega
  | some first =>
    obtain ⟨isFirst, firstLeast⟩ := enumerates.least mid first other
    have later := ticks.later mid first other
    have one := least first isFirst (by omega)
    have two := firstLeast tick isTick lt
    exact congrArg some (by omega)

theorem Enumerates.mem_between {tick : Int} :
    tick ∈ ticks.between post limit ↔ Tick tick ∧ post < tick ∧ tick ≤ limit := by
  induction post using between_induction ticks limit with
  | stop time empty =>
    rw [empty]
    refine ⟨nofun, fun ⟨isTick, post, within⟩ => ?_⟩
    cases found : ticks.next time with
    | none =>
      have := enumerates.last time found tick isTick
      omega
    | some first =>
      have least := (enumerates.least time first found).2 tick isTick post
      rw [between, found, listed_some, if_pos (by omega)] at empty
      cases empty
  | step time first found within shape ih =>
    obtain ⟨isFirst, least⟩ := enumerates.least time first found
    have later := ticks.later time first found
    rw [shape, mem_cons, ih]
    constructor
    · rintro (rfl | ⟨isTick, post, within⟩)
      · exact ⟨isFirst, later, within⟩
      · exact ⟨isTick, by omega, within⟩
    · rintro ⟨isTick, post, within⟩
      have := least tick isTick post
      by_cases same : tick = first
      · exact .inl same
      · exact .inr ⟨isTick, by omega, within⟩

theorem Enumerates.between_split (limit : Int) (le : post ≤ mid) :
    ∃ skipped, ticks.between post limit = skipped ++ ticks.between mid limit ∧ ∀ tick ∈ skipped, tick ≤ mid := by
  induction post using between_induction ticks limit with
  | stop time empty =>
    refine ⟨[], ?_, forall_mem_nil _⟩
    rw [empty, nil_append, eq_comm, eq_nil_iff_forall_not_mem]
    intro tick mem
    obtain ⟨isTick, post, within⟩ := enumerates.mem_between.mp mem
    have := enumerates.mem_between.mpr ⟨isTick, Int.lt_of_le_of_lt le post, within⟩
    rw [empty] at this
    cases this
  | step time first found within shape ih =>
    by_cases early : first ≤ mid
    · obtain ⟨skipped, split, pre⟩ := ih early
      refine ⟨first :: skipped, by rw [shape, split, cons_append], fun tick mem => ?_⟩
      rcases mem_cons.mp mem with rfl | rest
      · exact early
      · exact pre tick rest
    · refine ⟨[], ?_, forall_mem_nil _⟩
      have same := enumerates.next_of_le found le (by omega)
      rw [nil_append, between, between, found, same]

end

theorem drop_between (le : post ≤ mid) {skipped : List Int}
    (split : ticks.between post limit = skipped ++ ticks.between mid limit) (pre : ∀ tick ∈ skipped, tick ≤ mid)
    {count : Nat} (few : count ≤ skipped.length) :
    ∃ start, post ≤ start ∧ start ≤ mid ∧ (ticks.between post limit).drop count = ticks.between start limit := by
  induction count generalizing post skipped with
  | zero => exact ⟨post, Int.le_refl _, le, rfl⟩
  | succ count ih =>
    cases skipped with
    | nil => cases few
    | cons tick =>
      cases found : ticks.next post with
      | none =>
        rw [between, found, listed_none] at split
        cases split
      | some first =>
        have shape : ticks.between post limit = first :: ticks.between first limit := by
          rw [between, found, listed_some] at split ⊢
          split at split
          · next within => rw [if_pos within]
          · cases split
        rw [shape, cons_append, List.cons.injEq] at split
        obtain ⟨rfl, split⟩ := split
        obtain ⟨start, ge, within, dropped⟩ := ih (pre first mem_cons_self) split
          (fun tick mem => pre tick (mem_cons_of_mem _ mem)) (Nat.le_of_succ_le_succ few)
        have later := ticks.later post first found
        refine ⟨start, by omega, within, ?_⟩
        rw [shape, drop_succ_cons, dropped]

end

end Ticks

end Hopper.Kernel
