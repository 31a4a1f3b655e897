import Mathlib.Data.List.Nodup
import Mathlib.Logic.Relation

/-! Counting down. A counter is opened for a number of items that are to
come; it is told of those that have gone, with their failures, and closes once
it expects no more. The tally keeps what truly happened beside what the
counter was told. -/

namespace Hopper.Kernel

open List Option

theorem countP_flip {Item : Type} {items : List Item} {item : Item} (pre post : Item → Bool)
    (distinct : items.Nodup) (mem : item ∈ items)
    (others : ∀ other ∈ items, other ≠ item → post other = pre other) :
    items.countP post + (pre item).toNat = items.countP pre + (post item).toNat := by
  induction items with
  | nil => cases mem
  | cons first rest ih =>
    rw [nodup_cons] at distinct
    by_cases same : first = item
    · subst same
      have rest : rest.countP post = rest.countP pre := by
        refine countP_congr fun other otherMem => ?_
        rw [others other (mem_cons_of_mem _ otherMem) fun same => distinct.1 (same ▸ otherMem)]
      rw [countP_cons, countP_cons, rest]
      cases pre first <;> cases post first <;> simp
    · have remaining := ih distinct.2 ((mem_cons.mp mem).resolve_left fun equal => same equal.symm)
        fun other otherMem => others other (mem_cons_of_mem _ otherMem)
      rw [countP_cons, countP_cons, others first mem_cons_self same]
      omega

structure Counter where
  total : Int
  pending : Int
  failed : Int
  closed : Bool

namespace Counter

def opened (total : Int) : Counter :=
  { total := total, pending := total, failed := 0, closed := false }

def count (counter : Counter) (gone failures : Int) : Counter :=
  if counter.closed then counter
  else if counter.pending - gone > 0 then
    { counter with pending := counter.pending - gone, failed := failures + counter.failed }
  else
    { counter with pending := 0, failed := failures + counter.failed, closed := true }

def closing (counter : Counter) (gone failures : Int) : List Int :=
  if counter.closed = false ∧ counter.pending - gone ≤ 0 then [failures + counter.failed] else []

def recount (counter : Counter) (failed : Bool) : Counter :=
  if counter.closed then counter
  else { counter with pending := counter.pending + 1, failed := counter.failed - if failed then 1 else 0 }

variable {counter : Counter} {gone : Int}

theorem count_closed (closed : counter.closed = true) (gone failures : Int) :
    counter.count gone failures = counter ∧ counter.closing gone failures = [] := by
  simp [count, closing, closed]

theorem count_remains (opened : counter.closed = false) (remains : 0 < counter.pending - gone)
    (failures : Int) : counter.count gone failures =
        { counter with pending := counter.pending - gone, failed := failures + counter.failed } ∧
      counter.closing gone failures = [] := by
  simp only [count, closing, opened, Bool.false_eq_true, if_false, gt_iff_lt, remains, if_true, true_and]
  exact if_neg (Int.not_le.mpr remains)

theorem count_closes (opened : counter.closed = false) (done : counter.pending - gone ≤ 0)
    (failures : Int) : counter.count gone failures =
        { counter with pending := 0, failed := failures + counter.failed, closed := true } ∧
      counter.closing gone failures = [failures + counter.failed] := by
  simp only [count, closing, opened, Bool.false_eq_true, if_false, gt_iff_lt, Int.not_lt.mpr done, done, and_self, if_true]

end Counter

/-- What happened to the items of a counter: how many came, are present, have
gone for good with a failure, and have gone without the counter being told. -/
structure Tally where
  arrived : Nat := 0
  present : Nat := 0
  failures : Nat := 0
  due : Nat := 0
  dueFailures : Nat := 0
  counter : Option Counter := none
  closings : List Int := []

namespace Tally

/-- One thing that can happen. Items come back to a closed counter only where
they may. -/
inductive Posts (again : Prop) : Tally → Tally → Prop where
  | opens (tally : Tally) (total : Int) (unopened : tally.counter = none) :
      Posts again tally { tally with counter := some (.opened total) }
  | comes (tally : Tally) (opened : tally.counter ≠ none) :
      Posts again tally { tally with arrived := tally.arrived + 1, present := tally.present + 1 }
  | passes (tally : Tally) (failed : Bool) (opened : tally.counter ≠ none) :
      Posts again tally { tally with
        arrived := tally.arrived + 1, failures := tally.failures + failed.toNat
        due := tally.due + 1, dueFailures := tally.dueFailures + failed.toNat }
  | goes (tally : Tally) (present : Nat) (failed : Bool) (was : tally.present = present + 1) :
      Posts again tally { tally with
        present := present, failures := tally.failures + failed.toNat
        due := tally.due + 1, dueFailures := tally.dueFailures + failed.toNat }
  | returns (tally : Tally) (failures : Nat) (failed : Bool) (was : tally.failures = failures + failed.toNat)
      (came : tally.arrived ≠ 0)
      (may : ∀ counter, tally.counter = some counter → counter.closed = true → again) :
      Posts again tally { tally with
        present := tally.present + 1, failures := failures
        counter := tally.counter.map fun counter => counter.recount failed }
  | counts (tally : Tally) :
      Posts again tally { tally with
        due := 0, dueFailures := 0
        counter := tally.counter.map fun counter => counter.count tally.due tally.dueFailures
        closings := (tally.counter.elim [] fun counter => counter.closing tally.due tally.dueFailures) ++
          tally.closings }

/-- What an open counter holds agrees with what happened. -/
structure Agrees (tally : Tally) (counter : Counter) : Prop where
  closings : tally.closings = []
  positive : 0 < counter.total → 0 < counter.pending
  pending : counter.pending + tally.arrived = counter.total + tally.present + tally.due
  failed : counter.failed + tally.dueFailures = tally.failures

/-- A counter agrees with what happened until it closes, which it does once. -/
structure Balanced (tally : Tally) : Prop where
  unopened : tally.counter = none → tally.arrived = 0 ∧ tally.present = 0 ∧ tally.failures = 0 ∧
    tally.due = 0 ∧ tally.dueFailures = 0 ∧ tally.closings = []
  opened : ∀ counter, tally.counter = some counter → counter.closed = false → tally.Agrees counter
  closed : ∀ counter, tally.counter = some counter → counter.closed = true → tally.closings = [counter.failed]

/-- A counter that has closed did so once all that were to come had come and
gone, with the failures among them. -/
def Settled (tally : Tally) : Prop :=
  ∀ counter, tally.counter = some counter → counter.closed = true → tally.arrived ≤ counter.total →
    tally.arrived = counter.total ∧ tally.present = 0 ∧ counter.failed = tally.failures

section
variable {again : Prop} {pre post : Tally}
variable {counter : Counter} {first last : Tally}

theorem balanced_empty : Balanced {} where
  unopened := fun _ => ⟨rfl, rfl, rfl, rfl, rfl, rfl⟩
  opened := nofun
  closed := nofun

private theorem balanced_of_same (balanced : Balanced pre) (present : pre.counter ≠ none)
    (counter : post.counter = pre.counter) (closings : post.closings = pre.closings)
    (agrees : ∀ counter, pre.Agrees counter → post.Agrees counter) : Balanced post where
  unopened := fun none => absurd (counter.symm.trans none) present
  opened := fun other is opened => agrees other (balanced.opened other (counter.symm.trans is) opened)
  closed := fun other is closed => closings.trans (balanced.closed other (counter.symm.trans is) closed)

private theorem balanced_counts (balanced : Balanced pre) : Balanced { pre with
      due := 0, dueFailures := 0
      counter := pre.counter.map fun counter => counter.count pre.due pre.dueFailures
      closings := (pre.counter.elim [] fun counter => counter.closing pre.due pre.dueFailures) ++ pre.closings } := by
  cases counted : pre.counter with
  | none =>
    obtain ⟨arrived, present, failures, _, _, closings⟩ := balanced.unopened counted
    exact ⟨fun _ => ⟨arrived, present, failures, rfl, rfl, closings⟩, nofun, nofun⟩
  | some counter =>
    cases closed : counter.closed with
    | true =>
      have closings := balanced.closed counter counted closed
      obtain ⟨same, none⟩ := counter.count_closed closed pre.due pre.dueFailures
      simp only [map_some, elim_some, same, none, nil_append]
      refine ⟨nofun, fun other is opened => ?_, fun other is _ => ?_⟩
      · cases is
        rw [closed] at opened
        cases opened
      · cases is
        exact closings
    | false =>
      have agrees := balanced.opened counter counted closed
      have pending := agrees.pending
      have failed := agrees.failed
      by_cases remains : 0 < counter.pending - pre.due
      · obtain ⟨same, none⟩ := Counter.count_remains closed remains pre.dueFailures
        simp only [map_some, elim_some, same, none, nil_append]
        refine ⟨nofun, fun other is _ => ?_, fun other is closes => ?_⟩
        · cases is
          exact ⟨agrees.closings, fun _ => remains, by dsimp only; omega, by dsimp only; omega⟩
        · cases is
          rw [closed] at closes
          cases closes
      · obtain ⟨same, closing⟩ := Counter.count_closes closed (Int.not_lt.mp remains) pre.dueFailures
        simp only [map_some, elim_some, same, closing, agrees.closings, append_nil]
        refine ⟨nofun, fun other is opened => ?_, fun other is _ => ?_⟩
        · cases is
          cases opened
        · cases is
          rfl

private theorem balanced_returns {failures : Nat} {failed : Bool} (balanced : Balanced pre)
    (was : pre.failures = failures + failed.toNat) (came : pre.arrived ≠ 0) :
    Balanced { pre with
      present := pre.present + 1, failures := failures
      counter := pre.counter.map fun counter => counter.recount failed } := by
  cases counted : pre.counter with
  | none => exact absurd (balanced.unopened counted).1 came
  | some counter =>
    cases closed : counter.closed with
    | true =>
      have closings := balanced.closed counter counted closed
      have same : counter.recount failed = counter := by simp [Counter.recount, closed]
      rw [map_some, same]
      refine ⟨nofun, fun other is opened => ?_, fun other is _ => ?_⟩
      · cases is
        rw [closed] at opened
        cases opened
      · cases is
        exact closings
    | false =>
      have agrees := balanced.opened counter counted closed
      have pending := agrees.pending
      have failures := agrees.failed
      have same : counter.recount failed =
          { counter with pending := counter.pending + 1, failed := counter.failed - if failed then 1 else 0 } := by
        simp [Counter.recount, closed]
      rw [map_some, same]
      refine ⟨nofun, fun other is _ => ?_, fun other is closes => ?_⟩
      · cases is
        refine ⟨agrees.closings, fun expects => ?_, by dsimp only; omega, ?_⟩
        · have positive := agrees.positive expects
          dsimp only
          omega
        · cases failed <;> simp at was ⊢ <;> omega
      · cases is
        rw [closed] at closes
        cases closes

section
variable (posts : Posts again pre post)
include posts

theorem Posts.balanced (balanced : Balanced pre) : Balanced post := by
  cases posts with
  | counts => exact balanced_counts balanced
  | returns failures failed was came => exact balanced_returns balanced was came
  | opens total unopened =>
    obtain ⟨arrived, present, failures, due, dueFailures, closings⟩ := balanced.unopened unopened
    refine ⟨nofun, fun other is _ => ?_, fun other is closes => ?_⟩
    · cases is
      exact ⟨closings, fun positive => positive, by simp [Counter.opened, arrived, present, due],
        by simp [Counter.opened, failures, dueFailures]⟩
    · cases is
      cases closes
  | comes opened =>
    refine balanced_of_same balanced opened rfl rfl fun counter agrees => ?_
    have pending := agrees.pending
    exact ⟨agrees.closings, agrees.positive, by dsimp only; omega, agrees.failed⟩
  | passes failed opened =>
    refine balanced_of_same balanced opened rfl rfl fun counter agrees => ?_
    have pending := agrees.pending
    have failures := agrees.failed
    exact ⟨agrees.closings, agrees.positive, by dsimp only; omega, by dsimp only; omega⟩
  | goes =>
    have opened : pre.counter ≠ none := by
      intro none
      have empty := (balanced.unopened none).2.1
      omega
    refine balanced_of_same balanced opened rfl rfl fun counter agrees => ?_
    have pending := agrees.pending
    have failures := agrees.failed
    exact ⟨agrees.closings, agrees.positive, by dsimp only; omega, by dsimp only; omega⟩

theorem Posts.frozen (is : pre.counter = some counter)
    (closed : counter.closed = true) : post.counter = some counter := by
  cases posts with
  | opens total unopened =>
    rw [unopened] at is
    cases is
  | comes | passes | goes => exact is
  | returns => simp [is, Counter.recount, closed]
  | counts => simp [is, Counter.count, closed]

theorem Posts.total (is : pre.counter = some counter) :
    ∃ later, post.counter = some later ∧ later.total = counter.total := by
  cases posts with
  | opens total unopened =>
    rw [unopened] at is
    cases is
  | comes | passes | goes => exact ⟨counter, is, rfl⟩
  | returns =>
    refine ⟨_, by rw [is, map_some], ?_⟩
    unfold Counter.recount
    split <;> rfl
  | counts =>
    refine ⟨_, by rw [is, map_some], ?_⟩
    unfold Counter.count
    split
    · rfl
    · split <;> rfl

theorem Posts.arrived_le : pre.arrived ≤ post.arrived := by
  cases posts <;> dsimp only <;> omega

end

theorem Posts.settled (posts : Posts False pre post) (balanced : Balanced pre)
    (settled : Settled pre) : Settled post := by
  cases posts with
  | opens =>
    intro counter is closed
    cases is
    cases closed
  | comes | passes =>
    intro counter is closed within
    have bound : pre.arrived ≤ counter.total := by dsimp only at within; omega
    have all := (settled counter is closed bound).1
    dsimp only at within
    omega
  | goes =>
    intro counter is closed within
    have none := (settled counter is closed within).2.1
    omega
  | returns failures failed was came may =>
    intro counter is closed within
    obtain ⟨old, counted, rfl⟩ := map_eq_some_iff.mp is
    have opened : old.closed = false := by
      cases state : old.closed with
      | false => rfl
      | true => exact (may old counted state).elim
    simp [Counter.recount, opened] at closed
  | counts =>
    intro counter is closed within
    obtain ⟨old, counted, rfl⟩ := map_eq_some_iff.mp is
    dsimp only at closed within ⊢
    cases state : old.closed with
    | true =>
      rw [(old.count_closed state _ _).1] at within ⊢
      exact settled old counted state within
    | false =>
      have agrees := balanced.opened old counted state
      have pending := agrees.pending
      have failed := agrees.failed
      by_cases remains : 0 < old.pending - pre.due
      · rw [(Counter.count_remains state remains _).1, state] at closed
        cases closed
      · have same := (Counter.count_closes state (Int.not_lt.mp remains) pre.dueFailures).1
        rw [same] at within ⊢
        dsimp only at within ⊢
        omega

/-! What postings keep over any number of them. -/

theorem posts_settled (posts : Relation.ReflTransGen (Tally.Posts False) first last) (balanced : first.Balanced)
    (settled : first.Settled) : last.Settled := by
  have both : last.Balanced ∧ last.Settled := by
    induction posts with
    | refl => exact ⟨balanced, settled⟩
    | tail _ post ih => exact ⟨post.balanced ih.1, post.settled ih.1 ih.2⟩
  exact both.2

variable (posts : Relation.ReflTransGen (Tally.Posts again) first last)
include posts

theorem posts_balanced (balanced : first.Balanced) : last.Balanced := by
  induction posts with
  | refl => exact balanced
  | tail _ post ih => exact post.balanced ih

theorem posts_frozen (is : first.counter = some counter) (closed : counter.closed = true) : last.counter = some counter := by
  induction posts with
  | refl => exact is
  | tail _ post ih => exact post.frozen ih closed

theorem posts_total (is : first.counter = some counter) : ∃ later, last.counter = some later ∧ later.total = counter.total := by
  induction posts with
  | refl => exact ⟨counter, is, rfl⟩
  | tail _ post ih =>
    obtain ⟨middle, found, same⟩ := ih
    obtain ⟨later, laterFound, laterSame⟩ := post.total found
    exact ⟨later, laterFound, laterSame.trans same⟩

theorem posts_arrived_le : first.arrived ≤ last.arrived := by
  induction posts with
  | refl => exact Nat.le_refl _
  | tail _ post ih => exact Nat.le_trans ih post.arrived_le

end

end Tally

end Hopper.Kernel
