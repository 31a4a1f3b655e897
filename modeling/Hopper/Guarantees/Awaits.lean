import Hopper.Client.Await

/-! Every caller that awaits a job is woken, where no write to the array of waiters
takes a waiter from a call that has yet to come to it. -/

namespace Hopper.Guarantees

open List Option Client

/-- The call has read the waiter, and the waiter has no signal and is not canceled. -/
structure Owes (s : DoneWaiters) (walk : SignalDone) (ch : Nat) : Prop where
  read : ch < walk.before
  kept : ch ∉ s.canceled
  waiting : ¬s.Signaled ch

/-- The call's loop has yet to come to the waiter. -/
def FindsWaiter (s : DoneWaiters) (walk : SignalDone) (ch : Nat) : Prop :=
  ∃ i, walk.next ≤ i ∧ i < walk.len ∧ s.arrays walk.array i = ch

/-- A waiter is not put in the place past the end of the slice where a call would
find one it owes a signal, unless it finds that one before; and no waiter that a
call has gone past is removed while two are left, the next of which it owes a
signal. -/
def SparesWalks (s : DoneWaiters) : AwaitAct → Prop
  | .awaitDone _ => s.len < s.cap → ∀ walk ∈ s.signals, walk.array = s.array → walk.next ≤ s.len → s.len < walk.len →
      Owes s walk (s.arrays s.array s.len) →
      ∃ i, walk.next ≤ i ∧ i < s.len ∧ s.arrays s.array i = s.arrays s.array s.len
  | .awaitCancel ch => ∀ i, s.index? ch = some i → ∀ walk ∈ s.signals, walk.array = s.array → walk.next < walk.len →
      Owes s walk (s.arrays s.array walk.next) → walk.next ≤ i ∨ s.len ≤ walk.next + 1
  | .readWaiters | .signal _ | .receive _ => True

/-- The arrays in use are made, a waiter is in the slice until it is canceled, and a
call finds the waiters it owes a signal. -/
structure AwaitHolds (s : DoneWaiters) : Prop where
  room : s.len ≤ s.cap
  made : 0 < s.cap → s.array < s.nextArray
  walked : ∀ walk ∈ s.signals, 0 < walk.len → walk.array < s.nextArray
  live : ∀ ch < s.nextChan, ch ∉ s.canceled → ∃ i < s.len, s.arrays s.array i = ch
  finds : ∀ walk ∈ s.signals, ∀ ch, Owes s walk ch → FindsWaiter s walk ch

variable {s next : DoneWaiters} {walk : SignalDone} {ch : Nat}

theorem index?_eq_some {i : Nat} (found : s.index? ch = some i) : i < s.len ∧ s.arrays s.array i = ch := by
  have mem := mem_of_find?_eq_some found
  have same := find?_some found
  exact ⟨mem_range.mp mem, of_decide_eq_true same⟩

namespace AwaitHolds

theorem append (holds : AwaitHolds s) {cap : Nat} (grows : s.len < s.cap ∨ s.len < cap) (spares : SparesWalks s (.awaitDone cap)) :
    AwaitHolds { s.append s.nextChan cap with nextChan := s.nextChan + 1 } := by
  unfold DoneWaiters.append
  by_cases room : s.len < s.cap
  · rw [if_pos room]
    refine ⟨room, holds.made, holds.walked, fun ch made kept => ?_, fun walk mem ch owes => ?_⟩
    · by_cases new : ch = s.nextChan
      · exact ⟨s.len, Nat.lt_succ_self _, (if_pos ⟨rfl, rfl⟩).trans new.symm⟩
      · obtain ⟨i, within, same⟩ := holds.live ch (Nat.lt_of_le_of_ne (Nat.lt_succ_iff.mp made) new) kept
        exact ⟨i, Nat.lt_succ_of_lt within, (if_neg fun both => absurd both.2 within.ne).trans same⟩
    · obtain ⟨i, ahead, within, same⟩ := holds.finds walk mem ch ⟨owes.read, owes.kept, owes.waiting⟩
      by_cases place : walk.array = s.array ∧ i = s.len
      · -- The place is written over, so the call finds the waiter before it.
        obtain ⟨shared, rfl⟩ := place
        rw [shared] at same
        obtain ⟨j, further, pre, copy⟩ := spares room walk mem shared ahead within (same ▸ ⟨owes.read, owes.kept, owes.waiting⟩)
        refine ⟨j, further, pre.trans within, (if_neg fun both => absurd both.2 pre.ne).trans ?_⟩
        rw [shared, copy, same]
      · exact ⟨i, ahead, within, (if_neg place).trans same⟩
  · rw [if_neg room]
    refine ⟨grows.resolve_left room, fun _ => Nat.lt_succ_self _, fun walk mem present => Nat.lt_succ_of_lt (holds.walked walk mem present),
      fun ch made kept => ?_, fun walk mem ch owes => ?_⟩
    · by_cases new : ch = s.nextChan
      · exact ⟨s.len, Nat.lt_succ_self _, ((if_pos rfl).trans (if_neg (lt_irrefl _))).trans new.symm⟩
      · obtain ⟨i, within, same⟩ := holds.live ch (Nat.lt_of_le_of_ne (Nat.lt_succ_iff.mp made) new) kept
        exact ⟨i, Nat.lt_succ_of_lt within, ((if_pos rfl).trans (if_pos within)).trans same⟩
    · obtain ⟨i, ahead, within, same⟩ := holds.finds walk mem ch ⟨owes.read, owes.kept, owes.waiting⟩
      have old : walk.array ≠ s.nextArray := (holds.walked walk mem (by omega)).ne
      exact ⟨i, ahead, within, (if_neg old).trans same⟩

theorem remove (holds : AwaitHolds s) {i : Nat} (found : s.index? ch = some i) (spares : SparesWalks s (.awaitCancel ch)) :
    AwaitHolds { s.remove i with canceled := ch :: s.canceled } := by
  obtain ⟨within, here⟩ := index?_eq_some found
  have stays {array j : Nat} (apart : ¬(array = s.array ∧ i ≤ j ∧ j + 1 < s.len)) :
      (s.remove i).arrays array j = s.arrays array j := if_neg apart
  have moves {j : Nat} (after : i < j) (below : j < s.len) : (s.remove i).arrays s.array (j - 1) = s.arrays s.array j := by
    have place : j - 1 + 1 = j := by omega
    rw [← place] at below
    exact (if_pos ⟨rfl, by omega, below⟩).trans (congrArg _ place)
  refine ⟨?_, fun present => ?_, holds.walked, fun other made kept => ?_, fun walk mem other owes => ?_⟩
  · have := holds.room
    show s.len - 1 ≤ if s.len - 1 = 0 then 0 else s.cap
    split <;> omega
  · have := holds.room
    exact holds.made (by omega)
  · obtain ⟨apart, kept⟩ := ne_and_not_mem_of_not_mem_cons kept
    obtain ⟨j, below, same⟩ := holds.live other made kept
    rcases lt_trichotomy j i with pre | rfl | after
    · exact ⟨j, show j < s.len - 1 by omega, (stays (by omega)).trans same⟩
    · exact absurd (same.symm.trans here) apart
    · exact ⟨j - 1, show j - 1 < s.len - 1 by omega, (moves after below).trans same⟩
  · obtain ⟨apart, kept⟩ := ne_and_not_mem_of_not_mem_cons owes.kept
    have owed : Owes s walk other := ⟨owes.read, kept, owes.waiting⟩
    obtain ⟨j, ahead, within, same⟩ := holds.finds walk mem other owed
    by_cases shifted : walk.array = s.array ∧ i < j ∧ j + 1 < s.len
    · obtain ⟨shared, after, below⟩ := shifted
      have passed : walk.next ≠ j := by
        rintro rfl
        rw [shared] at same
        rcases spares i found walk mem shared within (same ▸ owed) with early | late <;> omega
      refine ⟨j - 1, by omega, by omega, ?_⟩
      show (s.remove i).arrays walk.array (j - 1) = other
      rw [shared, moves after (by omega), ← shared, same]
    · refine ⟨j, ahead, within, (stays fun all => shifted ⟨all.1, ?_, all.2.2⟩).trans same⟩
      refine Nat.lt_of_le_of_ne all.2.1 fun equal => apart ?_
      rw [← same, all.1, ← equal, here]

theorem step (holds : AwaitHolds s) {act : AwaitAct} (spares : SparesWalks s act) (stepped : s.step act = some next) :
    AwaitHolds next := by
  cases act with
  | awaitDone cap =>
    obtain ⟨grows, rfl⟩ := Option.ite_some_none_eq_some.mp stepped
    exact holds.append grows spares
  | awaitCancel ch =>
    obtain ⟨_, rfl⟩ := Option.ite_some_none_eq_some.mp stepped
    cases found : s.index? ch with
    | some i => exact holds.remove found spares
    | none =>
      refine ⟨holds.room, holds.made, holds.walked, fun other made kept => ?_, fun walk mem other owes => ?_⟩
      · exact holds.live other made (ne_and_not_mem_of_not_mem_cons kept).2
      · exact holds.finds walk mem other ⟨owes.read, (ne_and_not_mem_of_not_mem_cons owes.kept).2, owes.waiting⟩
  | readWaiters =>
    cases stepped
    refine ⟨holds.room, holds.made, fun walk mem present => ?_, holds.live, fun walk mem ch owes => ?_⟩
    · rcases List.mem_append.mp mem with old | new
      · exact holds.walked walk old present
      · cases mem_singleton.mp new
        exact holds.made (present.trans_le holds.room)
    · rcases List.mem_append.mp mem with old | new
      · exact holds.finds walk old ch ⟨owes.read, owes.kept, owes.waiting⟩
      · cases mem_singleton.mp new
        obtain ⟨i, within, same⟩ := holds.live ch owes.read owes.kept
        exact ⟨i, Nat.zero_le _, within, same⟩
  | signal call =>
    rw [DoneWaiters.step] at stepped
    cases there : s.signals[call]? with
    | none => rw [there] at stepped; cases stepped
    | some walk =>
      rw [there] at stepped
      obtain ⟨goes, rfl⟩ := Option.ite_some_none_eq_some.mp stepped
      have was : walk ∈ s.signals := mem_of_getElem? there
      have signaled {other : Nat} (waiting : ¬(other ∈ s.arrays walk.array walk.next :: s.full ∨ other ∈ s.received)) :
          other ≠ s.arrays walk.array walk.next ∧ ¬s.Signaled other :=
        ⟨fun same => waiting (.inl (same ▸ mem_cons_self)), fun signal => waiting (signal.imp_left (mem_cons_of_mem _))⟩
      refine ⟨holds.room, holds.made, fun other mem present => ?_, holds.live, fun other mem ch owes => ?_⟩
      · rcases mem_or_eq_of_mem_set mem with old | rfl
        · exact holds.walked other old present
        · exact holds.walked walk was present
      · obtain ⟨apart, waiting⟩ := signaled owes.waiting
        rcases mem_or_eq_of_mem_set mem with old | rfl
        · exact holds.finds other old ch ⟨owes.read, owes.kept, waiting⟩
        · obtain ⟨i, ahead, within, same⟩ := holds.finds walk was ch ⟨owes.read, owes.kept, waiting⟩
          have later : walk.next ≠ i := fun here => apart (here ▸ same.symm)
          exact ⟨i, Nat.lt_of_le_of_ne ahead later, within, same⟩
  | receive ch =>
    obtain ⟨full, rfl⟩ := Option.ite_some_none_eq_some.mp stepped
    refine ⟨holds.room, holds.made, holds.walked, holds.live, fun walk mem other owes => ?_⟩
    refine holds.finds walk mem other ⟨owes.read, owes.kept, fun signaled => owes.waiting ?_⟩
    by_cases same : other = ch
    · exact .inr (same ▸ mem_cons_self)
    · exact signaled.imp (fun full => mem_filter.mpr ⟨full, decide_eq_true same⟩) (mem_cons_of_mem _)

theorem reached (reached : AwaitReached SparesWalks s) : AwaitHolds s := by
  induction reached with
  | start => exact ⟨le_rfl, nofun, nofun, nofun, nofun⟩
  | step _ _ spares stepped ih => exact ih.step spares stepped

end AwaitHolds

/-- Where a call's loop has ended, every waiter that was there when it read them has
a signal or has received one, or was canceled. -/
theorem signalDone_wakes (s : DoneWaiters) (reached : AwaitReached SparesWalks s) :
    ∀ walk ∈ s.signals, walk.next = walk.len → ∀ ch < walk.before, ch ∉ s.canceled → s.Signaled ch := by
  intro walk member ended ch read kept
  by_contra waiting
  obtain ⟨i, ahead, within, _⟩ := (AwaitHolds.reached reached).finds walk member ch ⟨read, kept, waiting⟩
  omega

/-- Of two callers the first is woken and goes, before the second is. -/
theorem signalDone_wakes_two : ∃ s, AwaitReached SparesWalks s ∧ ⟨1, 2, 2, 2⟩ ∈ s.signals ∧ 1 ∉ s.canceled ∧ s.Signaled 1 := by
  have empty : AwaitReached SparesWalks {} := .start
  have one := empty.step (.awaitDone 1) (fun room => absurd room (by decide)) rfl
  have two := one.step (.awaitDone 2) (fun room => absurd room (by decide)) rfl
  have woken := (two.step .readWaiters trivial rfl).step (.signal 0) trivial rfl
  have gone := woken.step (.awaitCancel 0) (fun i _ walk member _ _ _ => .inr (by rw [mem_singleton.mp member]; decide)) rfl
  have ended := gone.step (.signal 0) trivial rfl
  exact ⟨_, ended, by decide, by decide, signalDone_wakes _ ended ⟨1, 2, 2, 2⟩ (by decide) rfl 1 (by decide) (by decide)⟩

/-- The first of three callers is woken and goes: the others move to the places
before theirs, and the call goes past the second. -/
theorem signalDone_skips : ∃ s, AwaitReached (fun _ _ => True) s ∧
    ∃ walk ∈ s.signals, walk.next = walk.len ∧ 1 < walk.before ∧ 1 ∉ s.canceled ∧ ¬s.Signaled 1 := by
  have empty : AwaitReached (fun _ _ => True) {} := .start
  have two := (empty.step (.awaitDone 1) trivial rfl).step (.awaitDone 2) trivial rfl
  have three := (two.step (.awaitDone 4) trivial rfl).step .readWaiters trivial rfl
  have gone := (three.step (.signal 0) trivial rfl).step (.awaitCancel 0) trivial rfl
  have ended := (gone.step (.signal 0) trivial rfl).step (.signal 0) trivial rfl
  exact ⟨_, ended, ⟨2, 3, 3, 3⟩, by decide, rfl, by decide, by decide, by unfold DoneWaiters.Signaled; decide⟩

end Hopper.Guarantees
