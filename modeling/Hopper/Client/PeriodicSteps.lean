import Hopper.Client.Periodic

/-! What the steps of a periodic pass come to: the slots it looks back for, and
its inserts. -/

namespace Hopper.Client

open List Option Kernel Driver Sqlite

/-! The slots a search finds. -/

variable {kept all : List Int}

theorem keepRecent_foldl {n : Nat} (slots : List Int) (suffix : kept <:+ all)
    (enough : min n all.length ≤ kept.length) :
    slots.foldl (keepRecent n) kept <:+ all ++ slots ∧ min n (all ++ slots).length ≤ (slots.foldl (keepRecent n) kept).length := by
  induction slots generalizing kept all with
  | nil =>
    rw [append_nil]
    exact ⟨suffix, enough⟩
  | cons slot rest ih =>
    have split : all ++ slot :: rest = (all ++ [slot]) ++ rest := by rw [append_assoc, singleton_append]
    rw [foldl_cons, split]
    refine ih ?_ ?_
    · unfold keepRecent
      split
      · exact suffix_append_inj_of_length_eq rfl |>.mpr ⟨(drop_suffix n kept).trans suffix, rfl⟩
      · exact suffix_append_inj_of_length_eq rfl |>.mpr ⟨suffix, rfl⟩
    · unfold keepRecent
      split
      · rw [length_append, length_append, length_drop, length_singleton]
        omega
      · rw [length_append, length_append, length_singleton]
        omega

theorem drop_suffix_eq {n : Nat} (suffix : kept <:+ all) (enough : min n all.length ≤ kept.length) :
    kept.drop (kept.length - n) = all.drop (all.length - n) := by
  obtain ⟨pre, rfl⟩ := suffix
  rw [length_append] at enough ⊢
  by_cases many : n ≤ kept.length
  · rw [show pre.length + kept.length - n = pre.length + (kept.length - n) by omega, drop_append,
      drop_eq_nil_of_le (Nat.le_add_right _ _), nil_append, Nat.add_sub_cancel_left]
  · have empty : pre = [] := eq_nil_of_length_eq_zero (by omega)
    rw [empty, nil_append, length_nil, Nat.zero_add]

section
variable {schedule : Ticks} {Slot : Int → Prop} {last now : Int} {n fuel : Nat}

theorem collectSlots_eq {time : Int} (enough : (now - time).toNat < fuel) (slots : List Int) :
    collectSlots schedule.next now n fuel (schedule.next time) slots =
      some ((schedule.between time now).foldl (keepRecent n) slots) := by
  induction time using Ticks.between_induction schedule now generalizing fuel slots with
  | stop time empty =>
    cases fuel with
    | zero => cases enough
    | succ =>
      rw [empty, foldl_nil]
      cases found : schedule.next time with
      | none => rfl
      | some tick =>
        rw [Ticks.between, found, Ticks.listed_some] at empty
        split at empty
        · cases empty
        · rw [collectSlots, if_pos (by omega)]
  | step time tick found within shape ih =>
    have later := schedule.later time tick found
    cases fuel with
    | zero => cases enough
    | succ => rw [found, collectSlots, if_neg (by omega), ih (by omega), shape, foldl_cons]

theorem lookBack_eq {next : Int → Option Int} (enumerates : schedule.Enumerates Slot)
    (collects : ∀ time fuel, last ≤ time → (now - time).toNat < fuel →
      collectSlots next now n fuel (next time) [] = some ((schedule.between time now).foldl (keepRecent n) []))
    {span w : Int} {rounds : Nat} (enough : (span - w).toNat < rounds) (more : rounds + (now - last).toNat < fuel)
    (wide : 0 < w ∨ span ≤ w) (inside : span ≤ w ∨ span ≤ now - last) :
    lookBack next last now n span fuel w = some ((schedule.between last now).drop ((schedule.between last now).length - n)) := by
  induction rounds generalizing fuel w with
  | zero => cases enough
  | succ rounds ih =>
    cases fuel with
    | zero => cases more
    | succ fuel =>
      rw [lookBack]
      obtain ⟨start, named⟩ : ∃ start, start = if span ≤ w then last else now - w := ⟨_, rfl⟩
      rw [← named]
      have post : last ≤ start := by
        rw [named]
        split <;> omega
      rw [collects start fuel post (by omega), Option.bind_eq_bind, Option.bind_some]
      obtain ⟨kept, many⟩ := @keepRecent_foldl [] [] n (schedule.between start now) (suffix_refl []) (Nat.min_le_right _ _)
      rw [nil_append] at kept many
      obtain ⟨skipped, split, _⟩ := enumerates.between_split now post
      have suffix : schedule.between start now <:+ schedule.between last now := ⟨skipped, split.symm⟩
      split
      · next found =>
        rw [drop_suffix_eq kept many]
        rcases found with found | reached
        · have := kept.length_le
          rw [drop_suffix_eq suffix (by omega)]
        · rw [show start = last by omega]
      · next short =>
        have reached : ¬span ≤ w := fun reached => short (.inr (by rw [named, if_pos reached]))
        refine ih ?_ (by omega) ?_ (.inr (by omega))
        · split <;> omega
        · split <;> omega

theorem recentSlots_eq {next : Int → Option Int} (enumerates : schedule.Enumerates Slot)
    (collects : ∀ time fuel, last ≤ time → (now - time).toNat < fuel →
      collectSlots next now n fuel (next time) [] = some ((schedule.between time now).foldl (keepRecent n) []))
    {rounds : Nat} (enough : slotRounds last now ≤ rounds) : recentSlots next last now n rounds =
      some ((schedule.between last now).drop ((schedule.between last now).length - n)) := by
  have saturated : subTime now last ≤ 0 ∨ subTime now last ≤ now - last := by
    unfold subTime
    omega
  unfold slotRounds at enough
  exact lookBack_eq enumerates collects (Nat.lt_succ_self _) (by omega) (by omega) (by omega)

theorem PeriodicClient.missedSlots_eq {Ref : Type} (c : PeriodicClient Ref) {job : PeriodicJob}
    (enumerates : job.schedule.Enumerates Slot)
    (sparse : ∀ time, (job.schedule.between time (time + c.tuning.leaderTTL)).length ≤ maxCatchUp) (last now : Int) :
    ∃ start, last ≤ start ∧ start ≤ max last (now - c.tuning.leaderTTL) ∧
      c.missedSlots job last now = job.schedule.between start now := by
  obtain ⟨mid, named⟩ : ∃ mid, mid = max last (now - c.tuning.leaderTTL) := ⟨_, rfl⟩
  have few : (job.schedule.between mid now).length ≤ maxCatchUp := by
    have bound := sparse (now - c.tuning.leaderTTL)
    rw [Int.sub_add_cancel] at bound
    obtain ⟨skipped, split, _⟩ := enumerates.between_split now (show now - c.tuning.leaderTTL ≤ mid by omega)
    rw [split, length_append] at bound
    omega
  have found (last : Int) (n : Nat) : job.recentSlots last now n =
      (job.schedule.between last now).drop ((job.schedule.between last now).length - n) := by
    rw [PeriodicJob.recentSlots, recentSlots_eq enumerates (fun _ _ _ enough => collectSlots_eq enough []) le_rfl, Option.getD_some]
  have window : job.recentSlots mid now maxCatchUp = job.schedule.between mid now := by
    rw [found, Nat.sub_eq_zero_of_le few, drop_zero]
  have le : last ≤ mid := by omega
  unfold PeriodicClient.missedSlots
  rw [← named, window]
  dsimp only
  split
  · exact ⟨mid, le, Int.le_refl _, rfl⟩
  · next opts _ =>
    split
    · exact ⟨mid, le, Int.le_refl _, rfl⟩
    · next more =>
      rw [found]
      obtain ⟨skipped, split, pre⟩ := enumerates.between_split now le
      refine Ticks.drop_between le split pre ?_
      rw [split, length_append]
      omega

end

/-! The slots of an interval. -/

section
variable {interval : Int} (positive : 0 < interval)

theorem intervalSchedule_next (time : Int) : (intervalSchedule interval positive).next time =
    some (zeroTime + interval * ((time - zeroTime) / interval + 1)) := by
  have := Int.emod_add_mul_ediv (time - zeroTime) interval
  have := Int.mul_add interval ((time - zeroTime) / interval) 1
  refine congrArg some ?_
  rw [intervalNext, if_neg (by omega), truncate]
  omega

theorem intervalSchedule_enumerates : (intervalSchedule interval positive).Enumerates fun slot => interval ∣ slot - zeroTime := by
  refine ⟨fun time tick found => ?_, fun time none => ?_⟩
  · rw [intervalSchedule_next positive] at found
    cases found
    refine ⟨?_, fun other aligned post => ?_⟩
    · exact ⟨(time - zeroTime) / interval + 1, by omega⟩
    · obtain ⟨count, same⟩ := aligned
      have below : (time - zeroTime) / interval < count := Int.ediv_lt_of_lt_mul positive (by rw [Int.mul_comm]; omega)
      have := Int.mul_le_mul_of_nonneg_left (Int.add_one_le_of_lt below) positive.le
      omega
  · rw [intervalSchedule_next positive] at none
    cases none

theorem intervalSchedule_between_length (time limit : Int) : ((intervalSchedule interval positive).between time limit).length ≤
      ((limit - zeroTime) / interval - (time - zeroTime) / interval).toNat := by
  induction time using Ticks.between_induction (intervalSchedule interval positive) limit with
  | stop time empty =>
    rw [empty]
    exact Nat.zero_le _
  | step time tick found within shape ih =>
    rw [intervalSchedule_next positive] at found
    cases found
    have here : (zeroTime + interval * ((time - zeroTime) / interval + 1) - zeroTime) / interval =
        (time - zeroTime) / interval + 1 := by
      rw [Int.add_comm, Int.add_sub_cancel, Int.mul_ediv_cancel_left _ positive.ne']
    have more := Int.ediv_le_ediv positive (Int.sub_le_sub_right within zeroTime)
    rw [here] at ih more
    rw [shape, length_cons]
    omega

end

/-! Inserts. -/

theorem insertOne_periodic {x : W} {onConflict : ConflictAction} {job : JobInsert} (mints : job.id = 0)
    {pre post : Store} {result : JobInsertResult} (inserted : Yields (x.insertOne onConflict job) pre result post) :
    post.periodic = pre.periodic := by
  rcases W.yields_insertOne inserted with
    ⟨_, _, _, ⟨_, _, _, rfl⟩ | ⟨_, _, rfl⟩⟩ | ⟨_, _, _, _, _, ⟨_, rfl⟩ | ⟨_, counted⟩⟩ | ⟨_, _, _, stored⟩
  · rfl
  · rfl
  · rfl
  · obtain ⟨rows, counts⟩ := W.countBatch_counts counted
    exact counts.periodic
  · obtain ⟨_, _, _, rfl⟩ := W.yields_insertJob mints stored
    rfl

theorem insertOne_unique {x : W} {onConflict : ConflictAction} {job : JobInsert} (plain : job.uniqueKey = "")
    {pre post : Store} {result : JobInsertResult} (inserted : Yields (x.insertOne onConflict job) pre result post) :
    result.duplicate = false := by
  rcases W.yields_insertOne inserted with ⟨holder, found, _⟩ | ⟨_, named, _⟩ | ⟨_, _, fresh, _⟩
  · rw [W.liveDuplicate, if_pos plain] at found
    cases found
  · exact absurd plain named
  · exact fresh

namespace PeriodicStore

variable (s : PeriodicStore) (name : String)

def last : Option Int :=
  (s.store.periodic.find? name).map PeriodicRow.lastSlot

structure Same (after : PeriodicStore) : Prop where
  slots : after.slots name = s.slots name
  last : after.last name = s.last name

structure Advanced (slot : Int) (after : PeriodicStore) : Prop where
  newer : ∀ last, s.last name = some last → last < slot / 1000
  slots : after.slots name = s.slots name ++ [slot]
  last : after.last name = some (slot / 1000)

end PeriodicStore

section
variable {s : PeriodicStore} {name : String}
variable {job : PeriodicJob}

theorem PeriodicStore.Same.refl : s.Same name s :=
  ⟨rfl, rfl⟩

theorem PeriodicStore.Same.trans {middle post : PeriodicStore} (one : s.Same name middle) (other : middle.Same name post) :
    s.Same name post :=
  ⟨other.slots.trans one.slots, other.last.trans one.last⟩

theorem yields_periodicInsert {x : W} {params : PeriodicInsertParams} {pre post : Store}
    {reply : Option JobInsertResult} (inserted : Yields (x.periodicInsert params) pre reply post) :
    (reply = none ∧ post = pre ∧ ∃ row, pre.periodic.find? params.name = some row ∧ params.slot / 1000 ≤ row.lastSlot) ∨
    ∃ result, reply = some result ∧ (params.job.uniqueKey = "" → result.duplicate = false) ∧
      (∀ row, pre.periodic.find? params.name = some row → row.lastSlot < params.slot / 1000) ∧
      ∀ name, (post.periodic.find? name).map PeriodicRow.lastSlot =
        if params.name = name then some (params.slot / 1000)
        else (pre.periodic.find? name).map PeriodicRow.lastSlot := by
  simp only [W.periodicInsert, yields_bind, yields_ensure, yields_describing, yields_get] at inserted
  obtain ⟨job, _, ⟨encoded, rfl⟩, _, store, ⟨rfl, rfl⟩, inserted⟩ := inserted
  split at inserted
  · next stays =>
    obtain ⟨rfl, rfl⟩ := yields_pure.mp inserted
    refine .inl ⟨rfl, rfl, ?_⟩
    unfold W.advanceSlot at stays
    split at stays
    · next old =>
      cases found : post.periodic.find? params.name with
      | none =>
        rw [found] at old
        cases old
      | some row =>
        rw [found] at old
        exact ⟨row, rfl, of_decide_eq_true old⟩
    · cases stays
  · next advanced moved =>
    simp only [yields_bind, yields_set, yields_modify, yields_pure] at inserted
    obtain ⟨_, slotted, rfl, result, middle, inserted, _, _, rfl, rfl, rfl⟩ := inserted
    have kept := insertOne_periodic (by rw [encodeInsert_ok encoded]) inserted
    obtain ⟨notes, written⟩ := x.notify_eq channelInsert [job.queue] middle
    have plain : params.job.uniqueKey = "" → result.duplicate = false := by
      intro plain
      refine insertOne_unique ?_ inserted
      rw [encodeInsert_ok encoded]
      exact plain
    unfold W.advanceSlot at moved
    split at moved
    · cases moved
    · next newer =>
      cases moved
      refine .inr ⟨result, rfl, plain, fun row found => ?_, fun name => ?_⟩
      · rw [found, Option.any_some, decide_eq_true_eq] at newer
        omega
      · rw [written, kept, Table.find?_upsert]
        change Option.map _ (if params.name = name then _ else _) = _
        split
        · cases store.periodic.find? name <;> rfl
        · rfl

theorem insertPeriodic_other (engine : Engine) (differ : job.name ≠ name) (slot : Int) (fate : InsertFate) :
    s.Same name (insertPeriodic engine job slot s fate).2 := by
  cases fate with
  | sent =>
    unfold insertPeriodic
    dsimp only
    split
    · exact .refl
    · next reply post written =>
      rcases yields_periodicInsert written with ⟨rfl, rfl, _⟩ | ⟨result, rfl, _, _, found⟩
      · exact ⟨rfl, rfl⟩
      · refine ⟨?_, (found name).trans (if_neg differ)⟩
        unfold PeriodicStore.slots
        dsimp only
        split
        · rw [filter_append, filter_cons_of_neg (by simpa using differ), filter_nil, append_nil]
        · rfl
  | removed | ownerRemoved | unbuilt | refused => exact .refl

theorem insertPeriodic_own (engine : Engine) (own : job.name = name) {slot : Int}
    (plain : (job.params slot).uniqueKey = "") {fate : InsertFate} (stays : fate ≠ .removed ∧ fate ≠ .unbuilt) :
    s.Same name (insertPeriodic engine job slot s fate).2 ∧
        ((insertPeriodic engine job slot s fate).1 = true → ∃ last, s.last name = some last ∧ slot / 1000 ≤ last) ∨
      s.Advanced name slot (insertPeriodic engine job slot s fate).2 := by
  cases fate with
  | sent =>
    unfold insertPeriodic
    dsimp only
    split
    · exact .inl ⟨.refl, nofun⟩
    · next reply post written =>
      rcases yields_periodicInsert written with ⟨rfl, rfl, row, found, older⟩ | ⟨result, rfl, unique, newer, found⟩
      · refine .inl ⟨⟨rfl, rfl⟩, fun _ => ⟨row.lastSlot, ?_, older⟩⟩
        rw [PeriodicStore.last, ← own, found]
        rfl
      · refine .inr ⟨fun last there => ?_, ?_, (found name).trans (if_pos own)⟩
        · obtain ⟨row, held, rfl⟩ := map_eq_some_iff.mp there
          rw [← own] at held
          exact newer row held
        · unfold PeriodicStore.slots
          dsimp only
          rw [Option.any_some, unique plain, if_pos (show (!false) = true from rfl), filter_append, map_append,
            filter_cons_of_pos (by simpa using own)]
          rfl
  | removed => exact absurd rfl stays.1
  | ownerRemoved | refused => exact .inl ⟨.refl, nofun⟩
  | unbuilt => exact absurd rfl stays.2

theorem insertSlots_other (engine : Engine) (differ : job.name ≠ name) (fate : Nat → InsertFate) (slots : List Int)
    (walk : Walk) : walk.store.Same name (insertSlots engine job fate slots walk).store := by
  induction slots generalizing walk with
  | nil => exact .refl
  | cons slot rest ih =>
    have one : walk.store.Same name (insertPeriodic engine job slot walk.store (fate walk.calls)).2 :=
      insertPeriodic_other engine differ slot (fate walk.calls)
    unfold insertSlots
    split
    · next failed =>
      rw [failed] at one
      exact one
    · next store done =>
      rw [done] at one
      exact one.trans (ih { next := job.schedule.next slot, calls := walk.calls + 1, store := store })

end

end Hopper.Client
