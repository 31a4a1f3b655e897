import Hopper.Client.Finalizer

/-! What each step of the finalizer does, said once. -/

namespace Hopper.Client

open List Option

/-- What one step of a submit leaves of it, of its finalizer `f` without it. -/
inductive SubmitStep (tuning : FinalizerTuning) (f : Finalizer) (before after : List Submit) (result : Pending) :
    Stage → Finalizer → Prop
  | take (room : result.logBytes = 0 ∨ f.used = 0 ∨ f.used + result.logBytes ≤ tuning.bufferedLogBytes ∨
      f.draining = true) :
      SubmitStep tuning f before after result .accepted
        { f with goroutines := before ++ ⟨result, .taken⟩ :: after, used := f.used + result.logBytes }
  | wait (early : f.draining = false) :
      SubmitStep tuning f before after result .accepted
        { f with goroutines := before ++ ⟨result, .waiting f.freed⟩ :: after }
  | retry (freed : Nat) :
      SubmitStep tuning f before after result (.waiting freed)
        { f with goroutines := before ++ ⟨result, .accepted⟩ :: after }
  | stamp (handedIn : Option Nat) :
      SubmitStep tuning f before after result .taken
        { f with goroutines := before ++ ⟨{ result with handedIn := handedIn }, .stamped⟩ :: after }
  | send :
      SubmitStep tuning f before after result .stamped
        { f with goroutines := before ++ ⟨result, .handed⟩ :: after, inbox := f.inbox ++ [result] }
  | refuse :
      SubmitStep tuning f before after result .refused
        { f with goroutines := before ++ ⟨result, .handed⟩ :: after, dropped := f.dropped ++ [result] }
  | count :
      SubmitStep tuning f before after result .handed
        { f with goroutines := before ++ ⟨result, .ended⟩ :: after, submitted := f.submitted + 1 }
  | leave :
      SubmitStep tuning f before after result .ended
        { f with goroutines := before ++ after, left := f.left || f.draining }
  | giveUp (stage : Stage) (waits : stage = .stamped ∨ ∃ freed, stage = .waiting freed) (done : f.done = true) :
      SubmitStep tuning f before after result stage
        { f with goroutines := before ++ ⟨result, .handed⟩ :: after, dropped := f.dropped ++ [result] }

/-- What one step of the loop does to it and its batch. -/
inductive LoopStep (tuning : FinalizerTuning) (f : Finalizer) : Loop → Finalizer → Prop
  | keep (result : Pending) (rest : List Pending) (timer : Option Nat) (logBytes : Nat)
      (inbox : f.inbox = result :: rest) :
      LoopStep tuning f .running
        { f with inbox := rest, batch := f.batch ++ [result], logBytes := logBytes, timer := timer }
  | fill (result : Pending) (rest : List Pending) (inbox : f.inbox = result :: rest) :
      LoopStep tuning f .running
        { f with
          inbox := rest, loop := .flushing false (f.batch ++ [result]) (f.batch ++ [result])
          flushed := f.flushed ++ (f.batch ++ [result]), batch := [], logBytes := 0, timer := none }
  | fire :
      LoopStep tuning f .running
        { f with
          loop := .flushing false f.batch f.batch, flushed := f.flushed ++ f.batch, batch := [], logBytes := 0
          timer := none }
  | crash (crashed : f.crashed = true) : LoopStep tuning f .running { f with loop := .returned }
  | drain : LoopStep tuning f .running { f with draining := true, loop := .collecting }
  | flushed (late : Bool) (batch untried : List Pending) (freed : Nat) :
      LoopStep tuning f (.flushing late batch untried)
        { f with
          used := f.used - bytes batch, freed := freed
          loop := if f.draining then .writing late else .running }
  | collect (result : Pending) (rest : List Pending) (inbox : f.inbox = result :: rest) :
      LoopStep tuning f .collecting { f with inbox := rest, batch := f.batch ++ [result] }
  | onTime (inbox : f.inbox = []) : LoopStep tuning f .collecting { f with loop := .writing false }
  | late (deadline freed : Nat) (inbox : f.inbox = []) :
      LoopStep tuning f .collecting
        { f with
          dropped := f.dropped ++ f.batch.filter (dropsLate deadline)
          used := f.used - bytes (f.batch.filter (dropsLate deadline)), freed := freed
          batch := f.batch.filter fun result => !dropsLate deadline result
          loop := .writing true }
  | settle (late : Bool) (deadline expiry : Option Nat) (batch : f.batch = [])
      (armed : expiry.isSome → f.deadline = none ∨ f.expiry.isSome) (isSet : deadline.isSome) :
      LoopStep tuning f (.writing late) { f with deadline := deadline, expiry := expiry, loop := .loading late }
  | piece (late : Bool) (n : Nat) (present : 0 < n) (batch : f.batch ≠ []) :
      LoopStep tuning f (.writing late)
        { f with
          loop := .flushing late (f.batch.take n) (f.batch.take n)
          flushed := f.flushed ++ f.batch.take n, batch := f.batch.drop n, logBytes := 0, timer := none }
  | load (late : Bool) : LoopStep tuning f (.loading late) { f with loop := .loaded late f.submits }
  | compare (late : Bool) (n : Nat) :
      LoopStep tuning f (.loaded late n) { f with loop := .compared late n (decide (f.submitted = n / 2)) }
  | report (late : Bool) (n : Nat) (same : Bool)
      (sure : n % 2 = 1 ∨ ((same && f.inbox.isEmpty) = false ∧ late = false)) :
      LoopStep tuning f (.compared late n same)
        { f with loop := if same && f.inbox.isEmpty then .returned else .waiting }
  | attempt (late : Bool) (n : Nat) (same : Bool) (even : n % 2 = 0) :
      LoopStep tuning f (.compared late n same) { f with loop := .swapping late n (same && f.inbox.isEmpty) }
  | swap (late : Bool) (n : Nat) (idle : Bool) (same : f.submits = n) :
      LoopStep tuning f (.swapping late n idle)
        { f with submits := n + 1, loop := if idle then .returned else .waiting }
  | reload (late : Bool) (n : Nat) (idle : Bool) (changed : f.submits ≠ n) :
      LoopStep tuning f (.swapping late n idle) { f with loop := .loading late }
  | receive (result : Pending) (rest : List Pending) (inbox : f.inbox = result :: rest) :
      LoopStep tuning f .waiting { f with inbox := rest, batch := f.batch ++ [result], loop := .collecting }
  | wake (left : f.left = true) : LoopStep tuning f .waiting { f with left := false, loop := .collecting }
  | expire (time : Nat) (armed : f.expiry = some time) :
      LoopStep tuning f .waiting { f with expiry := none, loop := .collecting }
  | close (unclosed : f.done = false) : LoopStep tuning f .returned { f with done := true }

inductive FinalizerStep (tuning : FinalizerTuning) (f : Finalizer) : Action → Finalizer → Prop
  | outside (action : Action) (outer : action = .tick ∨ action = .cancel ∨ action = .crash) (now : Nat)
      (canceled crashed : Bool) (stays : f.crashed = true → crashed = true) :
      FinalizerStep tuning f action { f with now := now, canceled := canceled, crashed := crashed }
  | submit (logBytes : Nat) (committed : Bool) :
      FinalizerStep tuning f (.submit logBytes committed) (f.startSubmit ⟨0, logBytes, committed, 0, none⟩)
  | deliver (action : Action) (before after : List Submit) (submit : Submit) (next : Finalizer)
      (acts : action = .deliver before.length ∨ action = .giveUp before.length ∧ submit.stage ≠ .handed)
      (there : f.goroutines = before ++ submit :: after)
      (step : SubmitStep tuning f before after submit.pending submit.stage next) :
      FinalizerStep tuning f action next
  | held (index : Nat) (late : Bool) (batch untried rest : List Pending) (result : Pending)
      (given : f.loop = .flushing late batch untried) :
      FinalizerStep tuning f (.held index) { f.holdAgain result with loop := .flushing late batch rest }
  | loop (action : Action)
      (acts : action ∈ [Action.receive, .fire, .drain, .loop, .wake, .expire, .close]) (next : Finalizer)
      (step : LoopStep tuning f f.loop next) : FinalizerStep tuning f action next

variable {index : Nat}

theorem split_at {Value : Type} {values : List Value} {value : Value} (found : values[index]? = some value) :
    ∃ pre post, pre.length = index ∧ values = pre ++ value :: post ∧
      (∀ other, values.set index other = pre ++ other :: post) ∧ values.eraseIdx index = pre ++ post := by
  obtain ⟨bound, rfl⟩ := List.getElem?_eq_some_iff.mp found
  have length := length_take_of_le (Nat.le_of_lt bound)
  refine ⟨values.take index, values.drop (index + 1), length, ?_, fun other => ?_, ?_⟩
  · rw [getElem_cons_drop bound, take_append_drop]
  · exact set_eq_take_append_cons_drop.trans (if_pos bound)
  · exact eraseIdx_eq_take_drop_succ values index

variable {tuning : FinalizerTuning} {f next : Finalizer} {submit : Submit}

theorem release_eq (n : Nat) : ∃ freed, f.release n = { f with used := f.used - n, freed := freed } := by
  unfold Finalizer.release
  split
  · next absent =>
    subst absent
    exact ⟨f.freed, by simp⟩
  · exact ⟨_, rfl⟩

theorem deliver_step (found : f.goroutines[index]? = some submit)
    (performed : f.deliver tuning index submit = some next) : FinalizerStep tuning f (.deliver index) next := by
  obtain ⟨pre, post, rfl, there, moved, erased⟩ := split_at found
  refine .deliver _ pre post submit next (.inl rfl) there ?_
  obtain ⟨result, stage⟩ := submit
  unfold Finalizer.deliver at performed
  simp only [Finalizer.setSubmit, Finalizer.drop, Finalizer.signalLeft, moved, erased] at performed
  cases stage with
  | accepted =>
    simp only at performed
    split at performed
    · next absent =>
      cases performed
      have taken : SubmitStep tuning f pre post result .accepted
          { f with goroutines := pre ++ ⟨result, .taken⟩ :: post, used := f.used + result.logBytes } :=
        .take (.inl absent)
      rwa [absent, Int.natCast_zero, Int.add_zero] at taken
    · split at performed
      · next fits =>
        cases performed
        exact .take (.inr fits)
      · next full =>
        cases performed
        refine .wait ?_
        simpa using (not_or.mp (not_or.mp full).2).2
  | waiting freed =>
    simp only at performed
    split at performed
    · cases performed
      exact .retry freed
    · cases performed
  | taken =>
    cases performed
    exact .stamp _
  | stamped =>
    simp only at performed
    split at performed
    · cases performed
      exact .send
    · cases performed
  | refused =>
    cases performed
    exact .refuse
  | handed =>
    cases performed
    exact .count
  | ended =>
    cases performed
    exact .leave

theorem giveUp_step (found : f.goroutines[index]? = some submit)
    (performed : f.giveUp index submit = some next) : FinalizerStep tuning f (.giveUp index) next := by
  obtain ⟨pre, post, rfl, there, moved, _⟩ := split_at found
  obtain ⟨result, stage⟩ := submit
  unfold Finalizer.giveUp at performed
  simp only [Finalizer.setSubmit, Finalizer.drop, moved] at performed
  have gives : (stage = .stamped ∨ ∃ freed, stage = .waiting freed) ∧ f.done = true ∧
      next = { f with goroutines := pre ++ ⟨result, .handed⟩ :: post, dropped := f.dropped ++ [result] } := by
    cases stage with
    | waiting freed =>
      simp only at performed
      split at performed
      · next done =>
        exact ⟨.inr ⟨freed, rfl⟩, done, (some.inj performed).symm⟩
      · cases performed
    | stamped =>
      simp only at performed
      split at performed
      · next done =>
        exact ⟨.inl rfl, done, (some.inj performed).symm⟩
      · cases performed
    | accepted | taken | refused | handed | ended => cases performed
  obtain ⟨waits, done, rfl⟩ := gives
  have unhanded : stage ≠ .handed := by
    rcases waits with rfl | ⟨freed, rfl⟩ <;> nofun
  exact .deliver _ pre post ⟨result, stage⟩ _ (.inr ⟨rfl, unhanded⟩) there (.giveUp stage waits done)

theorem receive_step {result : Pending} {rest : List Pending} (inbox : f.inbox = result :: rest)
    (performed : f.receive tuning result rest = some next) : LoopStep tuning f f.loop next := by
  unfold Finalizer.receive at performed
  cases given : f.loop with
  | running =>
    simp only [given] at performed
    split at performed
    · cases performed
      exact .fill result rest inbox
    · cases performed
      have kept : LoopStep tuning f .running _ := .keep result rest
        (f.timer.orElse fun _ => some (f.now + tuning.interval)) (f.logBytes + result.logBytes) inbox
      rw [given] at kept
      exact kept
  | waiting =>
    simp only [given] at performed
    cases performed
    exact .receive result rest inbox
  | flushing | collecting | writing | loading | loaded | compared | swapping | returned => simp [given] at performed

theorem pieceFrom_pos {batch : List Pending} (present : batch ≠ []) : 0 < pieceFrom tuning batch 0 0 := by
  have grows : ∀ (batch : List Pending) (n size : Nat), n ≤ pieceFrom tuning batch n size := by
    intro batch
    induction batch with
    | nil => exact fun n _ => Nat.le_refl n
    | cons result rest ih =>
      intro n size
      unfold pieceFrom
      split
      · exact Nat.le_trans (Nat.le_succ n) (ih _ _)
      · exact Nat.le_refl n
  cases batch with
  | nil => exact absurd rfl present
  | cons result rest =>
    rw [pieceFrom, if_pos ⟨tuning.maxBatch_pos, tuning.flushLogBytes_pos⟩]
    exact grows rest 1 _

theorem stepLoop_step (performed : f.stepLoop tuning = some next) : LoopStep tuning f f.loop next := by
  unfold Finalizer.stepLoop at performed
  cases given : f.loop with
  | running | waiting | returned => simp [given] at performed
  | flushing late batch untried =>
    simp only [given] at performed
    cases performed
    obtain ⟨freed, released⟩ := release_eq (f := f) (bytes batch)
    rw [released]
    exact .flushed late batch untried freed
  | collecting =>
    simp only [given] at performed
    split at performed
    · next result rest inbox =>
      cases performed
      have collected : LoopStep tuning f .collecting _ := .collect result rest inbox
      rw [given] at collected
      exact collected
    · next inbox =>
      split at performed
      · cases performed
        exact .onTime inbox
      · split at performed
        · next deadline _ _ =>
          cases performed
          obtain ⟨freed, released⟩ := release_eq (f := f.drop (f.batch.filter (dropsLate deadline)))
            (bytes (f.batch.filter (dropsLate deadline)))
          rw [released]
          exact .late deadline freed inbox
        · cases performed
          exact .onTime inbox
  | writing late =>
    simp only [given] at performed
    split at performed
    · next batch =>
      cases performed
      refine .settle late _ _ batch ?_ ?_
      · cases f.deadline with
        | none | some => simp
      · cases f.deadline with
        | none | some => simp
    · next batch =>
      cases performed
      exact .piece late _ (pieceFrom_pos batch) batch
  | loading late =>
    simp only [given] at performed
    cases performed
    exact .load late
  | loaded late n =>
    simp only [given] at performed
    cases performed
    exact .compare late n
  | compared late n same =>
    simp only [given] at performed
    split at performed
    · next sure =>
      cases performed
      exact .report late n same sure
    · next unsure =>
      cases performed
      have even : n % 2 = 0 := by
        have odd := (not_or.mp unsure).1
        omega
      exact .attempt late n same even
  | swapping late n idle =>
    simp only [given] at performed
    split at performed
    · next same =>
      cases performed
      exact .swap late n idle same
    · next changed =>
      cases performed
      exact .reload late n idle changed

theorem perform_step {action : Action} (performed : f.perform tuning action = some next) : FinalizerStep tuning f action next := by
  cases action with
  | tick =>
    cases performed
    exact .outside _ (.inl rfl) (f.now + 1) f.canceled f.crashed id
  | cancel =>
    cases performed
    exact .outside _ (.inr (.inl rfl)) f.now true f.crashed id
  | crash =>
    cases performed
    exact .outside _ (.inr (.inr rfl)) f.now f.canceled true fun _ => rfl
  | submit logBytes committed =>
    cases performed
    exact .submit logBytes committed
  | deliver =>
    obtain ⟨submit, found, performed⟩ := bind_eq_some_iff.mp performed
    exact deliver_step found performed
  | giveUp =>
    obtain ⟨submit, found, performed⟩ := bind_eq_some_iff.mp performed
    exact giveUp_step found performed
  | receive =>
    simp only [Finalizer.perform] at performed
    split at performed
    · cases performed
    · next result rest inbox =>
      exact .loop _ (by simp) next (receive_step inbox performed)
  | fire =>
    simp only [Finalizer.perform] at performed
    split at performed
    · next time given timer =>
      split at performed
      · cases performed
        refine .loop _ (by simp) _ ?_
        rw [given]
        exact .fire
      · cases performed
    · cases performed
  | drain =>
    simp only [Finalizer.perform] at performed
    split at performed
    · next given =>
      refine .loop _ (by simp) next ?_
      rw [given]
      split at performed
      · split at performed
        · next crashed =>
          cases performed
          exact .crash crashed
        · cases performed
          exact .drain
      · cases performed
    · cases performed
  | held index =>
    simp only [Finalizer.perform] at performed
    split at performed
    · next late batch untried given =>
      split at performed
      · next result found =>
        split at performed
        · cases performed
        · cases performed
          exact .held index late batch untried _ result given
      · cases performed
    · cases performed
  | loop => exact .loop _ (by simp) next (stepLoop_step performed)
  | wake =>
    simp only [Finalizer.perform] at performed
    split at performed
    · next given =>
      split at performed
      · next left =>
        cases performed
        refine .loop _ (by simp) _ ?_
        rw [given]
        exact .wake left
      · cases performed
    · cases performed
  | expire =>
    simp only [Finalizer.perform] at performed
    split at performed
    · next time given armed =>
      split at performed
      · cases performed
        refine .loop _ (by simp) _ ?_
        rw [given]
        exact .expire time armed
      · cases performed
    · cases performed
  | close =>
    simp only [Finalizer.perform] at performed
    split at performed
    · next both =>
      cases performed
      have closed : LoopStep tuning f .returned _ := .close both.2
      exact .loop _ (by simp) _ (both.1.symm ▸ closed)
    · cases performed

end Hopper.Client
