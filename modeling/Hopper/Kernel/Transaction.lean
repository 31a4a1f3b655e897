import Mathlib.Tactic.Common

/-! Transactions over a state that either return a value with the state they
leave, or fail and leave nothing behind. The laws below peel one statement off
a program at a time; nothing here depends on what the state holds. -/

namespace Hopper.Kernel

open List

/-- A program that reads and writes a state and may fail. -/
abbrev Transaction (State Failure : Type) := StateT State (Except Failure)

section
variable {State Failure Value Result Item : Type}
variable {program : Transaction State Failure Value} {pre post state : State} {value : Value} {done : PUnit}
variable {failure : Failure} {step : Item → Transaction State Failure Value} {results : List Value}
variable {items : List Item} {next : Value → Transaction State Failure Result} {result : Result}
variable {change : State → State} {checked : Except Failure Value} {describe : Failure → Failure}

def Yields (program : Transaction State Failure Value) (before : State)
    (value : Value) (after : State) : Prop :=
  program before = .ok (value, after)

/-- The program fails, so that whatever it wrote is rolled back. -/
def Fails (program : Transaction State Failure Value) (before : State)
    (failure : Failure) : Prop :=
  program before = .error failure

/-- What a state becomes once the program has committed or rolled back. -/
def committed (program : Transaction State Failure Value) (before : State) : State :=
  match program before with
  | .ok (_, after) => after
  | .error _ => before

def ensure (checked : Except Failure Value) : Transaction State Failure Value :=
  fun state => checked.map fun value => (value, state)

/-- The program with the failures it ends in described further. -/
def describing (describe : Failure → Failure) (program : Transaction State Failure Value) :
    Transaction State Failure Value :=
  fun state => (program state).mapError describe

theorem committed_cases (program : Transaction State Failure Value) (pre : State) :
    (∃ value, Yields program pre value (committed program pre)) ∨ committed program pre = pre := by
  unfold committed Yields
  cases outcome : program pre with
  | ok pair => exact .inl ⟨pair.1, rfl⟩
  | error => exact .inr rfl

theorem Yields.committed_eq (yielded : Yields program pre value post) : committed program pre = post := by
  unfold Yields at yielded
  simp [committed, yielded]

@[simp] theorem yields_pure {result : Value} :
    Yields (pure value : Transaction State Failure Value) pre result post ↔ result = value ∧ post = pre := by
  constructor
  · intro yielded
    cases yielded
    exact ⟨rfl, rfl⟩
  · rintro ⟨rfl, rfl⟩
    rfl

private theorem bind_apply (program : Transaction State Failure Value)
    (next : Value → Transaction State Failure Result) (pre : State) :
    (program >>= next) pre =
      match program pre with
      | .ok (value, middle) => next value middle
      | .error failure => .error failure := by
  cases outcome : program pre <;> simp [bind, StateT.bind, Except.bind, outcome]

@[simp] theorem yields_bind :
    Yields (program >>= next) pre result post ↔ ∃ value middle, Yields program pre value middle ∧
        Yields (next value) middle result post := by
  unfold Yields
  rw [bind_apply]
  cases outcome : program pre with
  | ok pair =>
    constructor
    · intro yielded
      exact ⟨pair.1, pair.2, rfl, yielded⟩
    · rintro ⟨value, middle, same, yielded⟩
      cases same
      exact yielded
  | error =>
    constructor
    · intro yielded
      cases yielded
    · rintro ⟨value, middle, same, yielded⟩
      cases same

@[simp] theorem yields_map {function : Value → Result} : Yields (function <$> program) pre result post ↔
      ∃ value, Yields program pre value post ∧ result = function value := by
  rw [map_eq_pure_bind, yields_bind]
  constructor
  · rintro ⟨value, middle, yielded, finished⟩
    obtain ⟨rfl, rfl⟩ := yields_pure.mp finished
    exact ⟨value, yielded, rfl⟩
  · rintro ⟨value, yielded, rfl⟩
    exact ⟨value, post, yielded, yields_pure.mpr ⟨rfl, rfl⟩⟩

theorem yields_return {function : Value → Result} : Yields (program >>= fun value => pure (function value)) pre result post ↔
      ∃ value, Yields program pre value post ∧ result = function value := by
  rw [← map_eq_pure_bind, yields_map]

@[simp] theorem yields_get : Yields (get : Transaction State Failure State) pre state post ↔
      state = pre ∧ post = pre := by
  constructor
  · intro yielded
    cases yielded
    exact ⟨rfl, rfl⟩
  · rintro ⟨rfl, rfl⟩
    rfl

theorem yields_get_bind {next : State → Transaction State Failure Result} :
    Yields (get >>= next) pre result post ↔ Yields (next pre) pre result post :=
  Iff.rfl

@[simp] theorem yields_set : Yields (set state : Transaction State Failure PUnit) pre done post ↔ post = state := by
  constructor
  · intro yielded
    cases yielded
    rfl
  · rintro rfl
    rfl

@[simp] theorem yields_modify :
    Yields (modify change : Transaction State Failure PUnit) pre done post ↔ post = change pre := by
  constructor
  · intro yielded
    cases yielded
    rfl
  · rintro rfl
    rfl

@[simp] theorem yields_throw : Yields (throw failure : Transaction State Failure Value) pre value post ↔ False := by
  constructor
  · intro yielded
    cases yielded
  · exact False.elim

@[simp] theorem yields_ensure :
    Yields (ensure checked) pre value post ↔ checked = .ok value ∧ post = pre := by
  unfold Yields ensure
  cases checked with
  | ok =>
    simp only [Except.map, Except.ok.injEq, Prod.mk.injEq]
    exact and_congr_right fun _ => eq_comm
  | error => simp [Except.map]

@[simp] theorem yields_describing :
    Yields (describing describe program) pre value post ↔ Yields program pre value post := by
  unfold Yields describing
  cases program pre <;> simp [Except.mapError]

@[simp] theorem yields_mapM_nil : Yields (List.mapM step []) pre results post ↔ results = [] ∧ post = pre := by
  rw [mapM_nil, yields_pure]

@[simp] theorem yields_mapM_cons {item : Item} : Yields (List.mapM step (item :: items)) pre results post ↔
      ∃ value middle rest, Yields (step item) pre value middle ∧
        Yields (List.mapM step items) middle rest post ∧ results = value :: rest := by
  rw [mapM_cons]
  simp only [yields_bind, yields_pure]
  constructor
  · rintro ⟨value, middle, first, rest, last, others, rfl, rfl⟩
    exact ⟨value, middle, rest, first, others, rfl⟩
  · rintro ⟨value, middle, rest, first, others, rfl⟩
    exact ⟨value, middle, first, rest, post, others, rfl, rfl⟩

theorem yields_mapM_length (yielded : Yields (List.mapM step items) pre results post) : results.length = items.length := by
  induction items generalizing pre results with
  | nil => rw [(yields_mapM_nil.mp yielded).1]; rfl
  | cons item items ih =>
    obtain ⟨value, middle, rest, _, others, rfl⟩ := yields_mapM_cons.mp yielded
    rw [length_cons, ih others, length_cons]

@[simp] theorem yields_forM_nil {step : Item → Transaction State Failure PUnit} :
    Yields (forM [] step) pre done post ↔ post = pre := by
  rw [forM_nil]
  simp

@[simp] theorem yields_forM_cons {step : Item → Transaction State Failure PUnit} {item : Item} :
    Yields (forM (item :: items) step) pre done post ↔ ∃ middle, Yields (step item) pre ⟨⟩ middle ∧
        Yields (forM items step) middle ⟨⟩ post := by
  rw [forM_cons]
  simp only [yields_bind]
  constructor
  · rintro ⟨value, middle, first, others⟩
    exact ⟨middle, first, others⟩
  · rintro ⟨middle, first, others⟩
    exact ⟨⟨⟩, middle, first, others⟩

@[simp] theorem fails_pure : Fails (pure value : Transaction State Failure Value) pre failure ↔ False := by
  constructor
  · intro failed
    cases failed
  · exact False.elim

@[simp] theorem fails_get : Fails (get : Transaction State Failure State) pre failure ↔ False := by
  constructor
  · intro failed
    cases failed
  · exact False.elim

@[simp] theorem fails_set : Fails (set state : Transaction State Failure PUnit) pre failure ↔ False := by
  constructor
  · intro failed
    cases failed
  · exact False.elim

@[simp] theorem fails_modify :
    Fails (modify change : Transaction State Failure PUnit) pre failure ↔ False := by
  constructor
  · intro failed
    cases failed
  · exact False.elim

@[simp] theorem fails_throw {thrown : Failure} : Fails (throw thrown : Transaction State Failure Value) pre failure ↔
      failure = thrown := by
  constructor
  · intro failed
    cases failed
    rfl
  · rintro rfl
    rfl

@[simp] theorem fails_ensure :
    Fails (ensure checked : Transaction State Failure Value) pre failure ↔ checked = .error failure := by
  unfold Fails ensure
  cases checked <;> simp [Except.map]

@[simp] theorem fails_describing : Fails (describing describe program) pre failure ↔
      ∃ cause, Fails program pre cause ∧ describe cause = failure := by
  unfold Fails describing
  cases program pre <;> simp [Except.mapError]

@[simp] theorem fails_bind : Fails (program >>= next) pre failure ↔
      Fails program pre failure ∨ ∃ value middle, Yields program pre value middle ∧ Fails (next value) middle failure := by
  unfold Fails Yields
  rw [bind_apply]
  cases outcome : program pre with
  | ok pair =>
    constructor
    · intro failed
      exact .inr ⟨pair.1, pair.2, rfl, failed⟩
    · rintro (same | ⟨value, middle, same, failed⟩)
      · cases same
      · cases same
        exact failed
  | error =>
    constructor
    · intro failed
      cases failed
      exact .inl rfl
    · rintro (same | ⟨value, middle, same, failed⟩)
      · cases same
        rfl
      · cases same

end

/-! Checks of lists. -/

section
variable {Failure Value Item : Type}
variable {items : List Item} {check : Item → Except Failure PUnit}

theorem forM_ok {done : PUnit} (accepted : items.forM check = .ok done) :
    ∀ item ∈ items, check item = .ok ⟨⟩ := by
  induction items with
  | nil => exact nofun
  | cons first items ih =>
    cases checked : check first with
    | error => simp [List.forM, checked, bind, Except.bind] at accepted
    | ok =>
      rw [List.forM, checked] at accepted
      intro item mem
      rcases mem_cons.mp mem with rfl | later
      · exact checked
      · exact ih accepted item later

theorem forM_ok_of_forall (accepted : ∀ item ∈ items, check item = .ok ⟨⟩) :
    items.forM check = .ok ⟨⟩ := by
  induction items with
  | nil => rfl
  | cons first items ih =>
    rw [List.forM, accepted first mem_cons_self]
    exact ih fun item mem => accepted item (mem_cons_of_mem _ mem)

theorem mapM_ok {encode : Item → Except Failure Value} {values : List Value} (accepted : items.mapM encode = .ok values) :
    List.Forall₂ (fun item value => encode item = .ok value) items values := by
  induction items generalizing values with
  | nil =>
    cases accepted
    exact .nil
  | cons first items ih =>
    rw [mapM_cons] at accepted
    cases encoded : encode first with
    | error => simp [encoded, bind, Except.bind] at accepted
    | ok value =>
      cases others : items.mapM encode with
      | error => simp [encoded, others, bind, Except.bind] at accepted
      | ok rest =>
        have same : value :: rest = values := by
          simpa [encoded, others, bind, Except.bind, pure, Except.pure] using accepted
        subst same
        exact .cons encoded (ih others)

theorem forall₂_mem {Related : Item → Value → Prop} {values : List Value} (pairs : List.Forall₂ Related items values) {value : Value}
    (mem : value ∈ values) : ∃ item ∈ items, Related item value := by
  induction pairs with
  | nil => cases mem
  | cons related _ ih =>
    rcases mem_cons.mp mem with rfl | later
    · exact ⟨_, mem_cons_self, related⟩
    · obtain ⟨item, itemMem, itemRelated⟩ := ih later
      exact ⟨item, mem_cons_of_mem _ itemMem, itemRelated⟩

theorem mapM_ok_mem {encode : Item → Except Failure Value} {values : List Value}
    (accepted : items.mapM encode = .ok values) {value : Value} (mem : value ∈ values) :
    ∃ item ∈ items, encode item = .ok value :=
  forall₂_mem (mapM_ok accepted) mem

end

/-! Programs whose every step stays within a relation between the states
before and after it. -/

section
variable {State Failure Value Result Item : Type} {relation : State → State → Prop}
variable {program : Transaction State Failure Value} {pre : State} {next : Value → Transaction State Failure Result}
variable {function : Value → Result} {checked : Except Failure Value}

/-- Whatever the program returns, it moves the state within the relation. -/
def Within (relation : State → State → Prop) (program : Transaction State Failure Value)
    (before : State) : Prop :=
  ∀ value after, Yields program before value after → relation before after

theorem Within.mono {weaker : State → State → Prop} (kept : Within relation program pre)
    (weakens : ∀ post, relation pre post → weaker pre post) : Within weaker program pre :=
  fun value post yielded => weakens post (kept value post yielded)

theorem within_pure (refl : ∀ state, relation state state) (value : Value) (pre : State) :
    Within relation (pure value : Transaction State Failure Value) pre := by
  intro result post yielded
  rw [(yields_pure.mp yielded).2]
  exact refl pre

theorem within_throw (failure : Failure) (pre : State) :
    Within relation (throw failure : Transaction State Failure Value) pre :=
  fun _ _ yielded => absurd yielded (by simp)

theorem within_set {state : State} (related : relation pre state) :
    Within relation (set state : Transaction State Failure PUnit) pre := by
  intro result post yielded
  rw [yields_set.mp yielded]
  exact related

theorem within_modify {change : State → State} (related : relation pre (change pre)) :
    Within relation (modify change : Transaction State Failure PUnit) pre := by
  intro result post yielded
  rw [yields_modify.mp yielded]
  exact related

theorem within_bind (trans : ∀ first second third, relation first second → relation second third → relation first third)
    (first : Within relation program pre)
    (rest : ∀ value middle, Yields program pre value middle → Within relation (next value) middle) :
    Within relation (program >>= next) pre := by
  intro result post yielded
  obtain ⟨value, middle, begun, ended⟩ := yields_bind.mp yielded
  exact trans _ _ _ (first value middle begun) (rest value middle begun result post ended)

theorem within_return (within : Within relation program pre) :
    Within relation (program >>= fun value => pure (function value)) pre := by
  intro result post yielded
  obtain ⟨value, first, _⟩ := yields_return.mp yielded
  exact within value post first

theorem within_get_bind {next : State → Transaction State Failure Result}
    (rest : Within relation (next pre) pre) : Within relation (get >>= next) pre := by
  intro result post yielded
  exact rest result post (yields_get_bind.mp yielded)

theorem within_ensure_bind
    (rest : ∀ value, checked = .ok value → Within relation (next value) pre) :
    Within relation (ensure checked >>= next) pre := by
  intro result post yielded
  obtain ⟨value, middle, passed, ended⟩ := yields_bind.mp yielded
  obtain ⟨accepted, rfl⟩ := yields_ensure.mp passed
  exact rest value accepted result post ended

theorem within_ensure (refl : ∀ state, relation state state) :
    Within relation (ensure checked) pre := by
  intro result post yielded
  rw [(yields_ensure.mp yielded).2]
  exact refl pre

theorem within_describing {describe : Failure → Failure} (kept : Within relation program pre) :
    Within relation (describing describe program) pre :=
  fun value post yielded => kept value post (yields_describing.mp yielded)

theorem within_map (kept : Within relation program pre) :
    Within relation (function <$> program) pre := by
  intro result post yielded
  obtain ⟨value, begun, _⟩ := yields_map.mp yielded
  exact kept value post begun

section
variable (refl : ∀ state, relation state state)
  (trans : ∀ first second third, relation first second → relation second third → relation first third)
  {items : List Item}
include refl trans

theorem within_mapM {step : Item → Transaction State Failure Value}
    (each : ∀ item ∈ items, ∀ state, Within relation (step item) state) (pre : State) :
    Within relation (List.mapM step items) pre := by
  induction items generalizing pre with
  | nil =>
    rw [mapM_nil]
    exact within_pure refl [] pre
  | cons item items ih =>
    rw [mapM_cons]
    refine within_bind trans (each item mem_cons_self pre) fun value middle _ => ?_
    refine within_bind trans (ih (fun other mem => each other (mem_cons_of_mem _ mem)) middle)
      fun values last _ => within_pure refl _ last

theorem within_forM {step : Item → Transaction State Failure PUnit}
    (each : ∀ item ∈ items, ∀ state, Within relation (step item) state) (pre : State) :
    Within relation (forM items step) pre := by
  induction items generalizing pre with
  | nil =>
    rw [forM_nil]
    exact within_pure refl _ pre
  | cons item items ih =>
    rw [forM_cons]
    refine within_bind trans (each item mem_cons_self pre) fun value middle _ => ?_
    exact ih (fun other mem => each other (mem_cons_of_mem _ mem)) middle

end

theorem Within.committed (refl : ∀ state, relation state state) (kept : Within relation program pre) :
    relation pre (committed program pre) := by
  rcases committed_cases program pre with ⟨value, yielded⟩ | same
  · exact kept value _ yielded
  · rw [same]
    exact refl pre

end

/-! Programs that do not fail in a way. -/

section
variable {State Failure Value Result Item : Type} {bad : Failure → Prop}
variable {pre : State} {program : Transaction State Failure Value} {function : Value → Result}

def Avoids (bad : Failure → Prop) (program : Transaction State Failure Value) (before : State) : Prop :=
  ∀ failure, Fails program before failure → ¬bad failure

theorem avoids_pure (value : Value) (pre : State) : Avoids bad (pure value : Transaction State Failure Value) pre :=
  fun _ failed => (fails_pure.mp failed).elim

theorem avoids_throw {failure : Failure} (fine : ¬bad failure) (pre : State) :
    Avoids bad (throw failure : Transaction State Failure Value) pre := by
  intro thrown failed
  rw [fails_throw.mp failed]
  exact fine

theorem avoids_set (state pre : State) : Avoids bad (set state : Transaction State Failure PUnit) pre :=
  fun _ failed => (fails_set.mp failed).elim

theorem avoids_modify (change : State → State) (pre : State) :
    Avoids bad (modify change : Transaction State Failure PUnit) pre :=
  fun _ failed => (fails_modify.mp failed).elim

theorem avoids_ensure {checked : Except Failure Value} (fine : ∀ failure, checked = .error failure → ¬bad failure) :
    Avoids bad (ensure checked : Transaction State Failure Value) pre :=
  fun failure failed => fine failure (fails_ensure.mp failed)

theorem avoids_describing {describe : Failure → Failure} (fine : ∀ failure, bad (describe failure) → bad failure)
    (avoids : Avoids bad program pre) : Avoids bad (describing describe program) pre := by
  intro failure failed
  obtain ⟨cause, caused, rfl⟩ := fails_describing.mp failed
  exact fun described => avoids cause caused (fine cause described)

theorem avoids_bind {next : Value → Transaction State Failure Result} (first : Avoids bad program pre)
    (rest : ∀ value middle, Yields program pre value middle → Avoids bad (next value) middle) :
    Avoids bad (program >>= next) pre := by
  intro failure failed
  rcases fails_bind.mp failed with begun | ⟨value, middle, yielded, ended⟩
  · exact first failure begun
  · exact rest value middle yielded failure ended

theorem avoids_return (avoids : Avoids bad program pre) :
    Avoids bad (program >>= fun value => pure (function value)) pre :=
  avoids_bind avoids fun value middle _ => avoids_pure (function value) middle

theorem avoids_get_bind {next : State → Transaction State Failure Result} (rest : Avoids bad (next pre) pre) :
    Avoids bad (get >>= next) pre := by
  refine avoids_bind (fun _ failed => (fails_get.mp failed).elim) fun value middle got => ?_
  obtain ⟨rfl, rfl⟩ := yields_get.mp got
  exact rest

theorem avoids_map (avoids : Avoids bad program pre) : Avoids bad (function <$> program) pre := by
  rw [map_eq_pure_bind]
  exact avoids_return avoids

theorem avoids_mapM {step : Item → Transaction State Failure Value} {items : List Item}
    (each : ∀ item ∈ items, ∀ state, Avoids bad (step item) state) (pre : State) :
    Avoids bad (List.mapM step items) pre := by
  induction items generalizing pre with
  | nil =>
    rw [mapM_nil]
    exact avoids_pure [] pre
  | cons item items ih =>
    rw [mapM_cons]
    refine avoids_bind (each item mem_cons_self pre) fun value middle _ => ?_
    exact avoids_bind (ih (fun other mem => each other (mem_cons_of_mem _ mem)) middle)
      fun values last _ => avoids_pure _ last

theorem avoids_forM {step : Item → Transaction State Failure PUnit} {items : List Item}
    (each : ∀ item ∈ items, ∀ state, Avoids bad (step item) state) (pre : State) :
    Avoids bad (forM items step) pre := by
  induction items generalizing pre with
  | nil =>
    rw [forM_nil]
    exact avoids_pure _ pre
  | cons item items ih =>
    rw [forM_cons]
    refine avoids_bind (each item mem_cons_self pre) fun value middle _ => ?_
    exact ih (fun other mem => each other (mem_cons_of_mem _ mem)) middle

end

end Hopper.Kernel
