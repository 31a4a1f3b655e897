import Hopper.Client.Insert

/-! What the plan of an insert comes to: every input is in one round under its
action, or folded onto the input of its key before it. The round is how often
the finished states change along the inputs of the key. -/

namespace Hopper.Client

open List Option Kernel Driver Sqlite

def SharesKey (inputs : List Input) (first second : Nat) : Prop :=
  ∃ one other, inputs[first]? = some one ∧ inputs[second]? = some other ∧ one.ref = other.ref ∧
    other.params.uniqueKey ≠ ""

def SharesAction (inputs : List Input) (first second : Nat) : Prop :=
  ∃ one other, inputs[first]? = some one ∧ inputs[second]? = some other ∧ one.onConflict = other.onConflict

/-- The inputs of a unique key among the first, latest first. -/
def keyIndexes (inputs : List Input) (ref : UniqueRef) (count : Nat) : List Nat :=
  (List.range count).reverse.filter fun index => decide (inputs[index]?.map Input.ref = some ref)

/-- The inputs of an input's unique key up to it, latest first. -/
def keyLine (inputs : List Input) (index : Nat) : List Nat :=
  match inputs[index]? with
  | none => []
  | some input => if input.params.uniqueKey = "" then [index] else keyIndexes inputs input.ref (index + 1)

def sameFinished (inputs : List Input) (first second : Nat) : Bool :=
  inputs[first]?.any fun one => inputs[second]?.any fun other =>
    sameStates one.params.uniqueFinished other.params.uniqueFinished

def stateChanges (inputs : List Input) : List Nat → Nat
  | later :: earlier :: rest =>
    stateChanges inputs (earlier :: rest) + if sameFinished inputs earlier later then 0 else 1
  | _ => 0

/-- How often the finished states change along the inputs of a key, up to one. -/
def keyRound (inputs : List Input) (index : Nat) : Nat :=
  stateChanges inputs (keyLine inputs index)

/-- The input of the key before one, if it counts the same finished states. -/
def foldsOnto (inputs : List Input) (index : Nat) : Option Nat :=
  match keyLine inputs index with
  | later :: earlier :: _ => if sameFinished inputs earlier later then some earlier else none
  | _ => none

/-- The input goes into a round, under an action. -/
def enters (inputs : List Input) (number : Nat) (action : ConflictAction) (index : Nat) : Bool :=
  decide (foldsOnto inputs index = none ∧ keyRound inputs index = number ∧ inputs[index]?.map Input.onConflict = some action)

section
variable {inputs : List Input} {ref : UniqueRef} {count index first second : Nat} {input : Input}

theorem keyIndexes_succ : keyIndexes inputs ref (count + 1) =
    if inputs[count]?.map Input.ref = some ref then count :: keyIndexes inputs ref count else keyIndexes inputs ref count := by
  simp only [keyIndexes, range_succ, reverse_append, reverse_singleton, singleton_append, filter_cons, decide_eq_true_eq]

theorem mem_keyIndexes : index ∈ keyIndexes inputs ref count ↔ index < count ∧ inputs[index]?.map Input.ref = some ref := by
  simp [keyIndexes]

theorem keyIndexes_suffix (order : first ≤ second) : keyIndexes inputs ref first <:+ keyIndexes inputs ref second := by
  induction order with
  | refl => exact suffix_rfl
  | step _ ih =>
    rw [keyIndexes_succ]
    split
    · exact ih.trans (suffix_cons ..)
    · exact ih

theorem keyIndexes_head {last : Nat} {rest : List Nat} (line : keyIndexes inputs ref count = last :: rest) :
    last < count ∧ keyIndexes inputs ref (last + 1) = last :: rest ∧
      ∀ between, last < between → between < count → inputs[between]?.map Input.ref ≠ some ref := by
  induction count with
  | zero => cases line
  | succ count ih =>
    rw [keyIndexes_succ] at line
    split at line
    · next here =>
      cases line
      exact ⟨Nat.lt_succ_self _, by rw [keyIndexes_succ, if_pos here], by omega⟩
    · next apart =>
      obtain ⟨less, same, none⟩ := ih line
      refine ⟨by omega, same, fun between later within => ?_⟩
      rcases Nat.lt_succ_iff_lt_or_eq.mp within with old | rfl
      · exact none between later old
      · exact apart

theorem keyLine_eq (given : inputs[index]? = some input) (named : input.params.uniqueKey ≠ "") :
    keyLine inputs index = keyIndexes inputs input.ref (index + 1) := by
  rw [keyLine, given]
  exact if_neg named

theorem keyLine_cons (given : inputs[index]? = some input) (named : input.params.uniqueKey ≠ "") :
    keyLine inputs index = index :: keyIndexes inputs input.ref index := by
  rw [keyLine_eq given named, keyIndexes_succ, given, Option.map_some, if_pos rfl]

theorem stateChanges_suffix {line rest : List Nat} (suffix : rest <:+ line) : stateChanges inputs rest ≤ stateChanges inputs line := by
  obtain ⟨front, rfl⟩ := suffix
  induction front with
  | nil => exact le_rfl
  | cons _ front ih =>
    refine ih.trans ?_
    rw [cons_append]
    cases front ++ rest with
    | nil => exact le_rfl
    | cons => exact Nat.le_add_right _ _

/-- An input that is not folded is in a later round than those of its key
before it. -/
theorem keyRound_lt (less : first < second) (shares : SharesKey inputs first second) (sent : foldsOnto inputs second = none) :
    keyRound inputs first < keyRound inputs second := by
  obtain ⟨one, other, oneAt, otherAt, same, named⟩ := shares
  have oneNamed : one.params.uniqueKey ≠ "" := fun unnamed => named ((congrArg UniqueRef.key same).symm.trans unnamed)
  have below : keyRound inputs first ≤ stateChanges inputs (keyIndexes inputs other.ref second) := by
    rw [keyRound, keyLine_eq oneAt oneNamed, same]
    exact stateChanges_suffix (keyIndexes_suffix less)
  have among : first ∈ keyIndexes inputs other.ref second :=
    mem_keyIndexes.mpr ⟨less, by rw [oneAt, Option.map_some, same]⟩
  rw [foldsOnto, keyLine_cons otherAt named] at sent
  rw [keyRound.eq_def inputs second, keyLine_cons otherAt named]
  cases line : keyIndexes inputs other.ref second with
  | nil =>
    rw [line] at among
    cases among
  | cons last rest =>
    rw [line] at sent below
    dsimp only at sent
    rw [stateChanges]
    split at sent
    · cases sent
    · next changed =>
      rw [if_neg changed]
      omega

theorem foldsOnto_spec {onto : Nat} (folded : foldsOnto inputs index = some onto) :
    onto < index ∧ SharesKey inputs onto index ∧ (∀ between, onto < between → between < index → ¬SharesKey inputs between index) ∧
      ∃ one other, inputs[onto]? = some one ∧ inputs[index]? = some other ∧
        sameStates one.params.uniqueFinished other.params.uniqueFinished = true := by
  cases given : inputs[index]? with
  | none =>
    rw [foldsOnto, keyLine, given] at folded
    cases folded
  | some other =>
    by_cases named : other.params.uniqueKey = ""
    · rw [foldsOnto, keyLine, given] at folded
      dsimp only at folded
      rw [if_pos named] at folded
      cases folded
    · rw [foldsOnto, keyLine_cons given named] at folded
      cases line : keyIndexes inputs other.ref index with
      | nil =>
        rw [line] at folded
        cases folded
      | cons last rest =>
        rw [line] at folded
        dsimp only at folded
        split at folded
        · next alike =>
          cases folded
          obtain ⟨less, _, alone⟩ := keyIndexes_head line
          have ref := (mem_keyIndexes.mp (line ▸ mem_cons_self : onto ∈ keyIndexes inputs other.ref index)).2
          obtain ⟨one, oneAt, same⟩ := Option.map_eq_some_iff.mp ref
          rw [sameFinished, oneAt, given] at alike
          refine ⟨less, ⟨one, other, oneAt, given, same, named⟩, ?_, one, other, oneAt, rfl, alike⟩
          rintro between later earlier ⟨found, _, foundAt, otherAt, refs, _⟩
          cases given.symm.trans otherAt
          exact alone between later earlier (by rw [foundAt, Option.map_some, refs])
        · cases folded

end

def Plan.entry (plan : Plan) (number : Nat) (action : ConflictAction) : List Nat :=
  (plan.rounds.getD number {}).of action

namespace Plan

theorem of_add (round : Round) (index : Nat) (action other : ConflictAction) : (round.add index action).of other =
      if other = action then round.of other ++ [index] else round.of other := by
  cases action <;> cases other <;> rfl

theorem entry_enter {rounds : List Round} {number : Nat} (within : number ≤ rounds.length) (index : Nat)
    (action : ConflictAction) (other : Nat) (otherAction : ConflictAction) :
    ((enter rounds number index action).getD other {}).of otherAction =
      if other = number ∧ otherAction = action then (rounds.getD other {}).of otherAction ++ [index]
      else (rounds.getD other {}).of otherAction := by
  have grown : (if number = rounds.length then rounds ++ [Round.mk [] []] else rounds).getD other {} = rounds.getD other {} := by
    split
    · simp only [getD_eq_getElem?_getD, getElem?_append]
      split
      · rfl
      · next beyond =>
        rw [getElem?_eq_none (Nat.not_lt.mp beyond)]
        cases other - rounds.length <;> rfl
    · rfl
  have room : number < (if number = rounds.length then rounds ++ [Round.mk [] []] else rounds).length := by
    split
    · next last => simp [last]
    · omega
  rw [enter, getD_eq_getElem?_getD, getElem?_modify]
  rw [getD_eq_getElem?_getD] at grown
  by_cases same : number = other
  · subst same
    rw [getElem?_eq_getElem room] at grown ⊢
    simp only [Option.getD_some] at grown
    simp only [↓reduceIte, Option.map_eq_map, Option.map_some, Option.getD_some, grown, of_add, true_and]
  · simp only [same, ↓reduceIte, Option.map_eq_map, Option.map_id_fun', id_eq]
    rw [grown, if_neg fun both => same both.1.symm]

end Plan

/-- The plan of the first inputs of a list. -/
structure Planned (inputs : List Input) (count : Nat) (plan : Plan) : Prop where
  seen : ∀ ref, plan.seen.lookup ref = if ref.key = "" then none else (keyIndexes inputs ref count).head?.map fun last =>
    ⟨last, stateChanges inputs (keyIndexes inputs ref count)⟩
  dupOf : plan.dupOf = (List.range count).map (foldsOnto inputs)
  entries : ∀ number action, plan.entry number action = (List.range count).filter (enters inputs number action)
  within : ∀ index, index < count → keyRound inputs index < plan.rounds.length

namespace Planned

theorem empty (inputs : List Input) : Planned inputs 0 {} where
  seen ref := by
    split
    · rfl
    · rfl
  dupOf := rfl
  entries _ action := by cases action <;> rfl
  within _ less := absurd less (Nat.not_lt_zero _)

section
variable {inputs : List Input} {count : Nat} {plan : Plan} {input : Input}
variable (planned : Planned inputs count plan) (given : inputs[count]? = some input)
include planned given

private theorem seen_succ (ref : UniqueRef) :
    List.lookup ref (if input.params.uniqueKey = "" then plan.seen else (input.ref, ⟨count, keyRound inputs count⟩) :: plan.seen) =
      if ref.key = "" then none else (keyIndexes inputs ref (count + 1)).head?.map fun last =>
        ⟨last, stateChanges inputs (keyIndexes inputs ref (count + 1))⟩ := by
  have apart (other : input.ref ≠ ref) : keyIndexes inputs ref (count + 1) = keyIndexes inputs ref count := by
    rw [keyIndexes_succ, given, Option.map_some, if_neg fun same => other (some.inj same)]
  split
  · next unnamed =>
    rw [planned.seen]
    split
    · rfl
    · next named => rw [apart fun same => named (same ▸ unnamed)]
  · next named =>
    rw [List.lookup_cons]
    split
    · next same =>
      cases eq_of_beq same
      rw [if_neg (show input.ref.key ≠ "" from named), keyRound, ← keyLine_eq given named, keyLine_cons given named]
      rfl
    · next other => rw [planned.seen, apart (ne_of_beq_false other).symm]

private theorem place_eq : plan.place inputs input = match foldsOnto inputs count with
    | some last => .onto last (keyRound inputs count)
    | none => .round (keyRound inputs count) := by
  rw [Plan.place, planned.seen, foldsOnto, keyRound]
  by_cases named : input.params.uniqueKey = ""
  · rw [if_pos named, keyLine, given]
    dsimp only
    rw [if_pos named]
    rfl
  · rw [if_neg named, if_neg (show input.ref.key ≠ "" from named), keyLine_cons given named]
    cases keyIndexes inputs input.ref count with
    | nil => rfl
    | cons last rest =>
      have alike : (inputs[last]?.any fun one => sameStates one.params.uniqueFinished input.params.uniqueFinished) =
          sameFinished inputs last count := by
        rw [sameFinished, given]
        rfl
      simp only [head?_cons, Option.map_some, alike, stateChanges]
      split <;> rfl

private theorem round_within : keyRound inputs count ≤ plan.rounds.length ∧
    ∀ onto, foldsOnto inputs count = some onto → keyRound inputs count < plan.rounds.length := by
  rw [foldsOnto, keyRound]
  by_cases named : input.params.uniqueKey = ""
  · rw [keyLine, given]
    dsimp only
    rw [if_pos named]
    exact ⟨Nat.zero_le _, nofun⟩
  · rw [keyLine_cons given named]
    cases line : keyIndexes inputs input.ref count with
    | nil => exact ⟨Nat.zero_le _, nofun⟩
    | cons last rest =>
      obtain ⟨less, same, _⟩ := keyIndexes_head line
      have ref := (mem_keyIndexes.mp (line ▸ mem_cons_self : last ∈ keyIndexes inputs input.ref count)).2
      obtain ⟨one, oneAt, refs⟩ := Option.map_eq_some_iff.mp ref
      have room := planned.within last less
      rw [keyRound, keyLine_eq oneAt fun unnamed => named ((congrArg UniqueRef.key refs).symm.trans unnamed), refs, same] at room
      dsimp only
      rw [stateChanges]
      split
      · exact ⟨room.le, fun _ _ => room⟩
      · exact ⟨room, nofun⟩

theorem step : Planned inputs (count + 1) (Plan.step inputs plan (input, count)) := by
  have seen := planned.seen_succ given
  obtain ⟨room, fits⟩ := planned.round_within given
  have dups : (List.range (count + 1)).map (foldsOnto inputs) = plan.dupOf ++ [foldsOnto inputs count] := by
    rw [planned.dupOf, range_succ, map_append, map_singleton]
  have filtered (number : Nat) (action : ConflictAction) : (List.range (count + 1)).filter (enters inputs number action) =
      plan.entry number action ++ [count].filter (enters inputs number action) := by
    rw [planned.entries, range_succ, filter_append]
  unfold Plan.step
  rw [planned.place_eq given]
  cases folded : foldsOnto inputs count with
  | some onto =>
    rw [folded] at dups
    have named : input.params.uniqueKey ≠ "" := by
      obtain ⟨_, ⟨_, _, _, otherAt, _, named⟩, _⟩ := foldsOnto_spec folded
      cases given.symm.trans otherAt
      exact named
    refine ⟨fun ref => ?_, dups.symm, fun number action => ?_, fun index less => ?_⟩
    · rw [← seen, if_neg named]
    · rw [filtered, filter_singleton]
      simp [enters, folded, Plan.entry]
    · rcases Nat.lt_succ_iff_lt_or_eq.mp less with old | rfl
      · exact planned.within index old
      · exact fits onto folded
  | none =>
    rw [folded] at dups
    refine ⟨seen, dups.symm, fun number action => ?_, fun index less => ?_⟩
    · rw [filtered, Plan.entry, Plan.entry_enter room, filter_singleton]
      split
      · next here => simp [enters, folded, given, here.1, here.2, Plan.entry]
      · next apart =>
        have absent : enters inputs number action count = false :=
          decide_eq_false fun here => apart ⟨here.2.1.symm, (some.inj ((congrArg (Option.map _) given).symm.trans here.2.2)).symm⟩
        simp [absent, Plan.entry]
    · have length : plan.rounds.length ≤ (Plan.enter plan.rounds (keyRound inputs count) count input.onConflict).length ∧
          keyRound inputs count < (Plan.enter plan.rounds (keyRound inputs count) count input.onConflict).length := by
        rw [Plan.enter, length_modify]
        split
        · next isLast => simp [isLast]
        · omega
      rcases Nat.lt_succ_iff_lt_or_eq.mp less with old | rfl
      · exact (planned.within index old).trans_le length.1
      · exact length.2

end

theorem of (inputs : List Input) : Planned inputs inputs.length (Plan.of inputs) := by
  have all (rest : List Input) (count : Nat) (plan : Plan) (left : inputs.drop count = rest) (planned : Planned inputs count plan) :
      Planned inputs (count + rest.length) ((rest.zipIdx count).foldl (Plan.step inputs) plan) := by
    induction rest generalizing count plan with
    | nil => exact planned
    | cons input rest ih =>
      have given : inputs[count]? = some input := by rw [← head?_drop, left, head?_cons]
      have remains : inputs.drop (count + 1) = rest := by rw [← tail_drop, left, tail_cons]
      rw [length_cons, ← Nat.add_assoc, Nat.add_right_comm]
      exact ih (count + 1) _ remains (planned.step given)
  have planned := all inputs 0 {} rfl (empty inputs)
  rwa [Nat.zero_add] at planned

end Planned

/-- The order in which a plan's inputs reach the store. -/
def Plan.schedule (plan : Plan) (order : Nat → Bool) : List Nat :=
  (plan.statements order).flatMap Prod.snd

section
variable {plan : Plan} {order : Nat → Bool} {round : Round} {statement : ConflictAction × List Nat}

theorem entry_of_getElem {number : Nat} (given : plan.rounds[number]? = some round)
    (action : ConflictAction) : plan.entry number action = round.of action := by
  rw [Plan.entry, getD_eq_getElem?_getD, given, getD_some]

private theorem mem_statements_round {first : Bool} :
    statement ∈ round.statements first ↔ statement.2 = round.of statement.1 ∧ statement.2 ≠ [] := by
  obtain ⟨action, indexes⟩ := statement
  have both : (action, indexes) ∈ [(ConflictAction.replace, round.replace), (.skip, round.skip)] ↔ indexes = round.of action := by
    cases action <;> simp [Round.of]
  have swapped : (action, indexes) ∈ [(ConflictAction.skip, round.skip), (.replace, round.replace)] ↔
      indexes = round.of action := by
    cases action <;> simp [Round.of]
  unfold Round.statements
  rw [mem_filter]
  split
  · rw [both]
    simp
  · rw [swapped]
    simp

theorem mem_statements (mem : statement ∈ plan.statements order) :
    ∃ number, statement.2 = plan.entry number statement.1 := by
  obtain ⟨⟨round, number⟩, listed, among⟩ := mem_flatMap.mp mem
  have given := mem_zipIdx_iff_getElem?.mp listed
  refine ⟨number, ?_⟩
  rw [entry_of_getElem given]
  exact (mem_statements_round.mp among).1

private theorem mem_schedule_entry {index : Nat} : index ∈ plan.schedule order ↔ ∃ number action, index ∈ plan.entry number action := by
  constructor
  · intro mem
    obtain ⟨statement, listed, among⟩ := mem_flatMap.mp mem
    obtain ⟨number, same⟩ := mem_statements listed
    exact ⟨number, statement.1, same ▸ among⟩
  · rintro ⟨number, action, mem⟩
    cases given : plan.rounds[number]? with
    | none =>
      rw [Plan.entry, getD_eq_getElem?_getD, given] at mem
      cases action <;> cases mem
    | some round =>
      rw [entry_of_getElem given] at mem
      refine mem_flatMap.mpr ⟨(action, round.of action), ?_, mem⟩
      refine mem_flatMap.mpr ⟨(round, number), mem_zipIdx_iff_getElem?.mpr given, ?_⟩
      exact mem_statements_round.mpr ⟨rfl, ne_nil_of_mem mem⟩

/-- The action that the map of a round's statements is iterated from. -/
def leadingAction (order : Nat → Bool) (number : Nat) : ConflictAction :=
  if order number then .replace else .skip

private theorem statements_ordered : (plan.statements order).Pairwise fun first second => ∃ number later,
      first.2 = plan.entry number first.1 ∧ second.2 = plan.entry later second.1 ∧
        (number < later ∨ number = later ∧ first.1 ≠ second.1 ∧ first.1 = leadingAction order number) := by
  refine pairwise_flatMap.mpr ⟨?_, ?_⟩
  · rintro ⟨round, number⟩ listed
    have given := mem_zipIdx_iff_getElem?.mp listed
    unfold Round.statements
    refine List.Pairwise.filter _ ?_
    have skips := entry_of_getElem given .skip
    have replaces := entry_of_getElem given .replace
    dsimp only
    split
    · next leads =>
      exact pairwise_pair.mpr ⟨number, number, replaces.symm, skips.symm, .inr ⟨rfl, nofun, (if_pos leads).symm⟩⟩
    · next leads =>
      exact pairwise_pair.mpr ⟨number, number, skips.symm, replaces.symm, .inr ⟨rfl, nofun, (if_neg leads).symm⟩⟩
  · refine pairwise_iff_getElem.mpr fun i j below above less first among second amongLater => ?_
    rw [getElem_zipIdx] at among amongLater
    rw [length_zipIdx] at below above
    have given : plan.rounds[i]? = some plan.rounds[i] := getElem?_eq_getElem _
    have later : plan.rounds[j]? = some plan.rounds[j] := getElem?_eq_getElem _
    refine ⟨i, j, ?_, ?_, .inl less⟩
    · rw [entry_of_getElem given]
      exact (mem_statements_round.mp among).1
    · rw [entry_of_getElem later]
      exact (mem_statements_round.mp amongLater).1

end

section
variable {inputs : List Input} {index number : Nat} {action : ConflictAction}

theorem getElem?_dupOf (within : index < inputs.length) : (Plan.of inputs).dupOf[index]? = some (foldsOnto inputs index) := by
  rw [(Planned.of inputs).dupOf, getElem?_map, getElem?_range within, Option.map_some]

theorem mem_entry : index ∈ (Plan.of inputs).entry number action ↔ foldsOnto inputs index = none ∧
    keyRound inputs index = number ∧ inputs[index]?.map Input.onConflict = some action := by
  rw [(Planned.of inputs).entries, mem_filter, enters, decide_eq_true_eq, mem_range]
  refine and_iff_right_of_imp fun ⟨_, _, acts⟩ => ?_
  obtain ⟨_, given, _⟩ := Option.map_eq_some_iff.mp acts
  exact (List.getElem?_eq_some_iff.mp given).1

theorem mem_schedule (order : Nat → Bool) :
    index ∈ (Plan.of inputs).schedule order ↔ index < inputs.length ∧ foldsOnto inputs index = none := by
  rw [mem_schedule_entry]
  constructor
  · rintro ⟨number, action, mem⟩
    obtain ⟨sent, _, acts⟩ := mem_entry.mp mem
    obtain ⟨_, given, _⟩ := Option.map_eq_some_iff.mp acts
    exact ⟨(List.getElem?_eq_some_iff.mp given).1, sent⟩
  · rintro ⟨less, sent⟩
    exact ⟨keyRound inputs index, inputs[index].onConflict,
      mem_entry.mpr ⟨sent, rfl, by rw [getElem?_eq_getElem less, Option.map_some]⟩⟩

theorem entry_sorted (number : Nat) (action : ConflictAction) : ((Plan.of inputs).entry number action).Pairwise (· < ·) := by
  rw [(Planned.of inputs).entries]
  exact pairwise_lt_range.filter _

/-- One input goes before another: its round comes first, or they share one and
either the action, where the input order decides, or the map's does. -/
def SentBefore (inputs : List Input) (order : Nat → Bool) (first second : Nat) : Prop :=
  keyRound inputs first < keyRound inputs second ∨ keyRound inputs first = keyRound inputs second ∧
    (SharesAction inputs first second ∧ first < second ∨
      ¬SharesAction inputs first second ∧ inputs[first]?.map Input.onConflict = some (leadingAction order (keyRound inputs first)))

theorem SentBefore.asymm {order : Nat → Bool} {first second : Nat} (sent : SentBefore inputs order first second) :
    ¬SentBefore inputs order second first := by
  rintro (less | ⟨same, acts⟩)
  · rcases sent with less | ⟨same, _⟩ <;> omega
  · obtain ⟨_, shared | ⟨apart, leads⟩⟩ := sent.resolve_left (by omega)
    · rcases acts with also | ⟨apart, _⟩
      · omega
      · obtain ⟨⟨one, other, oneAt, otherAt, alike⟩, _⟩ := shared
        exact apart ⟨other, one, otherAt, oneAt, alike.symm⟩
    · rcases acts with ⟨⟨other, one, otherAt, oneAt, alike⟩, _⟩ | ⟨_, also⟩
      · exact apart ⟨one, other, oneAt, otherAt, alike.symm⟩
      · obtain ⟨one, oneAt, acts⟩ := Option.map_eq_some_iff.mp leads
        obtain ⟨other, otherAt, alike⟩ := Option.map_eq_some_iff.mp also
        exact apart ⟨one, other, oneAt, otherAt, by rw [acts, alike, same]⟩

theorem schedule_ordered (inputs : List Input) (order : Nat → Bool) :
    ((Plan.of inputs).schedule order).Pairwise (SentBefore inputs order) := by
  refine pairwise_flatMap.mpr ⟨fun statement mem => ?_, statements_ordered.imp ?_⟩
  · obtain ⟨number, same⟩ := mem_statements mem
    refine (same ▸ entry_sorted number statement.1 : statement.2.Pairwise (· < ·)).imp_of_mem
      fun {first second} among later less => ?_
    obtain ⟨_, ranked, acts⟩ := mem_entry.mp (same ▸ among)
    obtain ⟨_, laterRanked, laterActs⟩ := mem_entry.mp (same ▸ later)
    obtain ⟨one, oneAt, oneActs⟩ := Option.map_eq_some_iff.mp acts
    obtain ⟨other, otherAt, otherActs⟩ := Option.map_eq_some_iff.mp laterActs
    exact .inr ⟨ranked.trans laterRanked.symm, .inl ⟨⟨one, other, oneAt, otherAt, oneActs.trans otherActs.symm⟩, less⟩⟩
  · rintro one other ⟨number, later, first, second, apart⟩ i iAmong j jAmong
    obtain ⟨_, ranked, acts⟩ := mem_entry.mp (first ▸ iAmong)
    obtain ⟨_, laterRanked, laterActs⟩ := mem_entry.mp (second ▸ jAmong)
    rcases apart with less | ⟨rfl, actions, leads⟩
    · exact .inl (by omega)
    · refine .inr ⟨ranked.trans laterRanked.symm, .inr ⟨?_, by rw [acts, leads, ranked]⟩⟩
      rintro ⟨a, b, aAt, bAt, same⟩
      rw [aAt] at acts
      rw [bAt] at laterActs
      exact actions ((some.inj acts).symm.trans (same.trans (some.inj laterActs)))

theorem schedule_nodup (inputs : List Input) (order : Nat → Bool) : ((Plan.of inputs).schedule order).Nodup :=
  (schedule_ordered inputs order).imp fun ordered same => (same ▸ ordered).asymm (same ▸ ordered)

end

end Hopper.Client
