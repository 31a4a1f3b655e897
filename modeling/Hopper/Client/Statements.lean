import Hopper.Client.Rounds

/-! What the statements of an insert return: each input that reached the store
has the result its statement gave it, and a folded one has that of the input it
is folded onto. -/

namespace Hopper.Client

open List Kernel Driver Sqlite

abbrev Reply := (ConflictAction × List Nat) × List JobInsertResult

def collect (results : List (Option InsertResult)) (replies : List Reply) : List (Option InsertResult) :=
  replies.foldl (fun results reply => writeResults results reply.1.2 reply.2) results

/-- The statements of an insert executed in turn, others in between. -/
inductive Executed (others : Store → Store → Prop)
    (answers : (Reply : Type) → Call Reply → Store → Except Failure Reply → Store → Prop)
    (inputs : List Input) (inTx : Bool) : Store → List Reply → Store → Prop where
  | nil (store : Store) : Executed others answers inputs inTx store [] store
  | cons {before asked replied after : Store} {action : ConflictAction} {indexes : List Nat}
      {rows : List JobInsertResult} {rest : List Reply} (between : Relation.ReflTransGen others before asked)
      (answered : answers _ (.jobInsertMany (subParams inputs indexes) { notify := inTx, onConflict := action })
        asked (.ok rows) replied)
      (next : Executed others answers inputs inTx replied rest after) :
      Executed others answers inputs inTx before (((action, indexes), rows) :: rest) after

section
variable {others : Store → Store → Prop}
  {answers : (Reply : Type) → Call Reply → Store → Except Failure Reply → Store → Prop}
  {inputs : List Input} {inTx : Bool} {pre post : Store} {replies : List Reply}

theorem runs_insertStatements {statements : List (ConflictAction × List Nat)} {results final : List (Option InsertResult)}
    (runs : Runs others answers pre (insertStatements inputs inTx statements results) (.ok final) post) :
    ∃ replies, replies.map Prod.fst = statements ∧ Executed others answers inputs inTx pre replies post ∧
      final = collect results replies := by
  induction statements generalizing pre results with
  | nil =>
    obtain ⟨rfl, rfl⟩ := runs_pure runs
    exact ⟨[], rfl, .nil _, rfl⟩
  | cons statement statements ih =>
    obtain ⟨action, indexes⟩ := statement
    obtain ⟨rows, middle, first, rest⟩ := runs_bind runs
    obtain ⟨asked, between, answered⟩ := runs_request first
    obtain ⟨replies, listed, executed, rfl⟩ := ih rest
    exact ⟨((action, indexes), rows) :: replies, by rw [map_cons, listed], .cons between answered executed, rfl⟩

theorem Executed.mono {more : (Reply : Type) → Call Reply → Store → Except Failure Reply → Store → Prop}
    (answered : ∀ Reply (call : Call Reply) asked reply replied,
      answers Reply call asked reply replied → more Reply call asked reply replied)
    (executed : Executed others answers inputs inTx pre replies post) :
    Executed others more inputs inTx pre replies post := by
  induction executed with
  | nil store => exact .nil store
  | cons between answer next ih => exact .cons between (answered _ _ _ _ _ answer) ih

theorem Executed.answered (executed : Executed others answers inputs inTx pre replies post)
    {reply : Reply} (mem : reply ∈ replies) :
    ∃ asked replied, answers _ (.jobInsertMany (subParams inputs reply.1.2)
      { notify := inTx, onConflict := reply.1.1 }) asked (.ok reply.2) replied := by
  induction executed with
  | nil => cases mem
  | cons between answered next ih =>
    rcases mem_cons.mp mem with rfl | later
    · exact ⟨_, _, answered⟩
    · exact ih later

end

section
variable {Args : Type} {client : Config Args} {order : Nat → Bool} {params : List (InsertParams Args)} {inTx : Bool}

theorem runs_insertMany {others : Store → Store → Prop}
    {answers : (Reply : Type) → Call Reply → Store → Except Failure Reply → Store → Prop} {pre post : Store}
    {results : List (Option InsertResult)}
    (runs : Runs others answers pre (client.insertMany order params inTx) (.ok results) post) :
    ∃ inputs replies, client.buildAll params = .ok inputs ∧ replies.map Prod.fst = (Plan.of inputs).statements order ∧
      Executed others answers inputs inTx pre replies post ∧
      results = fillFolded (Plan.of inputs).dupOf (collect (List.replicate inputs.length none) replies) := by
  unfold Config.insertMany at runs
  split at runs
  · next none =>
    obtain ⟨rfl, rfl⟩ := runs_pure runs
    exact ⟨[], [], by rw [none]; rfl, rfl, .nil _, rfl⟩
  · next some =>
    rw [Config.insertDirect, if_neg some] at runs
    obtain ⟨inputs, _, built, rest⟩ := runs_bind runs
    obtain ⟨accepted, rfl⟩ := runs_ensure built
    obtain ⟨collected, last, inserted, returned⟩ := runs_bind rest
    obtain ⟨rfl, rfl⟩ := runs_pure returned
    obtain ⟨replies, listed, executed, rfl⟩ := runs_insertStatements inserted
    exact ⟨inputs, replies, accepted, listed, executed, rfl⟩

end

/-! ## Results by input -/

@[simp] theorem length_writeResults (results : List (Option InsertResult)) (indexes : List Nat)
    (rows : List JobInsertResult) : (writeResults results indexes rows).length = results.length := by
  unfold writeResults
  generalize indexes.zip rows = entries
  induction entries generalizing results with
  | nil => rfl
  | cons entry entries ih => rw [foldl_cons, ih, length_set]

@[simp] theorem length_collect (results : List (Option InsertResult)) (replies : List Reply) :
    (collect results replies).length = results.length := by
  induction replies generalizing results with
  | nil => rfl
  | cons reply replies ih =>
    rw [collect, foldl_cons]
    exact (ih _).trans (length_writeResults ..)

variable {results : List (Option InsertResult)} {indexes : List Nat} {index : Nat} {replies : List Reply}
variable {rows : List JobInsertResult} {position : Nat} {row : JobInsertResult} {inputs : List Input}
variable {order : Nat → Bool} {start : Nat} {dupOf : List (Option Nat)} {results : List (Option InsertResult)}

theorem writeResults_other (absent : index ∉ indexes) :
    (writeResults results indexes rows)[index]? = results[index]? := by
  induction indexes generalizing results rows with
  | nil => rfl
  | cons first indexes ih =>
    rw [mem_cons, not_or] at absent
    cases rows with
    | nil => rfl
    | cons row rows =>
      change (writeResults (results.set first (some row)) indexes rows)[index]? = _
      rw [ih absent.2, getElem?_set_ne (Ne.symm absent.1)]

theorem writeResults_at (distinct : indexes.Nodup) (given : indexes[position]? = some index) (rowAt : rows[position]? = some row)
    (within : index < results.length) : (writeResults results indexes rows)[index]? = some (some row) := by
  induction indexes generalizing results rows position with
  | nil => cases given
  | cons first indexes ih =>
    obtain ⟨absent, distinct⟩ := nodup_cons.mp distinct
    cases rows with
    | nil => cases rowAt
    | cons head rows =>
      change (writeResults (results.set first (some head)) indexes rows)[index]? = _
      cases position with
      | zero =>
        cases given
        cases rowAt
        rw [writeResults_other absent, getElem?_set_self within]
      | succ => exact ih distinct given rowAt (by rwa [length_set])

theorem collect_other (absent : ∀ reply ∈ replies, index ∉ reply.1.2) : (collect results replies)[index]? = results[index]? := by
  induction replies generalizing results with
  | nil => rfl
  | cons reply replies ih =>
    rw [forall_mem_cons] at absent
    exact (ih absent.2).trans (writeResults_other absent.1)

theorem collect_at (distinct : (replies.flatMap fun reply => reply.1.2).Nodup) {reply : Reply}
    (mem : reply ∈ replies) (given : reply.1.2[position]? = some index)
    (rowAt : reply.2[position]? = some row) (within : index < results.length) :
    (collect results replies)[index]? = some (some row) := by
  induction replies generalizing results with
  | nil => cases mem
  | cons head replies ih =>
    rw [flatMap_cons, nodup_append] at distinct
    obtain ⟨first, rest, apart⟩ := distinct
    change (collect (writeResults results head.1.2 head.2) replies)[index]? = _
    rcases mem_cons.mp mem with rfl | later
    · rw [collect_other, writeResults_at first given rowAt within]
      intro other otherMem among
      exact apart index (mem_of_getElem? given) index (mem_flatMap.mpr ⟨other, otherMem, among⟩) rfl
    · exact ih rest later (by rwa [length_writeResults])

theorem subParams_length (valid : ∀ index ∈ indexes, index < inputs.length) :
    (subParams inputs indexes).length = indexes.length := by
  induction indexes with
  | nil => rfl
  | cons index indexes ih =>
    have given := getElem?_eq_getElem (valid index mem_cons_self)
    simp only [subParams, filterMap_cons, given, Option.map_some, length_cons, Nat.add_right_cancel_iff]
    exact ih fun other mem => valid other (mem_cons_of_mem _ mem)

theorem collect_aligned (distinct : (replies.flatMap fun reply => reply.1.2).Nodup)
    (complete : ∀ reply ∈ replies, reply.2.length = reply.1.2.length)
    (valid : ∀ reply ∈ replies, ∀ index ∈ reply.1.2, index < results.length) :
    List.Forall₂ (fun index row => (collect results replies)[index]? = some (some row))
      (replies.flatMap fun reply => reply.1.2) (replies.flatMap Prod.snd) := by
  have each (reply : Reply) (mem : reply ∈ replies) :
      List.Forall₂ (fun index row => (collect results replies)[index]? = some (some row)) reply.1.2 reply.2 := by
    refine forall₂_iff_get.mpr ⟨(complete reply mem).symm, fun position below above => ?_⟩
    exact collect_at distinct mem (getElem?_eq_getElem below) (getElem?_eq_getElem above)
      (valid reply mem _ (getElem_mem below))
  clear distinct complete valid
  generalize collect results replies = final at each
  induction replies with
  | nil => exact .nil
  | cons reply replies ih =>
    exact rel_append (each reply mem_cons_self) (ih fun other mem => each other (mem_cons_of_mem _ mem))

theorem schedule_eq {plan : Plan} (listed : replies.map Prod.fst = plan.statements order) :
    replies.flatMap (fun reply => reply.1.2) = plan.schedule order := by
  rw [Plan.schedule, ← listed, flatMap_map]

theorem insert_aligned {engine : Engine} {Meets : Store → Operation → Prop} {others : Store → Store → Prop} {inTx : Bool} {pre post : Store}
    (listed : replies.map Prod.fst = (Plan.of inputs).statements order)
    (executed : Executed others (StoreAnswers engine Meets) inputs inTx pre replies post) : List.Forall₂
      (fun index row => (collect (List.replicate inputs.length none) replies)[index]? = some (some row))
      ((Plan.of inputs).schedule order) (replies.flatMap Prod.snd) := by
  have valid (reply : Reply) (mem : reply ∈ replies) : ∀ index ∈ reply.1.2, index < inputs.length := by
    intro index among
    have scheduled : index ∈ (Plan.of inputs).schedule order := by
      rw [← schedule_eq listed]
      exact mem_flatMap.mpr ⟨reply, mem, among⟩
    exact ((mem_schedule order).mp scheduled).1
  rw [← schedule_eq listed]
  refine collect_aligned ?_ (fun reply mem => ?_) fun reply mem => ?_
  · rw [schedule_eq listed]
    exact schedule_nodup inputs order
  · obtain ⟨asked, replied, _, now, is⟩ := executed.answered mem
    obtain ⟨jobs, _, _, encoded, stored, _⟩ := W.yields_jobInsertMany (Call.reply_ok is)
    rw [yields_mapM_length stored, ← (mapM_ok encoded).length_eq, subParams_length (valid reply mem)]
  · rw [length_replicate]
    exact valid reply mem

/-- The result of a folded input, from that of the input it is folded onto. -/
def foldedResult (result : Option InsertResult) : Option InsertResult :=
  result.map fun result => { job := result.job, duplicate := true }

private def fillFrom (start : Nat) (dupOf : List (Option Nat)) (results : List (Option InsertResult)) :
    List (Option InsertResult) :=
  (dupOf.zipIdx start).foldl (fun results entry =>
    match entry.1 with
    | none => results
    | some onto => results.set entry.2 (foldedResult (results.getD onto none))) results

private theorem fillFolded_eq (dupOf : List (Option Nat)) (results : List (Option InsertResult)) :
    fillFolded dupOf results = fillFrom 0 dupOf results :=
  rfl

private theorem fillFrom_cons (start : Nat) (dup : Option Nat) (dupOf : List (Option Nat)) (results : List (Option InsertResult)) :
    fillFrom start (dup :: dupOf) results = fillFrom (start + 1) dupOf (match dup with
        | none => results
        | some onto => results.set start (foldedResult (results.getD onto none))) :=
  rfl

private theorem fillFrom_other
    {index : Nat} (unfolded : ∀ position onto, dupOf[position]? = some (some onto) → start + position ≠ index) :
    (fillFrom start dupOf results)[index]? = results[index]? := by
  induction dupOf generalizing start results with
  | nil => rfl
  | cons dup dupOf ih =>
    rw [fillFrom_cons, ih]
    · cases dup with
      | none => rfl
      | some onto => exact getElem?_set_ne (unfolded 0 onto rfl)
    · intro position onto folded
      have apart := unfolded (position + 1) onto folded
      omega

private theorem fillFrom_at
    {position onto : Nat} (folded : dupOf[position]? = some (some onto)) (earlier : onto < start + position)
    (within : start + position < results.length) :
    (fillFrom start dupOf results)[start + position]? = some (foldedResult ((fillFrom start dupOf results).getD onto none)) := by
  induction dupOf generalizing start results position with
  | nil => cases folded
  | cons dup dupOf ih =>
    rw [fillFrom_cons]
    cases position with
    | zero =>
      cases folded
      rw [Nat.add_zero] at within earlier ⊢
      rw [getD_eq_getElem?_getD, fillFrom_other fun position _ _ => by omega, fillFrom_other fun position _ _ => by omega]
      change (results.set start _)[start]? = some (foldedResult ((results.set start _)[onto]?.getD none))
      rw [getElem?_set_self within, getElem?_set_ne (Nat.ne_of_gt earlier), ← getD_eq_getElem?_getD]
    | succ position =>
      have next : start + (position + 1) = start + 1 + position := by omega
      rw [next] at within earlier ⊢
      refine ih folded earlier ?_
      cases dup with
      | none => exact within
      | some => rwa [length_set]

@[simp] theorem length_fillFolded (dupOf : List (Option Nat)) (results : List (Option InsertResult)) :
    (fillFolded dupOf results).length = results.length := by
  unfold fillFolded
  generalize dupOf.zipIdx = entries
  induction entries generalizing results with
  | nil => rfl
  | cons entry entries ih =>
    rw [foldl_cons, ih]
    obtain ⟨dup, index⟩ := entry
    cases dup with
    | none => rfl
    | some => exact length_set ..

theorem fillFolded_sent (within : index < inputs.length) (sent : foldsOnto inputs index = none) :
    (fillFolded (Plan.of inputs).dupOf results)[index]? = results[index]? := by
  rw [fillFolded_eq]
  refine fillFrom_other fun position onto folded same => ?_
  rw [Nat.zero_add] at same
  subst same
  rw [getElem?_dupOf within, sent] at folded
  cases folded

theorem row_returned {engine : Engine} {Meets : Store → Operation → Prop} {others : Store → Store → Prop} {inTx : Bool} {pre post : Store}
    (listed : replies.map Prod.fst = (Plan.of inputs).statements order)
    (executed : Executed others (StoreAnswers engine Meets) inputs inTx pre replies post) {row : JobInsertResult}
    (mem : row ∈ replies.flatMap Prod.snd) :
    some row ∈ fillFolded (Plan.of inputs).dupOf (collect (List.replicate inputs.length none) replies) := by
  obtain ⟨index, among, collected⟩ := forall₂_mem (insert_aligned listed executed) mem
  obtain ⟨within, kept⟩ := (mem_schedule order).mp among
  rw [← fillFolded_sent within kept] at collected
  exact mem_of_getElem? collected

theorem fillFolded_folded {onto : Nat} (folded : foldsOnto inputs index = some onto) (within : index < inputs.length)
    (room : index < results.length) : (fillFolded (Plan.of inputs).dupOf results)[index]? =
      some (foldedResult ((fillFolded (Plan.of inputs).dupOf results).getD onto none)) := by
  have earlier := (foldsOnto_spec folded).1
  have filled := @fillFrom_at 0 (Plan.of inputs).dupOf results index onto (folded ▸ getElem?_dupOf within) (by omega) (by omega)
  rw [Nat.zero_add] at filled
  exact filled

end Hopper.Client
