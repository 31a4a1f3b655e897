import Hopper.Client.Workflow
import Hopper.Driver.Encoding
import Hopper.Kernel.Transaction

/-! The edges of workflows: what a workflow that is not refused is made of, and
that its edges are read back as stored. -/

namespace Hopper.Guarantees

open List Kernel Bytes Driver Client

/-! The edges of one step. -/

variable {wf i : Nat} {opts : StepOpts} {deps : List JobDependency}

/-- The roles a step gives to steps it waits for. -/
def Gives (opts : StepOpts) (role : Nat) : Prop :=
  role ≤ opts.afterAny.length ∧ (role = 0 → opts.after ≠ [])

/-- After the first `g` groups, each step waited for has one role, and each
group an edge. -/
structure GroupsHold (i : Nat) (opts : StepOpts) (g : Nat) (any : AnyOf) : Prop where
  kept : ∀ dep ∈ opts.after, any.roles dep.i = some 0
  roles : ∀ d role, any.roles d = some role → role ≤ g
  edges : ∀ edge ∈ any.deps, ∃ dep n, edge = opts.edge i dep (n + 1) ∧ dep.i < i ∧ any.roles dep.i = some (n + 1)
  numbered : ∀ n < g, ∃ edge ∈ any.deps, edge.anyOf = (n + 1 : Nat)

theorem bind_ok {Value Result : Type} {value : Except Failure Value} {next : Value → Except Failure Result} {result : Result}
    (bound : value >>= next = .ok result) : ∃ got, value = .ok got ∧ next got = .ok result := by
  cases value with
  | error => cases bound
  | ok got => exact ⟨got, rfl, bound⟩

theorem checkStep_ok {dep : Step} (checked : checkStep wf i dep = .ok ()) : dep.i < i := by
  unfold checkStep at checked
  split at checked
  · cases checked
  · omega

namespace GroupsHold

variable {bound g : Nat} {any later : AnyOf}

theorem wait {dep : Step} (holds : GroupsHold i opts bound any) (near : bound = g ∨ bound = g + 1)
    (waited : any.wait wf i opts g dep = .ok later) : GroupsHold i opts (g + 1) later := by
  obtain ⟨⟨⟩, checked, waited⟩ := bind_ok waited
  split at waited
  · next prev role =>
    split at waited <;> cases waited
    have le := holds.roles dep.i prev role
    obtain rfl : bound = g + 1 := by omega
    exact holds
  · next free =>
    cases waited
    have stays {d role : Nat} (had : any.roles d = some role) : Function.update any.roles dep.i (some (g + 1)) d = some role := by
      grind [Function.update_apply]
    refine ⟨fun dep mem => stays (holds.kept dep mem), fun d role has => ?_, fun edge mem => ?_, fun n less => ?_⟩
    · have le := holds.roles d role
      grind [Function.update_apply]
    · rcases mem_append.mp mem with old | new
      · obtain ⟨dep, n, same, pre, has⟩ := holds.edges edge old
        exact ⟨dep, n, same, pre, stays has⟩
      · exact ⟨dep, g, mem_singleton.mp new, checkStep_ok checked, Function.update_self ..⟩
    · by_cases old : n < bound
      · obtain ⟨edge, mem, number⟩ := holds.numbered n old
        exact ⟨edge, mem_append_left _ mem, number⟩
      · obtain rfl : n = g := by omega
        exact ⟨_, mem_append_right _ mem_cons_self, rfl⟩

theorem waitAll {group : List Step} (holds : GroupsHold i opts bound any) (near : bound = g ∧ group ≠ [] ∨ bound = g + 1)
    (waited : any.waitAll wf i opts g group = .ok later) : GroupsHold i opts (g + 1) later := by
  induction group generalizing any bound with
  | nil =>
    cases waited
    obtain rfl : bound = g + 1 := near.resolve_left fun first => first.2 rfl
    exact holds
  | cons dep group ih =>
    obtain ⟨next, one, rest⟩ := bind_ok waited
    exact ih (holds.wait (near.imp_left And.left) one) (.inr rfl) rest

theorem groups {rest : List (List Step)} (holds : GroupsHold i opts g any) (waited : AnyOf.groups wf i opts g any rest = .ok later) :
    GroupsHold i opts (g + rest.length) later := by
  induction rest generalizing any g with
  | nil =>
    cases waited
    exact holds
  | cons group rest ih =>
    unfold AnyOf.groups at waited
    split at waited
    · cases waited
    · next given =>
      obtain ⟨next, one, rest⟩ := bind_ok waited
      have done := ih (holds.waitAll (.inl ⟨rfl, given⟩) one) rest
      rwa [Nat.add_right_comm] at done

theorem of_found {any : List JobDependency} (found : (if opts.afterAny = [] then .ok [] else anyOfDeps wf i opts) = .ok any) :
    opts.afterAny.length ≤ maxAnyOfGroups ∧ ∃ roles, GroupsHold i opts opts.afterAny.length ⟨roles, any⟩ := by
  have start : GroupsHold i opts 0 ⟨fun d => if d ∈ opts.after.map (·.i) then some 0 else none, []⟩ := by
    refine ⟨fun dep mem => if_pos (mem_map_of_mem mem), fun d role has => ?_, forall_mem_nil _, nofun⟩
    dsimp only at has
    split at has <;> cases has
    exact le_rfl
  split at found
  · next none =>
    cases found
    rw [none]
    exact ⟨Nat.zero_le _, _, start⟩
  · unfold anyOfDeps at found
    split at found
    · cases found
    · next few =>
      obtain ⟨later, waited, found⟩ := bind_ok found
      cases found
      have done := start.groups waited
      rw [Nat.zero_add] at done
      exact ⟨not_lt.mp few, later.roles, done⟩

end GroupsHold

/-- The edges of a step: each to an earlier one, in its one role among those
waited for, and one for each role. -/
structure StepEdges (i : Nat) (opts : StepOpts) (deps : List JobDependency) : Prop where
  few : opts.afterAny.length ≤ maxAnyOfGroups
  edges : ∃ roles : Nat → Option Nat, ∀ edge ∈ deps, ∃ dep role, edge = opts.edge i dep role ∧ dep.i < i ∧
    roles dep.i = some role ∧ Gives opts role
  covered : ∀ role : Nat, Gives opts role → ∃ edge ∈ deps, edge.anyOf = role

theorem stepDeps_edges (built : stepDeps wf i opts = .ok deps) : StepEdges i opts deps := by
  obtain ⟨⟨⟩, checked, built⟩ := bind_ok built
  obtain ⟨any, found, built⟩ := bind_ok built
  cases built
  obtain ⟨few, roles, holds⟩ := GroupsHold.of_found found
  refine ⟨few, ⟨roles, fun edge mem => ?_⟩, fun role has => ?_⟩
  · rcases mem_append.mp mem with ordinary | grouped
    · obtain ⟨dep, among, rfl⟩ := mem_map.mp ordinary
      exact ⟨dep, 0, rfl, checkStep_ok (forM_ok checked dep among), holds.kept dep among, Nat.zero_le _,
        fun _ => ne_nil_of_mem among⟩
    · obtain ⟨dep, n, same, earlier, has⟩ := holds.edges edge grouped
      exact ⟨dep, n + 1, same, earlier, has, holds.roles _ _ has, nofun⟩
  · cases role with
    | zero =>
      obtain ⟨dep, among⟩ := exists_mem_of_ne_nil _ (has.2 rfl)
      exact ⟨_, mem_append_left _ (mem_map_of_mem among), rfl⟩
    | succ n =>
      obtain ⟨edge, mem, number⟩ := holds.numbered n has.1
      exact ⟨edge, mem_append_right _ mem, number⟩

/-! The edges of a workflow. -/

def edgesOf (deps : List JobDependency) (i : Nat) : List JobDependency :=
  deps.filter fun edge => edge.job = i

/-- The edges of the steps from position `i` on. -/
structure Linked (i : Nat) (steps : List StepOpts) (deps : List JobDependency) : Prop where
  each : ∀ k opts, steps[k]? = some opts → StepEdges (i + k) opts (edgesOf deps (i + k))
  jobs : ∀ edge ∈ deps, ∃ k < steps.length, edge.job = (i + k : Nat)

theorem depsFrom_linked {names : List (String × Nat)} {steps : List StepOpts} (built : depsFrom wf i names steps = .ok deps) :
    Linked i steps deps := by
  induction steps generalizing i names deps with
  | nil =>
    cases built
    exact ⟨nofun, forall_mem_nil _⟩
  | cons opts steps ih =>
    obtain ⟨names, -, built⟩ := bind_ok built
    obtain ⟨mine, made, built⟩ := bind_ok built
    obtain ⟨others, later, built⟩ := bind_ok built
    cases built
    have here := stepDeps_edges made
    have there := ih later
    have own (edge : JobDependency) (mem : edge ∈ mine) : edge.job = i := by
      obtain ⟨roles, edges⟩ := here.edges
      obtain ⟨dep, role, rfl, -⟩ := edges edge mem
      rfl
    refine ⟨fun k given found => ?_, fun edge mem => ?_⟩
    · rw [edgesOf, filter_append]
      cases k with
      | zero =>
        cases found
        have all : edgesOf mine i = mine := filter_eq_self.mpr fun edge mem => by simp [own edge mem]
        have none : edgesOf others i = [] := by
          refine filter_eq_nil_iff.mpr fun edge mem => ?_
          obtain ⟨k, -, job⟩ := there.jobs edge mem
          simp only [job, decide_eq_true_eq]
          omega
        change StepEdges i opts (edgesOf mine i ++ edgesOf others i)
        rwa [all, none, append_nil]
      | succ k =>
        have none : edgesOf mine (i + 1 + k) = [] := by
          refine filter_eq_nil_iff.mpr fun edge mem => ?_
          simp only [own edge mem, decide_eq_true_eq]
          omega
        rw [← Nat.add_assoc, Nat.add_right_comm i k 1]
        change StepEdges (i + 1 + k) given (edgesOf mine (i + 1 + k) ++ edgesOf others (i + 1 + k))
        rw [none, nil_append]
        exact there.each k given found
    · rcases mem_append.mp mem with mineMem | otherMem
      · exact ⟨0, Nat.succ_pos _, own edge mineMem⟩
      · obtain ⟨k, less, job⟩ := there.jobs edge otherMem
        exact ⟨k + 1, Nat.succ_lt_succ less, by omega⟩

/-- Two edges of a step to one step have one role, and two of one group one
policy. -/
def Agree (edge other : JobDependency) : Prop :=
  edge.job = other.job →
    (edge.dependsOn = other.dependsOn → edge.anyOf = other.anyOf) ∧ (edge.anyOf = other.anyOf → edgePolicy edge = edgePolicy other)

theorem checkGroups_agree {seen : List JobDependency} (agree : ∀ edge ∈ seen ++ deps, ∀ other ∈ seen ++ deps, Agree edge other) :
    checkGroups seen deps = .ok () := by
  induction deps generalizing seen with
  | nil => rfl
  | cons edge deps ih =>
    have here (other : JobDependency) (mem : other ∈ seen) : Agree other edge :=
      agree other (mem_append_left _ mem) edge (mem_append_right _ mem_cons_self)
    unfold checkGroups
    rw [if_neg, if_neg]
    · refine ih fun first firstMem second secondMem => agree first ?_ second ?_ <;> simp_all <;> tauto
    · rintro ⟨-, found⟩
      obtain ⟨other, mem, same⟩ := any_eq_true.mp found
      have same := of_decide_eq_true same
      exact same.2.2 ((here other mem same.1).2 same.2.1)
    · intro found
      obtain ⟨other, mem, same⟩ := any_eq_true.mp found
      have same := of_decide_eq_true same
      exact same.2.2 ((here other mem same.1).1 same.2.1)

namespace Linked

variable {steps : List StepOpts} {edge : JobDependency} (linked : Linked 0 steps deps)
include linked

theorem step {k : Nat} (given : steps[k]? = some opts) : StepEdges k opts (edgesOf deps k) :=
  Nat.zero_add k ▸ linked.each k opts given

theorem job (mem : edge ∈ deps) : ∃ (k : Nat) (opts : StepOpts), steps[k]? = some opts ∧ edge ∈ edgesOf deps k := by
  obtain ⟨k, less, job⟩ := linked.jobs edge mem
  exact ⟨k, steps.get ⟨k, less⟩, getElem?_eq_getElem less, mem_filter.mpr ⟨mem, by simp [job]⟩⟩

theorem made (mem : edge ∈ deps) : ∃ (k : Nat) (opts : StepOpts) (dep : Step) (role : Nat), steps[k]? = some opts ∧
    edge = opts.edge k dep role ∧ dep.i < k ∧ Gives opts role ∧ role ≤ maxAnyOfGroups := by
  obtain ⟨k, opts, given, mine⟩ := linked.job mem
  obtain ⟨roles, edges⟩ := (linked.step given).edges
  obtain ⟨dep, role, same, earlier, -, has⟩ := edges edge mine
  exact ⟨k, opts, dep, role, given, same, earlier, has, has.1.trans (linked.step given).few⟩

theorem agree (mem : edge ∈ deps) {other : JobDependency} (among : other ∈ deps) : Agree edge other := by
  obtain ⟨k, opts, given, mine⟩ := linked.job mem
  obtain ⟨roles, edges⟩ := (linked.step given).edges
  intro same
  have others : other ∈ edgesOf deps k := mem_filter.mpr ⟨among, by simpa [same] using (mem_filter.mp mine).2⟩
  obtain ⟨dep, role, rfl, -, has, -⟩ := edges edge mine
  obtain ⟨otherDep, otherRole, rfl, -, otherHas, -⟩ := edges other others
  refine ⟨fun equal => ?_, fun equal => ?_⟩
  · rw [Int.ofNat.inj equal, otherHas] at has
    cases has
    rfl
  · cases Int.ofNat.inj equal
    rfl

theorem pending {k : Nat} (given : steps[k]? = some opts) :
    (∃ edge ∈ deps, edge.job = k) ↔ opts.after ≠ [] ∨ opts.afterAny ≠ [] := by
  obtain ⟨few, ⟨roles, edges⟩, covered⟩ := linked.step given
  constructor
  · rintro ⟨edge, mem, job⟩
    obtain ⟨dep, role, -, -, -, few, after⟩ := edges edge (mem_filter.mpr ⟨mem, by simpa using job⟩)
    by_contra none
    rw [not_or, not_not, not_not] at none
    rw [none.2, length_nil, Nat.le_zero] at few
    exact after few none.1
  · intro waits
    obtain ⟨role, has⟩ : ∃ role, Gives opts role :=
      waits.elim (fun after => ⟨0, Nat.zero_le _, fun _ => after⟩) fun any => ⟨1, length_pos_iff.mpr any, nofun⟩
    obtain ⟨edge, mem, -⟩ := covered role has
    exact ⟨edge, (mem_filter.mp mem).1, by simpa using (mem_filter.mp mem).2⟩

theorem accepted : checkDependencies deps steps.length =
    .ok (steps.map fun opts => decide (opts.after ≠ [] ∨ opts.afterAny ≠ [])) := by
  have range (edge : JobDependency) (mem : edge ∈ deps) : checkRange steps.length edge = .ok () := by
    obtain ⟨k, opts, dep, role, given, rfl, earlier, -, few⟩ := linked.made mem
    obtain ⟨inside, -⟩ := List.getElem?_eq_some_iff.mp given
    rw [maxAnyOfGroups] at few
    unfold checkRange
    rw [if_neg, if_neg] <;> dsimp only [StepOpts.edge, maxAnyOf] <;> omega
  have groups : checkGroups [] deps = .ok () := checkGroups_agree fun _ mem _ among => linked.agree mem among
  have pending : ((List.range steps.length).map fun position : Nat => deps.any fun edge => edge.job = (position : Int)) =
      steps.map fun opts => decide (opts.after ≠ [] ∨ opts.afterAny ≠ []) := by
    refine ext_getElem (by simp) fun k inside _ => ?_
    rw [length_map, length_range] at inside
    rw [getElem_map, getElem_map, getElem_range, Bool.eq_iff_iff, decide_eq_true_iff, ← linked.pending (getElem?_eq_getElem inside)]
    simp
  have positions : (List.range steps.length).flatMap (fun position : Nat => [(position : Int)]) =
      (List.range steps.length).map fun position : Nat => (position : Int) := map_eq_flatMap.symm
  rw [checkDependencies, forM_ok_of_forall range, groups, ← pending]
  simp [positions, bind, Except.bind, pure, Except.pure, Function.comp_def]

end Linked

/-! The text of the edges. -/

theorem foldl_bigEndian (count word value : Nat) :
    (bigEndian count word).foldl (fun value byte => 256 * value + byte.toNat) value = value * 256 ^ count + word % 256 ^ count := by
  induction count generalizing value with
  | zero => simp [bigEndian, Nat.mod_one]
  | succ count ih =>
    have digit : (UInt8.ofNat (word >>> (8 * count))).toNat = word / 256 ^ count % 256 := by
      rw [UInt8.toNat_ofNat', Nat.shiftRight_eq_div_pow, Nat.pow_mul]
    rw [bigEndian, foldl_cons, ih, digit, Nat.mod_pow_succ, Nat.pow_succ]
    ring

theorem ofBytes_bytes {id : JobID} (small : id < 256 ^ 16) : ofBytes id.bytes = id := by
  rw [ofBytes, JobID.bytes, foldl_bigEndian, Nat.zero_mul, Nat.zero_add, Nat.mod_eq_of_lt small]

theorem utf8_ofList {text : Bytes} (plain : ∀ byte ∈ text, byte.toNat < 128) :
    utf8 (String.ofList (text.map fun byte => Char.ofNat byte.toNat)) = text := by
  have each : ∀ byte : Fin 256, byte.val < 128 → String.utf8EncodeChar (Char.ofNat byte) = [UInt8.ofFin byte] := by decide +kernel
  rw [utf8, String.toList_ofList, flatMap_map]
  induction text with
  | nil => rfl
  | cons byte text ih =>
    obtain ⟨first, rest⟩ := forall_mem_cons.mp plain
    rw [flatMap_cons, ih rest]
    exact congrArg (· ++ text) (each byte.toFin first)

theorem hexEncode_plain (bytes : Bytes) : ∀ byte ∈ hexEncode bytes, byte.toNat < 128 := by
  have digit : ∀ value < 16, (hexDigit value).toNat < 128 := by decide
  intro byte mem
  obtain ⟨one, -, mem⟩ := mem_flatMap.mp mem
  have bound := one.toNat_lt
  rcases mem_cons.mp mem with rfl | mem
  · exact digit _ (by omega)
  · rw [mem_singleton.mp mem]
    exact digit _ (by omega)

theorem parseJobID_text (id : JobID) : parseJobID (utf8 id.text) = some id.bytes := by
  rw [JobID.text, utf8_ofList, JobIDBytes.parseJobID_string]
  simp only [JobIDBytes.string, List.forall_mem_append, List.forall_mem_cons]
  simp only [and_assoc]
  exact ⟨hexEncode_plain _, by decide, hexEncode_plain _, by decide, hexEncode_plain _, by decide, hexEncode_plain _,
    by decide, hexEncode_plain _⟩

theorem parseInt_formatInt {value : Int} (low : 0 ≤ value) (high : value < 9223372036854775808) :
    parseInt (utf8 (String.ofList ((formatInt value).map fun byte => Char.ofNat byte.toNat))) = some value := by
  obtain ⟨count, rfl⟩ := Int.eq_ofNat_of_zero_le low
  have digits := digits_decimal count
  have plain : signed (decimal count) = (false, decimal count) := by
    unfold signed
    split
    · next same => exact absurd (digits 45 (same ▸ mem_cons_self)) (by decide)
    · next same => exact absurd (digits 43 (same ▸ mem_cons_self)) (by decide)
    · rfl
  have given : decimal count ≠ [] := by
    unfold decimal
    split <;> simp [Nat.digits_eq_nil_iff_eq_zero, *]
  rw [formatInt, if_neg (by omega), Int.natAbs_natCast, utf8_ofList, parseInt, plain]
  · simp [natural_decimal, given, digits]
    omega
  · intro byte mem
    have digit := of_decide_eq_true (digits byte mem)
    omega

theorem mapM_map {Item Middle : Type} {items : List Item} {write : Item → Middle} {read : Middle → Option Item}
    (each : ∀ item ∈ items, read (write item) = some item) : (items.map write).mapM read = some items := by
  induction items with
  | nil => rfl
  | cons item items ih =>
    rw [map_cons, mapM_cons, each item mem_cons_self, ih fun other mem => each other (mem_cons_of_mem _ mem)]
    rfl

theorem decodeEdges_marshalEdges {edges : List JobEdge} (small : ∀ edge ∈ edges, edge.job < 256 ^ 16 ∧
      edge.dependsOn < 256 ^ 16 ∧ 0 ≤ edge.anyOf ∧ edge.anyOf ≤ maxAnyOf) : decodeEdges (marshalEdges edges) = some edges := by
  have strings (texts : List String) : unmarshalSlice unmarshalString (.array (texts.map .string)) = some texts :=
    mapM_map fun _ _ => rfl
  have written : Json.Written (.array (edges.map fun edge => .array ((edgeStrings edge).map .string))) :=
    .array _ (forall_mem_map.mpr fun edge _ => .array _ (forall_mem_map.mpr fun text _ => .string text))
  have read : unmarshalSlice (unmarshalSlice unmarshalString)
      (.array (edges.map fun edge => .array ((edgeStrings edge).map .string))) = some (edges.map edgeStrings) := by
    have texts : ((edges.map edgeStrings).map fun texts => Json.array (texts.map .string)).mapM
        (unmarshalSlice unmarshalString) = some (edges.map edgeStrings) := mapM_map fun texts _ => strings texts
    rwa [map_map] at texts
  rw [decodeEdges, marshalEdges, Json.parse_render jsonChar_escapes written, Option.bind_some, read]
  refine mapM_map fun edge mem => ?_
  obtain ⟨job, dependsOn, low, high⟩ := small edge mem
  rw [maxAnyOf] at high
  unfold edgeStrings
  split
  · simp [decodeEdge, parseJobID_text, ofBytes_bytes job, ofBytes_bytes dependsOn, parseInt_formatInt low (by omega)]
  · next zero =>
    obtain ⟨_, _, anyOf⟩ := edge
    obtain rfl : anyOf = 0 := not_not.mp zero
    simp [decodeEdge, parseJobID_text, ofBytes_bytes job, ofBytes_bytes dependsOn]

theorem steps_added (wf : Nat) (calls : List StepOpts) : (added wf calls).wf = wf ∧ (added wf calls).steps = calls := by
  have each (w : Workflow) : (calls.foldl (fun w opts => (w.add opts).1) w).wf = w.wf ∧
      (calls.foldl (fun w opts => (w.add opts).1) w).steps = w.steps ++ calls := by
    induction calls generalizing w with
    | nil => exact ⟨rfl, (append_nil _).symm⟩
    | cons opts calls ih => simpa [Workflow.add] using ih (w.add opts).1
  exact each ⟨wf, []⟩

/-- The edges of a workflow that is not refused go from each step to steps
added before it, pass `CheckDependencies` with exactly the steps that wait
marked, give each pair one role and each group one policy, number the groups of
a step from one, and are read back as stored: for distinct IDs, the positions
too. -/
theorem workflow_well_formed (wf : Nat) (calls : List StepOpts) (built : (added wf calls).deps = .ok deps)
    (ids : List JobID) (small : ∀ id ∈ ids, id < 256 ^ 16) :
    (∀ edge ∈ deps, 0 ≤ edge.dependsOn ∧ edge.dependsOn < edge.job ∧ edge.job < calls.length) ∧
      checkDependencies deps calls.length = .ok (calls.map fun opts => decide (opts.after ≠ [] ∨ opts.afterAny ≠ [])) ∧
      (∀ edge ∈ deps, ∀ other ∈ deps, Agree edge other) ∧
      (∀ (k : Nat) (opts : StepOpts), calls[k]? = some opts → ∀ group : Int,
        (∃ edge ∈ deps, edge.job = k ∧ edge.anyOf = group ∧ group ≠ 0) ↔ 1 ≤ group ∧ group ≤ opts.afterAny.length) ∧
      decodeEdges (marshalEdges (edgesJSON deps ids)) = some (edgesJSON deps ids) ∧
      (ids.Nodup → ids.length = calls.length →
        (edgesJSON deps ids).map (fun edge => ((ids.idxOf edge.job : Int), (ids.idxOf edge.dependsOn : Int), edge.anyOf)) =
          deps.map fun edge => (edge.job, edge.dependsOn, edge.anyOf)) := by
  obtain ⟨same, steps⟩ := steps_added wf calls
  unfold Workflow.deps at built
  rw [same, steps] at built
  split at built
  · cases built
  have linked := depsFrom_linked built
  have inside (edge : JobDependency) (mem : edge ∈ deps) :
      0 ≤ edge.dependsOn ∧ edge.dependsOn < edge.job ∧ edge.job < calls.length := by
    obtain ⟨k, opts, dep, role, given, rfl, earlier, -⟩ := linked.made mem
    obtain ⟨inside, -⟩ := List.getElem?_eq_some_iff.mp given
    dsimp only [StepOpts.edge]
    omega
  have fits (i : Nat) : ids.getD i 0 < 256 ^ 16 := by
    rw [getD_eq_getElem?_getD]
    cases found : ids[i]? with
    | none => decide
    | some id => exact small id (mem_of_getElem? found)
  refine ⟨inside, linked.accepted, fun edge mem other among => linked.agree mem among,
    fun k opts given group => ⟨?_, fun ⟨one, few⟩ => ?_⟩, decodeEdges_marshalEdges (forall_mem_map.mpr fun edge mem => ?_),
    fun distinct length => ?_⟩
  · rintro ⟨edge, mem, job, rfl, grouped⟩
    obtain ⟨roles, edges⟩ := (linked.step given).edges
    obtain ⟨dep, role, rfl, -, -, few, -⟩ := edges edge (mem_filter.mpr ⟨mem, by simpa using job⟩)
    dsimp only [StepOpts.edge] at grouped ⊢
    omega
  · obtain ⟨edge, mem, number⟩ := (linked.step given).covered group.toNat ⟨by omega, by omega⟩
    exact ⟨edge, (mem_filter.mp mem).1, by simpa using (mem_filter.mp mem).2, by omega, by omega⟩
  · obtain ⟨k, opts, dep, role, -, rfl, -, -, few⟩ := linked.made mem
    rw [maxAnyOfGroups] at few
    refine ⟨fits _, fits _, ?_⟩
    dsimp only [StepOpts.edge, maxAnyOf]
    omega
  · have position {i : Int} (low : 0 ≤ i) (high : i < calls.length) : (ids.idxOf (ids.getD i.toNat 0) : Int) = i := by
      have less : i.toNat < ids.length := by omega
      rw [getD_eq_getElem?_getD, getElem?_eq_getElem less, Option.getD_some, distinct.idxOf_getElem]
      omega
    rw [edgesJSON, map_map]
    refine map_congr_left fun edge mem => ?_
    obtain ⟨low, less, high⟩ := inside edge mem
    simp only [Function.comp_apply, position (low.trans less.le) high, position low (less.trans high)]

theorem workflow_well_formed_diamond :
    let deps : List JobDependency := [⟨1, 0, none, false, 0⟩, ⟨1, 0, none, false, 0⟩, ⟨2, 1, none, false, 1⟩, ⟨2, 0, none, false, 1⟩]
    (added 7 [{}, { after := [⟨7, 0⟩, ⟨7, 0⟩] }, { afterAny := [[⟨7, 1⟩, ⟨7, 0⟩]] }]).deps = .ok deps ∧
      checkDependencies deps 3 = .ok [false, true, true] ∧
      decodeEdges (marshalEdges (edgesJSON deps [5, 6, 7])) = some [⟨6, 5, 0⟩, ⟨6, 5, 0⟩, ⟨7, 6, 1⟩, ⟨7, 5, 1⟩] := by
  have formed := workflow_well_formed 7 [{}, { after := [⟨7, 0⟩, ⟨7, 0⟩] }, { afterAny := [[⟨7, 1⟩, ⟨7, 0⟩]] }]
    rfl [5, 6, 7] (by decide)
  exact ⟨rfl, formed.2.1, formed.2.2.2.2.1⟩

end Hopper.Guarantees
