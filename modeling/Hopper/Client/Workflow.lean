import Hopper.Driver.Codec
import Hopper.Kernel.Json

/-! Workflows as they are built step by step, the edges `insertWorkflow` makes
of them, and the text a workflow's row keeps of its edges. -/

namespace Hopper.Client

open List Kernel Bytes Driver

/-- A step by its workflow, as an identity, and its position there. -/
structure Step where
  wf : Nat
  i : Nat

structure StepOpts where
  after : List Step := []
  afterAny : List (List Step) := []
  onDependencyFailure : Option DependencyFailure := none
  name : String := ""
  dependencies : Bool := false

structure Workflow where
  wf : Nat
  steps : List StepOpts := []

def Workflow.add (w : Workflow) (opts : StepOpts) : Workflow × Step :=
  ({ w with steps := w.steps ++ [opts] }, ⟨w.wf, w.steps.length⟩)

def maxAnyOfGroups : Nat := 32767

section
variable (wf i : Nat) (opts : StepOpts)

def stepRefused (text : String) : Failure :=
  .refused ("hopper: step " ++ toString i ++ text)

def StepOpts.edge (dep : Step) (anyOf : Nat) : JobDependency :=
  ⟨i, dep.i, opts.onDependencyFailure, opts.dependencies, anyOf⟩

def checkStep (dep : Step) : Except Failure Unit :=
  if dep.wf ≠ wf ∨ dep.i ≥ i then .error (stepRefused i " depends on a step of another workflow") else .ok ()

/-- `where`, the roles of the steps waited for (zero for `After`, else the
number of the group), and the edges of the groups so far. -/
structure AnyOf where
  roles : Nat → Option Nat
  deps : List JobDependency

def AnyOf.wait (g : Nat) (any : AnyOf) (dep : Step) : Except Failure AnyOf := do
  checkStep wf i dep
  match any.roles dep.i with
  | some prev =>
    if prev = g + 1 then .ok any
    else .error (stepRefused i (" waits for step " ++ toString dep.i ++ " in two places among After and AfterAny"))
  | none => .ok ⟨Function.update any.roles dep.i (some (g + 1)), any.deps ++ [opts.edge i dep (g + 1)]⟩

def AnyOf.waitAll (g : Nat) : AnyOf → List Step → Except Failure AnyOf
  | any, [] => .ok any
  | any, dep :: group => do
    let any ← any.wait wf i opts g dep
    any.waitAll g group

def AnyOf.groups : Nat → AnyOf → List (List Step) → Except Failure AnyOf
  | _, any, [] => .ok any
  | g, any, group :: rest =>
    if group = [] then .error (stepRefused i " has an empty any-of group")
    else do
      let any ← any.waitAll wf i opts g group
      any.groups (g + 1) rest

def anyOfDeps : Except Failure (List JobDependency) :=
  if opts.afterAny.length > maxAnyOfGroups then
    .error (stepRefused i (" has " ++ toString opts.afterAny.length ++ " any-of groups, more than " ++ toString maxAnyOfGroups))
  else do
    let any ← AnyOf.groups wf i opts 0 ⟨fun d => if d ∈ opts.after.map (·.i) then some 0 else none, []⟩ opts.afterAny
    .ok any.deps

def stepDeps : Except Failure (List JobDependency) := do
  opts.after.forM (checkStep wf i)
  let any ← (if opts.afterAny = [] then .ok [] else anyOfDeps wf i opts)
  .ok (opts.after.map (opts.edge i · 0) ++ any)

/-- The names of the steps so far, with the name of step `i`. -/
def checkName (names : List (String × Nat)) : Except Failure (List (String × Nat)) :=
  if opts.name = "" then .ok names
  else if '\x00' ∈ opts.name.toList then
    .error (stepRefused i (": name " ++ opts.name.quote ++ " holds a NUL or invalid UTF-8, which PostgreSQL cannot store"))
  else
    match names.lookup opts.name with
    | some j => .error (.refused ("hopper: steps " ++ toString j ++ " and " ++ toString i ++ " are both named " ++ opts.name.quote))
    | none => .ok ((opts.name, i) :: names)

def depsFrom : Nat → List (String × Nat) → List StepOpts → Except Failure (List JobDependency)
  | _, _, [] => .ok []
  | i, names, opts :: rest => do
    let names ← checkName i opts names
    let deps ← stepDeps wf i opts
    let others ← depsFrom (i + 1) names rest
    .ok (deps ++ others)

end

/-- `wp.Deps`, as `insertWorkflow` builds them. -/
def Workflow.deps (w : Workflow) : Except Failure (List JobDependency) :=
  if w.steps = [] then .error (.refused "hopper: workflow has no steps") else depsFrom w.wf 0 [] w.steps

/-- A workflow whose steps are those of some calls of `Add`. -/
def added (wf : Nat) (calls : List StepOpts) : Workflow :=
  calls.foldl (fun w opts => (w.add opts).1) ⟨wf, []⟩

/-! The edges as a workflow's row keeps them. -/

/-- The number sixteen bytes spell. -/
def ofBytes (id : JobIDBytes) : JobID :=
  id.bytes.foldl (fun value byte => 256 * value + byte.toNat) 0

def utf8 (text : String) : Bytes :=
  text.toList.flatMap String.utf8EncodeChar

def edgeStrings (edge : JobEdge) : List String :=
  [edge.job.text, edge.dependsOn.text] ++
    if edge.anyOf ≠ 0 then [String.ofList ((formatInt edge.anyOf).map fun byte => Char.ofNat byte.toNat)] else []

def marshalEdges (edges : List JobEdge) : List Char :=
  Json.render jsonChar (.array (edges.map fun edge => .array ((edgeStrings edge).map .string)))

/-- `json.Unmarshal` into a slice, where null is no slice. -/
def unmarshalSlice {Item : Type} (item : Json (List Char) → Option Item) : Json (List Char) → Option (List Item)
  | .array items => items.mapM item
  | .null => some []
  | _ => none

def unmarshalString : Json (List Char) → Option String
  | .string text => some text
  | .null => some ""
  | _ => none

def decodeEdge : List String → Option JobEdge
  | job :: dependsOn :: rest => do
    let job ← parseJobID (utf8 job)
    let dependsOn ← parseJobID (utf8 dependsOn)
    let anyOf ← match rest with
      | [] => some 0
      | group :: _ => parseInt (utf8 group)
    some ⟨ofBytes job, ofBytes dependsOn, anyOf⟩
  | _ => none

def decodeEdges (stored : List Char) : Option (List JobEdge) := do
  let edges ← (Json.parse stored).bind (unmarshalSlice (unmarshalSlice unmarshalString))
  edges.mapM decodeEdge

end Hopper.Client
