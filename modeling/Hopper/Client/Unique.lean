import Hopper.Driver.Encoding
import Hopper.Kernel.Canonical
import Hopper.Kernel.Rounding

/-! The unique key of a job: its args decoded into a dynamic value and encoded
again, its queue and its period. -/

namespace Hopper.Client

open Kernel Driver

/-- An integer of Go's `int64` or `uint64`. -/
structure GoInteger where
  value : Int
  inRange : -2 ^ 63 ≤ value ∧ value < 2 ^ 64

/-- The significant bits of a `float64`. -/
def floatBits : Nat := 53

/-- The `float64` nearest to an integer, which is an integer itself. -/
def parseFloat (integer : GoInteger) : Int :=
  integer.value.sign * Rounding.nearest floatBits integer.value.natAbs

/-- A `float64` below `1e21` as Go's encoder writes it: with the fewest digits
that are read back as it, and zeros up to the point. -/
def formatFloat (float : Int) : List Char :=
  (if float < 0 then ['-'] else []) ++ Nat.toDigits 10 (Rounding.shortest floatBits float.natAbs)

/-- The args decoded into a dynamic value: objects become maps, numbers
floats. -/
def decodeArgs (encoded : Json GoInteger) : Json Int :=
  (encoded.mapNumber parseFloat).canonical

/-- The args' contribution to the key, where no field is tagged. -/
def uniqueArgs (encoded : Json GoInteger) : String :=
  String.ofList (((decodeArgs encoded).mapNumber formatFloat).render jsonChar)

structure UniqueOpts where
  byArgs : Bool := false
  byQueue : Bool := false
  byPeriod : Int := 0

def maxUniqueKey : Nat := 1024

def uniqueKeySeparator : String := "\n"

def checkUniqueKey (key : String) : Except Failure Unit :=
  if key.utf8ByteSize > maxUniqueKey then
    .error (.refused ("hopper: unique key of " ++ toString key.utf8ByteSize ++ " bytes exceeds the " ++
      toString maxUniqueKey ++ " byte limit"))
  else .ok ()

namespace UniqueOpts

/-- The key, from what the args contribute to it. `truncated` is a time cut to
a period, as text. -/
def key (truncated : Int → Int → String) (opts : UniqueOpts) (uniqueArgs : Except Failure String) (queue : String)
    (now : Int) : Except Failure String := do
  let args ← if opts.byArgs then uniqueArgs.map fun text => ["a=" ++ text] else pure []
  let parts := args ++ (if opts.byQueue then ["q=" ++ queue] else []) ++
    if opts.byPeriod > 0 then ["p=" ++ truncated now opts.byPeriod] else []
  let key := if parts = [] then "*" else uniqueKeySeparator.intercalate parts
  checkUniqueKey key
  pure key

/-- One more state of `Finished`, unless it is a repeat. -/
def addFinished (out : List JobState) (state : JobState) : Except Failure (List JobState) :=
  if state.terminal then
    .ok (if state ∈ out then out else out ++ [state])
  else
    .error (.refused ("hopper: UniqueOpts.Finished has \"" ++ state.name ++ "\", which is not a finished state"))

/-- `Finished` validated, and without repeats. -/
def finished (states : List JobState) : Except Failure (List JobState) :=
  states.foldlM addFinished []

theorem nodup_finished {states found : List JobState} (accepted : finished states = .ok found) : found.Nodup := by
  have all (rest out : List JobState) (nodup : out.Nodup) (accepted : rest.foldlM addFinished out = .ok found) : found.Nodup := by
    induction rest generalizing out with
    | nil =>
      cases accepted
      exact nodup
    | cons state rest ih =>
      rw [List.foldlM_cons, addFinished] at accepted
      split at accepted
      · refine ih _ ?_ accepted
        split
        · exact nodup
        · next absent =>
          rw [← List.concat_eq_append]
          exact nodup.concat absent
      · cases accepted
  exact all states [] List.nodup_nil accepted

end UniqueOpts

end Hopper.Client
