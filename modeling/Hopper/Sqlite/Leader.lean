import Hopper.Sqlite.Store

/-! The leader lease: the one row of `hopper_leader`, and the statements that
take, renew, ask for and delete it. -/

namespace Hopper.Sqlite

/-- The row of `hopper_leader`. -/
structure LeaderRow where
  clientID : Int
  electedAt : Int
  expiresAt : Int
  resignClientID : Option Int := none
  deriving DecidableEq

structure LeaderParams where
  clientID : Int
  ttl : Int
  deriving DecidableEq

structure LeaderResult where
  leader : Bool := false
  electedAt : Option Int := none
  resignRequested : Bool := false
  deriving DecidableEq

def LeaderRow.requested (row : LeaderRow) : Bool :=
  decide (row.resignClientID = some row.clientID)

namespace W

def leaderExcluded (x : W) (params : LeaderParams) : LeaderRow where
  clientID := params.clientID
  electedAt := x.now
  expiresAt := x.after params.ttl

def leaderUpdated (x : W) (params : LeaderParams) (row : LeaderRow) : LeaderRow :=
  let excluded := x.leaderExcluded params
  let renews := decide (row.clientID = excluded.clientID ∧ x.now ≤ row.expiresAt)
  { clientID := excluded.clientID
    electedAt := if renews then row.electedAt else excluded.electedAt
    expiresAt := if renews && row.requested then row.expiresAt else excluded.expiresAt
    resignClientID := if renews then row.resignClientID else none }

/-- What is reported of the row that an attempt returned. -/
def leaderResult (params : LeaderParams) (row : LeaderRow) : LeaderResult :=
  if row.clientID = params.clientID then ⟨true, some row.electedAt, row.requested⟩ else {}

def leaderAttempt (x : W) (params : LeaderParams) : Option LeaderRow → LeaderResult × Option LeaderRow
  | none => (leaderResult params (x.leaderExcluded params), some (x.leaderExcluded params))
  | some row =>
    if row.expiresAt < x.now ∨ row.clientID = params.clientID then
      (leaderResult params (x.leaderUpdated params row), some (x.leaderUpdated params row))
    else ({}, some row)

/-- The client asked, or 0, and what is signaled to the leader's channel. -/
def leaderRequestResign (x : W) (leaderID : Int) : Option LeaderRow → Int × List String × Option LeaderRow
  | none => (0, [], none)
  | some row =>
    if x.now < row.expiresAt ∧ (leaderID = 0 ∨ row.clientID = leaderID) then
      (row.clientID, ["resign"], some { row with resignClientID := some row.clientID })
    else (0, [], some row)

/-- Whether the lease was deleted, and what is signaled to the leader's channel. -/
def leaderResign (clientID : Int) : Option LeaderRow → Bool × List String × Option LeaderRow
  | none => (false, [], none)
  | some row => if row.clientID = clientID then (true, ["resigned"], none) else (false, [], some row)

end W

inductive LeaderCall where
  | attempt (params : LeaderParams)
  | requestResign (leaderID : Int)
  | resign (clientID : Int)
  deriving DecidableEq

inductive LeaderReply where
  | attempted (result : LeaderResult)
  | asked (clientID : Int)
  | resigned (deleted : Bool)
  deriving DecidableEq

def LeaderCall.apply (x : W) (lease : Option LeaderRow) : LeaderCall → LeaderReply × Option LeaderRow
  | .attempt params => ((x.leaderAttempt params lease).map LeaderReply.attempted id)
  | .requestResign leaderID =>
    let (asked, _, after) := x.leaderRequestResign leaderID lease
    (.asked asked, after)
  | .resign clientID =>
    let (deleted, _, after) := W.leaderResign clientID lease
    (.resigned deleted, after)

end Hopper.Sqlite
