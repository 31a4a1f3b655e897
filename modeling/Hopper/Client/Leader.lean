import Hopper.Sqlite.Leader
import Mathlib.Logic.Function.Basic

/-! The leader loops of any number of clients, on one lease and one clock in
nanoseconds. A lease statement is sent, takes effect at one instant or not at
all, and returns. -/

namespace Hopper.Client

open Sqlite

/-- One stretch of leadership: when the lease fence expires, whether its loops
have been canceled, and whether they have returned. -/
structure LeaderTerm where
  expiry : Int
  canceled : Bool := false
  returned : Bool := false
deriving DecidableEq

/-- Where a leader loop has got to: its select; `endLapsed` and the check for a
fence, before an attempt; the attempt, with what it did once it took effect;
what follows from its reply, none for an error; the end of a term, and a delete
of the lease, with what comes after; and the end of the loop. -/
inductive LeaderPhase where
  | idle
  | lapse (id : Int)
  | fence (id : Int)
  | send (id : Int)
  | sent (id attempted : Int) (outcome : Option LeaderResult)
  | renew (id attempted : Int) (reply : Option LeaderResult)
  | overdue (id attempted : Int) (reply : Option LeaderResult)
  | moved (id attempted : Int) (reply : Option LeaderResult) (lapsed : Bool)
  | switch (id attempted : Int) (reply : Option LeaderResult) (lapsed : Bool)
  | ending (next : LeaderPhase)
  | giveUp (id : Int) (next : LeaderPhase)
  | deleting (id : Int) (took : Bool) (next : LeaderPhase)
  | requested (id : Int)
  | hold
  | holdOff (since : Int)
  | stopping
  | resigning
  | stopped

/-- A client's leader loop. `past` is a log of the terms it has let go of. -/
structure Leader where
  clientID : Int
  stop : Bool := false
  phase : LeaderPhase := .idle
  term : Option LeaderTerm := none
  leaseID : Int := 0
  electedAt : Option Int := none
  held : Bool := false
  isLeader : Bool := false
  past : List LeaderTerm := []

namespace Leader

variable (c : Leader)

/-- `term.end`: its loops are canceled and waited for. -/
def endTerm (next : LeaderPhase) : Leader :=
  match c.term with
  | none => { c with phase := next }
  | some term => { c with term := some { term with canceled := true }, phase := .ending next }

/-- Ends the term that the client leads, as `lose` does after the swap. -/
def lose (next : LeaderPhase) : Leader :=
  { c with isLeader := false }.endTerm next

/-- `endLapsed` ends a term whose lease may have expired. -/
def endsLapsed (now : Int) : Bool :=
  c.isLeader && c.term.any fun term => decide (term.expiry ≤ now)

def sameTerm (reply : Option LeaderResult) : Bool :=
  reply.any fun result => result.leader && decide (result.electedAt = c.electedAt)

/-- The reply is of another term than the one the client led. -/
def otherTerm (reply : Option LeaderResult) : Bool :=
  reply.any fun result => result.leader && decide (result.electedAt ≠ c.electedAt)

/-- What a reply leaves, once the term that it may have ended is gone. -/
def switchOn (ttl : Int) (id attempted : Int) (lapsed : Bool) : Option LeaderResult → Leader
  | none =>
    { c with phase := if c.stop then .stopping else if lapsed then .lapse c.clientID else .idle }
  | some result =>
    if result.resignRequested then c.endTerm (.requested id)
    else if result.leader then
      { c with
        leaseID := id, electedAt := result.electedAt, held := true, isLeader := true, phase := .idle
        term := if c.isLeader then c.term else some { expiry := attempted + ttl }
        past := if c.isLeader then c.past else c.term.toList ++ c.past }
    else if c.isLeader then { c with held := false }.lose .idle
    else { c with held := false, phase := .idle }

def advance (ttl now : Int) : Option Leader :=
  match c.phase with
  | .lapse id => some (if c.endsLapsed now then c.lose (.fence id) else { c with phase := .fence id })
  | .fence id =>
    if c.held ∧ c.leaseID ≠ id then
      let c := { c with held := false }
      let next := .giveUp c.leaseID (.send id)
      some (if c.isLeader then c.lose next else { c with phase := next })
    else some { c with phase := .send id }
  | .send id => some { c with phase := .sent id now none }
  | .renew id attempted reply =>
    match c.term with
    | none => some { c with phase := .moved id attempted reply false }
    | some term =>
      if c.sameTerm reply then
        if reply.any LeaderResult.resignRequested then some { c with phase := .moved id attempted reply false }
        else if now < term.expiry then
          some { c with term := some { term with expiry := attempted + ttl }, phase := .moved id attempted reply false }
        else some { c with phase := .overdue id attempted reply }
      else some { c with phase := .overdue id attempted reply }
  | .overdue id attempted reply =>
    some (if c.endsLapsed now then c.lose (.moved id attempted reply true)
      else { c with phase := .moved id attempted reply false })
  | .moved id attempted reply lapsed =>
    some (if c.otherTerm reply && c.isLeader then c.lose (.switch id attempted reply lapsed)
      else { c with phase := .switch id attempted reply lapsed })
  | .switch id attempted reply lapsed => some (c.switchOn ttl id attempted lapsed reply)
  | .ending next =>
    match c.term with
    | none => some { c with phase := next }
    | some term => if term.returned then some { c with term := none, past := term :: c.past, phase := next } else none
  | .giveUp id next => some { c with phase := .deleting id false next }
  | .requested id => some { c with held := false, isLeader := false, phase := .giveUp id .hold }
  | .hold => some { c with phase := .holdOff now }
  | .holdOff since =>
    if c.stop then some { c with phase := .stopping }
    else if since + ttl ≤ now then some { c with phase := .lapse c.clientID }
    else none
  | .stopping => some (c.endTerm .resigning)
  | .resigning =>
    if c.isLeader ∨ c.held then some { c with isLeader := false, phase := .giveUp c.leaseID .stopped }
    else some { c with phase := .stopped }
  | .idle | .sent .. | .deleting .. | .stopped => none

end Leader

/-- The clients, by any keys, with the lease and the clock; `owner` says which
client an ID was issued to. -/
structure LeaderSystem (Key : Type) where
  now : Int
  lease : Option LeaderRow := none
  owner : Int → Option Key
  clients : Key → Leader

namespace LeaderSystem

variable {Key : Type} [DecidableEq Key] (s : LeaderSystem Key)

def set (key : Key) (c : Leader) : LeaderSystem Key :=
  { s with clients := Function.update s.clients key c }

/-- Each client has an ID of its own and has yet to try for the lease. -/
structure Initial : Prop where
  lease : s.lease = none
  owner : ∀ key, s.owner (s.clients key).clientID = some key
  clients : ∀ key, s.clients key = { clientID := (s.clients key).clientID }

end LeaderSystem

inductive LeaderStep {Key : Type} [DecidableEq Key] (engine : Engine) (ttl : Int) :
    LeaderSystem Key → LeaderSystem Key → Prop
  | time (s : LeaderSystem Key) (now : Int) (later : s.now ≤ now) : LeaderStep engine ttl s { s with now := now }
  | request (s : LeaderSystem Key) (leaderID : Int) :
      LeaderStep engine ttl s
        { s with lease := (W.leaderRequestResign ⟨engine, s.now / 1000⟩ leaderID s.lease).2.2 }
  /-- A fence registers a client under an ID that was never issued. -/
  | register (s : LeaderSystem Key) (key : Key) (id : Int) (fresh : s.owner id = none) :
      LeaderStep engine ttl s
        { s.set key { s.clients key with clientID := id } with owner := Function.update s.owner id (some key) }
  | stop (s : LeaderSystem Key) (key : Key) :
      LeaderStep engine ttl s (s.set key { s.clients key with stop := true })
  /-- The lease fence cancels the term's loops, as a stop does. -/
  | cancel (s : LeaderSystem Key) (key : Key) (term : LeaderTerm) (there : (s.clients key).term = some term)
      (cause : term.expiry ≤ s.now ∨ (s.clients key).stop = true) :
      LeaderStep engine ttl s (s.set key { s.clients key with term := some { term with canceled := true } })
  | termReturn (s : LeaderSystem Key) (key : Key) (term : LeaderTerm) (there : (s.clients key).term = some term)
      (canceled : term.canceled = true) :
      LeaderStep engine ttl s (s.set key { s.clients key with term := some { term with returned := true } })
  /-- A tick or a poke starts a round of the loop. -/
  | wake (s : LeaderSystem Key) (key : Key) (waits : (s.clients key).phase = .idle) :
      LeaderStep engine ttl s (s.set key { s.clients key with phase := .lapse (s.clients key).clientID })
  | quit (s : LeaderSystem Key) (key : Key) (waits : (s.clients key).phase = .idle)
      (stops : (s.clients key).stop = true) :
      LeaderStep engine ttl s (s.set key { s.clients key with phase := .stopping })
  | advance (s : LeaderSystem Key) (key : Key) (next : Leader)
      (advanced : (s.clients key).advance ttl s.now = some next) : LeaderStep engine ttl s (s.set key next)
  | attempt (s : LeaderSystem Key) (key : Key) (id attempted : Int)
      (waits : (s.clients key).phase = .sent id attempted none) :
      LeaderStep engine ttl s
        { s.set key { s.clients key with
            phase := .sent id attempted (some (W.leaderAttempt ⟨engine, s.now / 1000⟩ ⟨id, ttl⟩ s.lease).1) } with
          lease := (W.leaderAttempt ⟨engine, s.now / 1000⟩ ⟨id, ttl⟩ s.lease).2 }
  /-- An attempt returns what it did, or an error whatever it did. -/
  | reply (s : LeaderSystem Key) (key : Key) (id attempted : Int) (outcome reply : Option LeaderResult)
      (waits : (s.clients key).phase = .sent id attempted outcome) (told : reply = none ∨ reply.isSome ∧ reply = outcome) :
      LeaderStep engine ttl s (s.set key { s.clients key with phase := .renew id attempted reply })
  | delete (s : LeaderSystem Key) (key : Key) (id : Int) (next : LeaderPhase)
      (waits : (s.clients key).phase = .deleting id false next) :
      LeaderStep engine ttl s
        { s.set key { s.clients key with phase := .deleting id true next } with
          lease := (W.leaderResign id s.lease).2.2 }
  | deleted (s : LeaderSystem Key) (key : Key) (id : Int) (took : Bool) (next : LeaderPhase)
      (waits : (s.clients key).phase = .deleting id took next) :
      LeaderStep engine ttl s (s.set key { s.clients key with phase := next })

inductive LeaderReached {Key : Type} [DecidableEq Key] (engine : Engine) (ttl : Int) : LeaderSystem Key → Prop
  | start {s : LeaderSystem Key} (initial : s.Initial) : LeaderReached engine ttl s
  | step {before after : LeaderSystem Key} (reached : LeaderReached engine ttl before)
      (step : LeaderStep engine ttl before after) : LeaderReached engine ttl after

end Hopper.Client
