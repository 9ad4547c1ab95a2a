import Crabgresql.Cluster.Range
import Crabgresql.Forward.Frames

/-!
# The forward pool

A gateway keeps one connection per remote leader and forwards every statement for
that leader over it. A call resolves the leader, takes the lock of the pool, dials
if there is no connection, writes its query and reads frames up to ReadyForQuery.
Every await is a step boundary: other calls run in between, the leader's session
runs queries and answers, connections break, reads and writes time out, and the
caller can be dropped. A connection that leaves the pool is closed, but what
reached the leader before may still run there.
-/

namespace Crabgresql.Forward

open Wire
open Cluster (NodeId RangeId)

abbrev CallId := ℕ
abbrev ConnId := ℕ

inductive ExecError
  | notLeader
  | unavailable
  | unsupported (message : String)
  deriving DecidableEq

/-- How one attempt ends: with the leader's response, or without one. -/
inductive Attempt
  | noLeader
  | dialFailed
  | wire
  | response (r : Except (String × String) QueryResult)

namespace Attempt

def result : Attempt → Except ExecError QueryResult
  | .noLeader => .error .notLeader
  | .dialFailed | .wire => .error .unavailable
  | .response (.ok r) => .ok r
  | .response (.error (code, msg)) =>
    if code = "40001" then .error .notLeader
    else if code = "08006" then .error .unavailable
    else .error (.unsupported s!"remote {code}: {msg}")

def retries (a : Attempt) : Bool :=
  match a.result with
  | .error .notLeader | .error .unavailable => true
  | .error (.unsupported _) | .ok _ => false

def poisons : Attempt → Bool
  | .wire => true
  | .response (.error (code, _)) => code == "08006"
  | .noLeader | .dialFailed | .response (.ok _) => false

end Attempt

inductive Phase
  | resolving
  | locking (leader : NodeId) (addr : String)
  | dialing (leader : NodeId) (addr : String)
  | writing (leader : NodeId) (c : ConnId)
  | reading (leader : NodeId) (c : ConnId) (acc : Response)
  | returned (a : Attempt)
  /-- The future was dropped, or panicked. -/
  | dropped

structure Call where
  range : RangeId
  sql : String
  retried : Bool
  phase : Phase

namespace Call

def enter (call : Call) (phase : Phase) : Call := { call with phase := phase }

/-- The attempt is over: try again once, or return. -/
def conclude (call : Call) (a : Attempt) : Call :=
  if a.retries ∧ ¬call.retried then { call with retried := true, phase := .resolving }
  else call.enter (.returned a)

end Call

/-- A connection to a leader's SQL port and the session behind it. -/
structure Conn where
  addr : String
  inbuf : Bytes
  /-- What the leader sent and the gateway has not read. -/
  sent : Bytes
  /-- Whole queries, with the call that wrote them, that the session has not run. -/
  queries : List (CallId × String)
  isOpen : Bool

def Conn.dialed (addr : String) : Conn := ⟨addr, [], [], [], true⟩

/-- What the leader's session makes of a query, and whether the statement took effect. -/
structure Reply where
  outcome : Except PgError (List QueryResult)
  status : TxStatus
  applied : Bool

namespace Reply

def isFatal (reply : Reply) : Bool :=
  match reply.outcome with
  | .ok _ => false
  | .error e => e.severity == .fatal

/-- What the leader's message loop sends; a fatal error ends the connection. -/
def messages (reply : Reply) : List BackendMessage :=
  match reply.outcome with
  | .ok results => writeResults results ++ [.readyForQuery reply.status]
  | .error e =>
    if e.severity = .fatal then [.errorResponse e]
    else [.errorResponse e, .readyForQuery reply.status]

def bytes (reply : Reply) : Bytes := reply.messages.flatMap BackendMessage.encode

end Reply

namespace Conn

def receive (conn : Conn) (n : ℕ) : Conn :=
  { conn with inbuf := conn.inbuf ++ conn.sent.take n, sent := conn.sent.drop n }

/-- A query that is written to a broken connection is lost. -/
def send (conn : Conn) (k : CallId) (sql : String) : Conn :=
  if conn.isOpen then { conn with queries := conn.queries ++ [(k, sql)] } else conn

/-- The response to the first query, with the queries after it. -/
def answer (conn : Conn) (queries : List (CallId × String)) (reply : Reply) : Conn :=
  { conn with
    queries := queries
    sent := if conn.isOpen then conn.sent ++ reply.bytes else conn.sent
    isOpen := conn.isOpen && !reply.isFatal }

def reset (conn : Conn) (queries bytes : ℕ) : Conn :=
  { conn with
    queries := conn.queries.take queries
    sent := conn.sent.take bytes
    isOpen := false }

end Conn

/-- A query that a session ran. -/
structure Served where
  call : CallId
  sql : String
  conn : ConnId
  reply : Reply

structure Pool where
  calls : CallId → Option Call
  lock : Option CallId
  pooled : NodeId → Option ConnId
  conns : ConnId → Conn
  nextConn : ConnId
  /-- What the sessions of the leaders ran, in order. -/
  served : List Served

namespace Pool

def initial : Pool := ⟨fun _ => none, none, fun _ => none, fun _ => .dialed "", 0, []⟩

def setCall (P : Pool) (k : CallId) (call : Call) : Pool :=
  { P with calls := Function.update P.calls k (some call) }

def setConn (P : Pool) (c : ConnId) (conn : Conn) : Pool :=
  { P with conns := Function.update P.conns c conn }

/-- The end of an attempt that holds the lock. -/
def conclude (P : Pool) (k : CallId) (call : Call) (leader : NodeId) (a : Attempt) : Pool :=
  { P.setCall k (call.conclude a) with
    lock := none
    pooled := if a.poisons then Function.update P.pooled leader none else P.pooled }

/-- The lock is held: reuse the connection to the leader, or dial. -/
def enterPool (P : Pool) (k : CallId) (call : Call) (leader : NodeId) (addr : String) : Pool :=
  let P := { P with lock := some k }
  match P.pooled leader with
  | some c =>
    if (P.conns c).addr = addr then P.setCall k (call.enter (.writing leader c))
    else P.setCall k (call.enter (.dialing leader addr))
  | none => P.setCall k (call.enter (.dialing leader addr))

/-- The dialed connection takes the place of the one before. -/
def insertConn (P : Pool) (k : CallId) (call : Call) (leader : NodeId) (addr : String) : Pool :=
  { (P.setConn P.nextConn (.dialed addr)).setCall k (call.enter (.writing leader P.nextConn)) with
    pooled := Function.update P.pooled leader (some P.nextConn)
    nextConn := P.nextConn + 1 }

def wrote (P : Pool) (k : CallId) (call : Call) (leader : NodeId) (c : ConnId) : Pool :=
  (P.setConn c ((P.conns c).send k call.sql)).setCall k (call.enter (.reading leader c .empty))

def frame (P : Pool) (k : CallId) (call : Call) (leader : NodeId) (c : ConnId) (acc : Response) :
    Option Pool :=
  let conn := P.conns c
  match nextBackendFrame conn.inbuf with
  | (.ok none, _) => none
  | (.error _, _) => some (P.conclude k call leader .wire)
  | (.ok (some found), rest) =>
    let P := P.setConn c { conn with inbuf := rest }
    if found.1 = 90 then some (P.conclude k call leader (.response acc.result))
    else
      match acc.add found with
      | .ok acc => some (P.setCall k (call.enter (.reading leader c acc)))
      | .error .malformed => some (P.conclude k call leader .wire)
      | .error .panics => some { P.setCall k (call.enter .dropped) with lock := none }

end Pool

inductive CallAct
  | resolved (found : Option (NodeId × String))
  | locked
  | dialed (ok : Bool)
  | wrote (ok : Bool)
  /-- `n` bytes arrive. -/
  | read (n : ℕ)
  /-- The read times out, fails or finds the end of the stream. -/
  | readFails
  | frame
  | drop

inductive Act
  | forward (k : CallId) (range : RangeId) (sql : String)
  | call (k : CallId) (a : CallAct)
  /-- The session behind `c` runs its next query. -/
  | execute (c : ConnId) (reply : Reply)
  /-- The connection breaks; the given numbers of queries and bytes still arrive. -/
  | reset (c : ConnId) (queries bytes : ℕ)

namespace Pool

def starved (conn : Conn) : Bool :=
  match nextBackendFrame conn.inbuf with
  | (.ok none, _) => true
  | (.ok (some _), _) | (.error _, _) => false

def stepCall (P : Pool) (k : CallId) (call : Call) : CallAct → Option Pool
  | .resolved found =>
    match call.phase with
    | .resolving =>
      match found with
      | some (leader, addr) => some (P.setCall k (call.enter (.locking leader addr)))
      | none => some (P.setCall k (call.conclude .noLeader))
    | _ => none
  | .locked =>
    match call.phase with
    | .locking leader addr => if P.lock = none then some (P.enterPool k call leader addr) else none
    | _ => none
  | .dialed ok =>
    match call.phase with
    | .dialing leader addr =>
      some (if ok then P.insertConn k call leader addr else P.conclude k call leader .dialFailed)
    | _ => none
  | .wrote ok =>
    match call.phase with
    | .writing leader c =>
      some (if ok then P.wrote k call leader c else P.conclude k call leader .wire)
    | _ => none
  | .read n =>
    match call.phase with
    | .reading _ c _ =>
      if starved (P.conns c) then some (P.setConn c ((P.conns c).receive n)) else none
    | _ => none
  | .readFails =>
    match call.phase with
    | .reading leader c _ =>
      if starved (P.conns c) then some (P.conclude k call leader .wire) else none
    | _ => none
  | .frame =>
    match call.phase with
    | .reading leader c acc => P.frame k call leader c acc
    | _ => none
  | .drop =>
    match call.phase with
    | .resolving | .locking _ _ => some (P.setCall k (call.enter .dropped))
    | .dialing _ _ | .writing _ _ | .reading _ _ _ =>
      some { P.setCall k (call.enter .dropped) with lock := none }
    | .returned _ | .dropped => none

def execute (P : Pool) (c : ConnId) (reply : Reply) : Option Pool :=
  match (P.conns c).queries with
  | [] => none
  | (k, sql) :: queries =>
    some { P.setConn c ((P.conns c).answer queries reply) with
      served := P.served ++ [⟨k, sql, c, reply⟩] }

def step (P : Pool) : Act → Option Pool
  | .forward k range sql =>
    match P.calls k with
    | none => some (P.setCall k ⟨range, sql, false, .resolving⟩)
    | some _ => none
  | .call k a => (P.calls k).bind fun call => P.stepCall k call a
  | .execute c reply => P.execute c reply
  | .reset c queries bytes => some (P.setConn c ((P.conns c).reset queries bytes))

end Pool

/-! ## What a call can do -/

/-- The turns of a call, by its phase. -/
inductive Turn (P : Pool) (k : CallId) (call : Call) : CallAct → Pool → Prop
  | resolved {leader : NodeId} {addr : String} (hphase : call.phase = .resolving) :
      Turn P k call (.resolved (some (leader, addr)))
        (P.setCall k (call.enter (.locking leader addr)))
  | unresolved (hphase : call.phase = .resolving) :
      Turn P k call (.resolved none) (P.setCall k (call.conclude .noLeader))
  | locked {leader : NodeId} {addr : String} (hphase : call.phase = .locking leader addr)
      (hlock : P.lock = none) : Turn P k call .locked (P.enterPool k call leader addr)
  | dialed {leader : NodeId} {addr : String} (hphase : call.phase = .dialing leader addr) :
      Turn P k call (.dialed true) (P.insertConn k call leader addr)
  | undialed {leader : NodeId} {addr : String} (hphase : call.phase = .dialing leader addr) :
      Turn P k call (.dialed false) (P.conclude k call leader .dialFailed)
  | wrote {leader : NodeId} {c : ConnId} (hphase : call.phase = .writing leader c) :
      Turn P k call (.wrote true) (P.wrote k call leader c)
  | unwritten {leader : NodeId} {c : ConnId} (hphase : call.phase = .writing leader c) :
      Turn P k call (.wrote false) (P.conclude k call leader .wire)
  | read {leader : NodeId} {c : ConnId} {acc : Response} {n : ℕ}
      (hphase : call.phase = .reading leader c acc) :
      Turn P k call (.read n) (P.setConn c ((P.conns c).receive n))
  | unread {leader : NodeId} {c : ConnId} {acc : Response}
      (hphase : call.phase = .reading leader c acc) :
      Turn P k call .readFails (P.conclude k call leader .wire)
  | frame {leader : NodeId} {c : ConnId} {acc : Response} {Q : Pool}
      (hphase : call.phase = .reading leader c acc) (hQ : P.frame k call leader c acc = some Q) :
      Turn P k call .frame Q
  | dropWaiting
      (hphase : call.phase = .resolving ∨ ∃ leader addr, call.phase = .locking leader addr) :
      Turn P k call .drop (P.setCall k (call.enter .dropped))
  | dropHolding (hphase : (∃ leader addr, call.phase = .dialing leader addr) ∨
        (∃ leader c, call.phase = .writing leader c) ∨
        ∃ leader c acc, call.phase = .reading leader c acc) :
      Turn P k call .drop { P.setCall k (call.enter .dropped) with lock := none }

theorem turn_of_stepCall {P Q : Pool} {k : CallId} {call : Call} {a : CallAct}
    (h : P.stepCall k call a = some Q) : Turn P k call a Q := by
  cases a with
  | resolved found =>
    simp only [Pool.stepCall] at h
    split at h
    · cases found <;> cases h
      · exact .unresolved ‹_›
      · exact .resolved ‹_›
    · cases h
  | locked =>
    rw [Pool.stepCall] at h
    split at h
    · obtain ⟨hlock, hQ⟩ := Option.ite_none_right_eq_some.mp h
      cases hQ
      exact .locked ‹_› hlock
    · cases h
  | dialed ok =>
    rw [Pool.stepCall] at h
    split at h
    · cases ok <;> cases h
      · exact .undialed ‹_›
      · exact .dialed ‹_›
    · cases h
  | wrote ok =>
    rw [Pool.stepCall] at h
    split at h
    · cases ok <;> cases h
      · exact .unwritten ‹_›
      · exact .wrote ‹_›
    · cases h
  | read n =>
    rw [Pool.stepCall] at h
    split at h
    · obtain ⟨-, hQ⟩ := Option.ite_none_right_eq_some.mp h
      cases hQ
      exact .read ‹_›
    · cases h
  | readFails =>
    rw [Pool.stepCall] at h
    split at h
    · obtain ⟨-, hQ⟩ := Option.ite_none_right_eq_some.mp h
      cases hQ
      exact .unread ‹_›
    · cases h
  | frame =>
    rw [Pool.stepCall] at h
    split at h
    · exact .frame ‹_› h
    · cases h
  | drop =>
    rw [Pool.stepCall] at h
    split at h <;> cases h
    · exact .dropWaiting (.inl ‹_›)
    · exact .dropWaiting (.inr ⟨_, _, ‹_›⟩)
    · exact .dropHolding (.inl ⟨_, _, ‹_›⟩)
    · exact .dropHolding (.inr (.inl ⟨_, _, ‹_›⟩))
    · exact .dropHolding (.inr (.inr ⟨_, _, _, ‹_›⟩))

/-- The turns of the read loop with a whole frame in the buffer. -/
inductive FrameTurn (P : Pool) (k : CallId) (call : Call) (leader : NodeId) (c : ConnId)
    (acc : Response) : Pool → Prop
  | bad {e : PgError} {rest : Bytes}
      (hframe : nextBackendFrame (P.conns c).inbuf = (.error e, rest)) :
      FrameTurn P k call leader c acc (P.conclude k call leader .wire)
  | ready {found : UInt8 × Bytes} {rest : Bytes}
      (hframe : nextBackendFrame (P.conns c).inbuf = (.ok (some found), rest))
      (htag : found.1 = 90) :
      FrameTurn P k call leader c acc
        ((P.setConn c { P.conns c with inbuf := rest }).conclude k call leader
          (.response acc.result))
  | added {found : UInt8 × Bytes} {rest : Bytes} {acc' : Response}
      (hframe : nextBackendFrame (P.conns c).inbuf = (.ok (some found), rest))
      (htag : found.1 ≠ 90) (hadd : acc.add found = .ok acc') :
      FrameTurn P k call leader c acc
        ((P.setConn c { P.conns c with inbuf := rest }).setCall k
          (call.enter (.reading leader c acc')))
  | malformed {found : UInt8 × Bytes} {rest : Bytes}
      (hframe : nextBackendFrame (P.conns c).inbuf = (.ok (some found), rest))
      (htag : found.1 ≠ 90) (hadd : acc.add found = .error .malformed) :
      FrameTurn P k call leader c acc
        ((P.setConn c { P.conns c with inbuf := rest }).conclude k call leader .wire)
  | panics {found : UInt8 × Bytes} {rest : Bytes}
      (hframe : nextBackendFrame (P.conns c).inbuf = (.ok (some found), rest))
      (hadd : acc.add found = .error .panics) :
      FrameTurn P k call leader c acc
        { (P.setConn c { P.conns c with inbuf := rest }).setCall k (call.enter .dropped) with
          lock := none }

theorem frameTurn_of_frame {P Q : Pool} {k : CallId} {call : Call} {leader : NodeId} {c : ConnId}
    {acc : Response} (h : P.frame k call leader c acc = some Q) :
    FrameTurn P k call leader c acc Q := by
  rw [Pool.frame] at h
  simp only at h
  generalize hframe : nextBackendFrame (P.conns c).inbuf = p at h
  obtain ⟨found, rest⟩ := p
  cases found with
  | error =>
    cases h
    exact .bad hframe
  | ok found =>
    cases found with
    | none => cases h
    | some found =>
      simp only at h
      split_ifs at h with htag
      · cases h
        exact .ready hframe htag
      · cases hadd : acc.add found with
        | ok =>
          rw [hadd] at h
          cases h
          exact .added hframe htag hadd
        | error e =>
          rw [hadd] at h
          cases e <;> cases h
          · exact .malformed hframe htag hadd
          · exact .panics hframe hadd

end Crabgresql.Forward
