import Crabgresql.MultiRange

/-!
# The range router of one connection

A router holds one session on the engine of every range it has touched and a pin
that says where the client's transaction lives. A statement is routed to one
range: it runs on the local session when this node leads the range and is
forwarded otherwise. BEGIN runs on range 0; the first table pins the block, a
second range escalates it to a global transaction that the coordinator decides.
Every await of `dispatch` is a step boundary, where other clients, decisions and
leadership changes come in between; what a coordinator or a remote node answers
is part of the action.
-/

namespace Crabgresql.Router

open Mvcc Kv Procarray Exec Session Engine MultiRange Cluster

variable {Row : Type}

inductive Pin
  | none
  | opened
  | range (p : RangeId)
  | global (ranges : List RangeId) (g : Xid)
  deriving DecidableEq, Repr

inductive RouterError
  | routing
  | notLeader
  | unsupported
  | coordinator
  | remote
  | session (e : ExecError)
  deriving DecidableEq, Repr

inductive Tag
  | begin
  | commit
  | rollback
  | other
  deriving DecidableEq, Repr

inductive Reply
  | command (tag : Tag)
  | error (e : RouterError)
  deriving DecidableEq, Repr

def Reply.isError : Reply → Bool
  | .command _ => false
  | .error _ => true

/-- `target` is the range the catalog gives for the statement's tables; an unknown table, or tables
of several ranges, have none. A query without tables targets `some none`. -/
inductive Statement (Row : Type)
  | begin (rr : Bool)
  | commit
  | rollback
  | exec (target : Option RangeId) (w : Work Row)
  | query (target : Option (Option RangeId)) (fails : Bool)

namespace Statement

def pinningRange : Statement Row → Except RouterError (Option RangeId)
  | .exec (some r) _ => .ok (some r)
  | .query (some target) _ => .ok target
  | .exec none _ | .query none _ => .error .routing
  | .begin _ | .commit | .rollback => .ok none

/-- INSERT, UPDATE and DELETE; a locking SELECT is not gated. -/
def isWrite : Statement Row → Bool
  | .exec _ w => w.isWrite
  | _ => false

def act : Statement Row → Act Row
  | .begin rr => .begin rr
  | .commit => .commit
  | .rollback => .rollback
  | .exec _ w => .start w
  | .query _ _ => .select

def fails : Statement Row → Bool
  | .query _ fails => fails
  | _ => false

/-- The tag the session reports, which for COMMIT depends on the state it finds. -/
def tag (txn : TxnState) : Statement Row → Tag
  | .begin _ => .begin
  | .commit =>
    match txn with
    | .failed _ => .rollback
    | _ => .commit
  | .rollback => .rollback
  | .exec _ _ | .query _ _ => .other

end Statement

/-- What the router is waiting for. -/
inductive Task (Row : Type)
  | ready
  /-- The session of `r` runs `s`; `auto` is the xid of an autocommit write. -/
  | session (r : RangeId) (s : Statement Row) (tag : Tag) (auto : Option Xid)
  | remote
  | beginGlobal (p : Option RangeId) (r : RangeId) (s : Statement Row)
  | joinPinned (p r : RangeId) (g : Xid) (s : Statement Row)
  | joinStage (r : RangeId) (s : Statement Row)
  | deciding (ranges : List RangeId) (g : Xid)

/-- What the client asked of the open block and what it was told. -/
structure Block where
  repeatableRead : Bool
  erred : Bool
  deriving DecidableEq, Repr

/-- The node, with its replica of every range, as the router sees it. -/
structure Gateway (Row : Type) where
  ranges : RangeId → RangeEngine Row
  leads : RangeId → Bool
  serving : RangeId → Bool
  canEscalate : Bool
  pin : Pin
  task : Task Row
  reply : Option Reply
  block : Block

def own : SessionId := 0

def isInternal : Act Row → Bool
  | .takeSnapshot | .scan | .next | .acquire _ | .recheck | .propose | .apply _ | .finish
  | .release => true
  | .begin _ | .select | .commit | .rollback | .start _ | .join _ | .drop => false

namespace Gateway

def initial (canEscalate : Bool) : Gateway Row :=
  ⟨fun _ => .initial, fun _ => false, fun _ => false, canEscalate, .none, .ready, none,
    ⟨false, false⟩⟩

def sess (G : Gateway Row) (r : RangeId) : Sess Row := (G.ranges r).engine.sessions own

def setRange (G : Gateway Row) (r : RangeId) (E : RangeEngine Row) : Gateway Row :=
  { G with ranges := Function.update G.ranges r E }

def call (G : Gateway Row) (r : RangeId) (a : Act Row) : Option (Gateway Row) :=
  ((G.ranges r).step (.call own a)).map (G.setRange r)

def answer (G : Gateway Row) (rep : Reply) : Gateway Row :=
  { G with
    task := .ready
    reply := some rep
    block :=
      if rep.isError ∧ G.pin ≠ .none then { G.block with erred := true } else G.block }

/-- The evaluation of a query fails, which aborts an open block. -/
def failQuery (G : Gateway Row) (r : RangeId) : Gateway Row :=
  let E := G.ranges r
  let u := G.sess r
  let failed : Sess Row := { u with txn := u.txn.fail, err := some (u.err.getD .evaluation) }
  G.setRange r
    { E with engine := { E.engine with sessions := Function.update E.engine.sessions own failed } }

def autoXid (G : Gateway Row) (r : RangeId) (s : Statement Row) : Option Xid :=
  match (G.sess r).txn with
  | .idle => if s.isWrite then some (G.ranges r).engine.pa.nextXid else none
  | _ => none

def runSession (G : Gateway Row) (r : RangeId) (s : Statement Row) : Option (Gateway Row) :=
  (G.call r s.act).map fun H =>
    { (if s.fails then H.failQuery r else H) with
      task := .session r s (s.tag (G.sess r).txn) (G.autoXid r s) }

def runOn (G : Gateway Row) (r : RangeId) (s : Statement Row) : Option (Gateway Row) :=
  if G.leads r then G.runSession r s else some { G with task := .remote }

def ensureBegan (G : Gateway Row) (r : RangeId) : Option (Gateway Row) :=
  match (G.sess r).txn with
  | .idle => G.call r (.begin false)
  | _ => some G

def stageOn (G : Gateway Row) (r : RangeId) (g : Xid) (s : Statement Row) : Option (Gateway Row) :=
  if G.leads r then
    if G.serving r then
      (G.ensureBegan r).bind fun H =>
        (H.call r (.join g)).map fun K => { K with task := .joinStage r s }
    else some (G.answer (.error .notLeader))
  else some { G with task := .remote }

/-- COMMIT and ROLLBACK take the pin before anything can fail. -/
def finishTxn (G : Gateway Row) (s : Statement Row) : Option (Gateway Row) :=
  let H : Gateway Row := { G with pin := .none }
  match G.pin with
  | .global ranges g => some { H with task := .deciding ranges g }
  | .range p => H.runOn p s
  | .opened | .none => H.runOn 0 s

/-- The escalation asks the coordinator for a global xid. -/
def escalate (G : Gateway Row) (p : Option RangeId) (r : RangeId) (s : Statement Row) :
    Gateway Row :=
  if G.canEscalate then { G with task := .beginGlobal p r s }
  else G.answer (.error .unsupported)

/-- A statement that is neither BEGIN nor the end of a block, by the pin. -/
def route (G : Gateway Row) (pinning : Option RangeId) (s : Statement Row) : Option (Gateway Row) :=
  match G.pin with
  | .none => G.runOn (pinning.getD 0) s
  | .opened =>
    match pinning with
    | some r =>
      if G.leads r then
        (Gateway.ensureBegan { G with pin := .range r } r).bind fun H => H.runOn r s
      else some (G.escalate none r s)
    | none => G.runOn 0 s
  | .range p =>
    match pinning with
    | some r => if r = p then G.runOn p s else some (G.escalate (some p) r s)
    | none => G.runOn p s
  | .global ranges g =>
    match pinning with
    | some r =>
      Gateway.stageOn { G with pin := .global (if r ∈ ranges then ranges else r :: ranges) g } r g s
    | none => G.runOn 0 s

/-- A write on a range that is led here but not served yet is refused. -/
def gated (G : Gateway Row) (pinning : Option RangeId) (s : Statement Row) : Bool :=
  s.isWrite && pinning.any fun r => G.leads r && !G.serving r

def dispatch (G : Gateway Row) (s : Statement Row) : Option (Gateway Row) :=
  match s.pinningRange with
  | .error e => some (G.answer (.error e))
  | .ok pinning =>
    if G.gated pinning s then some (G.answer (.error .notLeader))
    else
      match s with
      | .begin rr =>
        if G.pin = .none then
          Gateway.runOn { G with pin := .opened, block := ⟨rr, false⟩ } 0 s
        else G.runOn 0 s
      | .commit | .rollback => G.finishTxn s
      | s => G.route pinning s

/-- The release of the participants this node leads, after the decision. -/
def releaseAll (G : Gateway Row) : List RangeId → Option (Gateway Row)
  | [] => some G
  | r :: rs => (if G.leads r then G.call r .drop else some G).bind fun H => H.releaseAll rs

def awaited (G : Gateway Row) : Option RangeId :=
  match G.task with
  | .session r _ _ _ | .joinPinned r _ _ _ | .joinStage r _ => some r
  | .ready | .remote | .beginGlobal _ _ _ | .deciding _ _ => none

def resume (G : Gateway Row) : Option (Gateway Row) :=
  match G.task with
  | .session r _ tag _ =>
    match (G.sess r).pc, (G.sess r).err with
    | .ready, some e => some (G.answer (.error (.session e)))
    | .ready, none => some (G.answer (.command tag))
    | _, _ => none
  | .joinStage r s =>
    match (G.sess r).pc, (G.sess r).err with
    | .ready, some e => some (G.answer (.error (.session e)))
    | .ready, none => G.runSession r s
    | _, _ => none
  | .joinPinned p r g s =>
    match (G.sess p).pc, (G.sess p).err with
    | .ready, some e => some (G.answer (.error (.session e)))
    | .ready, none => Gateway.stageOn { G with pin := .global [p, r] g } r g s
    | _, _ => none
  | .ready | .remote | .beginGlobal _ _ _ | .deciding _ _ => none

end Gateway

inductive GatewayAct (Row : Type)
  | dispatch (s : Statement Row)
  /-- The next step of the awaited session. -/
  | work (a : Act Row)
  | resume
  /-- The coordinator answers `begin_global`. -/
  | globalBegun (g : Option Xid)
  /-- A forwarded or remotely staged statement returns, with its tag or an error. -/
  | remoteReturned (tag : Option Tag)
  /-- The coordinator answers `commit_global` with the effective outcome. -/
  | decided (committed : Option Bool)
  /-- Another client on an engine of this node, or what its replica of range 0 applies. -/
  | other (r : RangeId) (a : EngineAct Row)
  /-- A batch of another leader reaches the replica of `r`. -/
  | replicate (r : RangeId) (ops : List (WriteOp Row))
  | lead (r : RangeId) (leads serving : Bool)

def EngineAct.isOther : EngineAct Row → Bool
  | .call s _ => s != own
  | .decide _ _ | .counter _ => true

namespace Gateway

def step (G : Gateway Row) : GatewayAct Row → Option (Gateway Row)
  | .dispatch s =>
    match G.task with
    | .ready => G.dispatch s
    | _ => none
  | .work a => if isInternal a then G.awaited.bind fun r => G.call r a else none
  | .resume => G.resume
  | .globalBegun res =>
    match G.task with
    | .beginGlobal p r s =>
      match res, p with
      | none, _ => some (G.answer (.error .coordinator))
      | some g, none => Gateway.stageOn { G with pin := .global [r] g } r g s
      | some g, some p =>
        (G.call p (.join g)).map fun H => { H with task := .joinPinned p r g s }
    | _ => none
  | .remoteReturned tag =>
    match G.task with
    | .remote => some (G.answer (tag.elim (.error .remote) .command))
    | _ => none
  | .decided res =>
    match G.task with
    | .deciding ranges _ =>
      match res with
      | none => some (G.answer (.error .coordinator))
      | some committed =>
        (G.releaseAll ranges).map fun H =>
          H.answer (.command (if committed then .commit else .rollback))
    | _ => none
  | .other r a =>
    if EngineAct.isOther a then ((G.ranges r).step a).map (G.setRange r) else none
  | .replicate r ops =>
    if G.leads r then none
    else
      let E := G.ranges r
      some (G.setRange r
        { E with engine := { E.engine with kv := applyBatch E.engine.kv ops } })
  | .lead r leads serving =>
    some { G with
      leads := Function.update G.leads r leads
      serving := Function.update G.serving r serving }

end Gateway

end Crabgresql.Router
