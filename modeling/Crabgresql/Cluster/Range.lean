import Crabgresql.Moves
import Crabgresql.Engine
import Crabgresql.Recovery

/-!
# One replicated range

A range is a replicated log of batches and the nodes that apply it. Every node
has an engine over the prefix it has applied. The current leader appends; a
batch whose proposer was refused may still be appended while its term is the
current one, or in a later term until the leader of that term has passed its
read barrier. After the barrier the leader reseeds its counters and runs the
recovery sweep, which opens its gate. `staged` and `intent` record the global
transaction a statement was staged into; no step reads them.
-/

namespace Crabgresql.Cluster

open Mvcc Kv Procarray Lockmgr Exec Session Engine Recovery

abbrev NodeId := ℕ
abbrev RangeId := ℕ

variable {Row : Type}

inductive Proposal (Row : Type)
  | batch (b : Batch Row)
  | scanLo (lo : ℕ)

def Proposal.ops : Proposal Row → List (WriteOp Row)
  | .batch b => b.ops
  | .scanLo lo => [.counter .clogScanLo lo]

structure LogEntry (Row : Type) where
  proposal : Proposal Row
  /-- The global transaction the router staged the statement into. -/
  staged : Option Xid

/-- The recovery sweep of a node, with the term in which it passed the read barrier. -/
inductive Sweep
  | idle
  | seeded (term : ℕ)
  | relocked (term : ℕ) (inDoubt : List (Xid × Xid))
  | racing (term : ℕ) (inDoubt : List (Xid × Xid)) (scanLo : ℕ) (gs resolved : List Xid)
  | unlocked (term : ℕ) (scanLo : ℕ)
  | advancing (term : ℕ) (newLo : ℕ)
  | settled (term : ℕ)
  deriving DecidableEq, Repr

structure Node (Row : Type) where
  /-- How much of the log this replica has applied. -/
  applied : ℕ
  pa : ProcArray
  lm : LockMgr
  seq : SequenceManager
  sessions : SessionId → Sess Row
  /-- The global transaction the router last enlisted the session in. -/
  intent : SessionId → Option Xid
  /-- The last term whose sweep completed. -/
  served : ℕ
  sweep : Sweep

structure Range (Row : Type) where
  log : List (LogEntry Row)
  term : ℕ
  leader : Option NodeId
  /-- The leader has passed its read barrier and reseeded in this term. -/
  seeded : Bool
  nodes : NodeId → Node Row
  /-- Proposals, with their terms, whose proposers were refused. -/
  inflight : List (ℕ × LogEntry Row)

/-- How a node's replica of range 0 lags: decisions it has not applied and its xid counter. -/
structure Lag where
  hidden : List Xid
  nextGlobal : Xid

def Lag.view (lag : Lag) (glob : GlobalView) : GlobalView :=
  ⟨fun g => if g ∈ lag.hidden then .inProgress else glob.clog g, lag.nextGlobal⟩

namespace Node

def boot (kv : Store Row) (applied : ℕ) : Node Row :=
  ⟨applied, .open kv, .new, .new, fun _ => .new, fun _ => none, 0, .idle⟩

def view (node : Node Row) (s : SessionId) (kv : Store Row) : View Row :=
  ⟨kv, node.pa, node.lm, node.seq, node.sessions s⟩

def set (node : Node Row) (s : SessionId) (v : View Row) : Node Row :=
  { node with
    pa := v.pa
    lm := v.lm
    seq := v.seq
    sessions := Function.update node.sessions s v.self }

end Node

def intentAfter (old : Option Xid) : Act Row → Option Xid
  | .join g => some g
  | .drop | .commit | .rollback => none
  | _ => old

/-- A statement of a block is staged into the block's global transaction. -/
def stagedBy (intent : Option Xid) : After → Option Xid
  | .keep | .enlist => intent
  | .close _ => none

inductive RangeAct (Row : Type)
  | call (n : NodeId) (s : SessionId) (a : Act Row) (lag : Lag)
  | late (i : ℕ)
  | catchUp (n : NodeId)
  | elect (n : NodeId)
  | crash (n : NodeId)
  | settle (n : NodeId)
  | relock (n : NodeId) (lag : Lag)
  | scan (n : NodeId) (lag : Lag)
  | raced (n : NodeId) (ok : Bool)
  | unlock (n : NodeId)
  | rescan (n : NodeId) (lag : Lag)
  | advance (n : NodeId) (ok : Bool)
  | serve (n : NodeId)
  | giveUp (n : NodeId)

namespace Range

def initial : Range Row := ⟨[], 0, none, false, fun _ => .boot .empty 0, []⟩

def storeAt (R : Range Row) (i : ℕ) : Store Row :=
  applyBatch .empty ((R.log.take i).flatMap fun e => e.proposal.ops)

def tip (R : Range Row) : Store Row :=
  applyBatch .empty (R.log.flatMap fun e => e.proposal.ops)

def setNode (R : Range Row) (n : NodeId) (node : Node Row) : Range Row :=
  { R with nodes := Function.update R.nodes n node }

def append (R : Range Row) (e : LogEntry Row) : Range Row := { R with log := R.log ++ [e] }

def serving (R : Range Row) (n : NodeId) : Bool :=
  decide (R.leader = some n) && decide ((R.nodes n).served = R.term)

/-- The term under which node `n` proposes; a node that does not lead has none. -/
def epochOf (R : Range Row) (n : NodeId) : ℕ := if R.leader = some n then R.term else 0

def canAppend (R : Range Row) (epoch : ℕ) : Bool :=
  decide (epoch ≠ 0) && (decide (epoch = R.term) || !R.seeded)

/-- A refused proposal stays in flight while its term can still append it. -/
def keep (R : Range Row) (epoch : ℕ) (e : LogEntry Row) : List (ℕ × LogEntry Row) :=
  if R.canAppend epoch then R.inflight ++ [(epoch, e)] else R.inflight

def env (R : Range Row) (n : NodeId) (glob : GlobalView) : Env :=
  ⟨⟨.replicated, true⟩, glob, R.epochOf n⟩

/-- A statement that takes an xid runs on the leader after its reseed; one that writes also
needs the open gate. -/
def admits (R : Range Row) (n : NodeId) : Act Row → Bool
  | .start w => decide (R.leader = some n) && R.seeded && (!w.isWrite || R.serving n)
  | .join g => decide (globalXidBase ≤ g) && decide (g < u64Max)
  | _ => true

def callApply (R : Range Row) (n : NodeId) (s : SessionId) (ok : Bool) (glob : GlobalView) :
    Option (Range Row) :=
  let node := R.nodes n
  match (node.sessions s).pc with
  | .committing b epoch after =>
    let e : LogEntry Row := ⟨.batch b, stagedBy (node.intent s) after⟩
    if ok then
      if R.canAppend epoch then
        (Session.step (R.env n glob) (node.view s R.tip) (.apply true)).map fun v =>
          (R.append e).setNode n { node.set s v with applied := R.log.length + 1 }
      else none
    else
      (Session.step (R.env n glob) (node.view s (R.storeAt node.applied)) (.apply false)).map
        fun v => { R.setNode n (node.set s v) with inflight := R.keep epoch e }
  | _ => none

def callOther (R : Range Row) (n : NodeId) (s : SessionId) (a : Act Row) (glob : GlobalView) :
    Option (Range Row) :=
  let node := R.nodes n
  (Session.step (R.env n glob) (node.view s (R.storeAt node.applied)) a).map fun v =>
    R.setNode n { node.set s v with
      intent := Function.update node.intent s (intentAfter (node.intent s) a) }

def call (R : Range Row) (n : NodeId) (s : SessionId) (a : Act Row) (glob : GlobalView) :
    Option (Range Row) :=
  if R.admits n a then
    match a with
    | .apply ok => R.callApply n s ok glob
    | _ => R.callOther n s a glob
  else none

def late (R : Range Row) (i : ℕ) : Option (Range Row) :=
  match R.inflight[i]? with
  | some (epoch, e) =>
    if R.canAppend epoch then some { R.append e with inflight := R.inflight.eraseIdx i } else none
  | none => none

def catchUp (R : Range Row) (n : NodeId) : Option (Range Row) :=
  let node := R.nodes n
  if node.applied < R.log.length then some (R.setNode n { node with applied := node.applied + 1 })
  else none

def elect (R : Range Row) (n : NodeId) : Range Row :=
  { R with term := R.term + 1, leader := some n, seeded := false }

/-- The process of node `n` restarts on its replica. Every in-memory table is lost. -/
def crash (R : Range Row) (n : NodeId) : Range Row :=
  let applied := (R.nodes n).applied
  let R' := R.setNode n (.boot (R.storeAt applied) applied)
  if R.leader = some n then { R' with leader := none, seeded := false } else R'

/-- The read barrier and the reseeding of the counters. Proposals of earlier terms that are not
in the log by now never will be. -/
def settle (R : Range Row) (n : NodeId) : Option (Range Row) :=
  let node := R.nodes n
  if R.leader = some n ∧ node.served ≠ R.term ∧ node.sweep = .idle then
    some { R.setNode n { node with
        applied := R.log.length
        pa := node.pa.reseedFromApplied R.tip
        seq := node.seq.reseedFromApplied
        sweep := .seeded R.term } with
      seeded := true
      inflight := R.inflight.filter fun p => decide (p.1 = R.term) }
  else none

def relock (R : Range Row) (n : NodeId) (glob : GlobalView) : Option (Range Row) :=
  let node := R.nodes n
  match node.sweep with
  | .seeded term =>
    let (lm, inDoubt) := reacquireInDoubtLocks (R.storeAt node.applied) glob node.lm
    some (R.setNode n { node with lm := lm, sweep := .relocked term inDoubt })
  | _ => none

def scan (R : Range Row) (n : NodeId) (glob : GlobalView) : Option (Range Row) :=
  let node := R.nodes n
  match node.sweep with
  | .relocked term inDoubt =>
    let kv := R.storeAt node.applied
    let lo := clogScanLo kv
    some (R.setNode n { node with
      sweep := .racing term inDoubt lo (inDoubtGlobalsFrom kv glob lo).1 [] })
  | _ => none

/-- The reply to the abort request for the next `g`. Whatever it says, a reply counts as
resolved. -/
def raced (R : Range Row) (n : NodeId) (ok : Bool) : Option (Range Row) :=
  let node := R.nodes n
  match node.sweep with
  | .racing term inDoubt lo (g :: gs) resolved =>
    some (R.setNode n { node with
      sweep := .racing term inDoubt lo gs (if ok then g :: resolved else resolved) })
  | _ => none

def unlock (R : Range Row) (n : NodeId) : Option (Range Row) :=
  let node := R.nodes n
  match node.sweep with
  | .racing term inDoubt lo [] resolved =>
    let lis := (inDoubt.filter fun p => decide (p.2 ∈ resolved)).map Prod.fst
    some (R.setNode n { node with
      lm := lis.foldl LockMgr.releaseAll node.lm
      sweep := .unlocked term lo })
  | _ => none

/-- A marker still in doubt fails the sweep. -/
def rescan (R : Range Row) (n : NodeId) (glob : GlobalView) : Option (Range Row) :=
  let node := R.nodes n
  match node.sweep with
  | .unlocked term lo =>
    let kv := R.storeAt node.applied
    let (gs, newLo) := inDoubtGlobalsFrom kv glob lo
    some (R.setNode n { node with
      sweep :=
        if gs ≠ [] then .idle
        else if newLo ≤ clogScanLo kv then .settled term
        else .advancing term newLo })
  | _ => none

/-- The watermark goes through the log. Its failure is ignored. -/
def advance (R : Range Row) (n : NodeId) (ok : Bool) : Option (Range Row) :=
  let node := R.nodes n
  match node.sweep with
  | .advancing term newLo =>
    let e : LogEntry Row := ⟨.scanLo newLo, none⟩
    if ok then
      if R.leader = some n then
        some ((R.append e).setNode n { node with
          applied := R.log.length + 1, sweep := .settled term })
      else none
    else
      some { R.setNode n { node with sweep := .settled term } with
        inflight := R.keep (R.epochOf n) e }
  | _ => none

def serve (R : Range Row) (n : NodeId) : Option (Range Row) :=
  let node := R.nodes n
  match node.sweep with
  | .settled term => some (R.setNode n { node with served := term, sweep := .idle })
  | _ => none

def giveUp (R : Range Row) (n : NodeId) : Range Row :=
  R.setNode n { R.nodes n with sweep := .idle }

def step (glob : GlobalView) (R : Range Row) : RangeAct Row → Option (Range Row)
  | .call n s a lag => R.call n s a (lag.view glob)
  | .late i => R.late i
  | .catchUp n => R.catchUp n
  | .elect n => some (R.elect n)
  | .crash n => some (R.crash n)
  | .settle n => R.settle n
  | .relock n lag => R.relock n (lag.view glob)
  | .scan n lag => R.scan n (lag.view glob)
  | .raced n ok => R.raced n ok
  | .unlock n => R.unlock n
  | .rescan n lag => R.rescan n (lag.view glob)
  | .advance n ok => R.advance n ok
  | .serve n => R.serve n
  | .giveUp n => some (R.giveUp n)

/-- The proposal an action appends to the log when it succeeds. -/
def appending (R : Range Row) : RangeAct Row → Option (Proposal Row)
  | .call n s (.apply true) _ =>
    match ((R.nodes n).sessions s).pc with
    | .committing b _ _ => some (.batch b)
    | _ => none
  | .late i => R.inflight[i]?.map fun p => p.2.proposal
  | .advance n true =>
    match (R.nodes n).sweep with
    | .advancing _ newLo => some (.scanLo newLo)
    | _ => none
  | _ => none

end Range

end Crabgresql.Cluster
