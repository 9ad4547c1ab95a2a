import Crabgresql.Lib.Runs
import Crabgresql.Gtm
import Crabgresql.Cluster.Range

/-!
# The allocation of global xids

The calls of `begin_global_durable` and `commit_global_decision` on the nodes of
range 0. Such a call takes its xid, reads the counter, proposes its batch and
returns when the batch is applied; the four moments may lie in any order with
those of other calls, with leader changes and with restarts.
-/

namespace Crabgresql.Cluster

open Mvcc Kv Gtm

variable {Row : Type}

inductive Job
  | begin (g : Xid)
  | decision (g : Xid) (commit : Bool)
  deriving DecidableEq, Repr

/-- How far a call has come. The stamp numbers the reads of the counter; the epoch is the term
in which the node proposed, if it led. -/
inductive Progress
  | arrived
  | built (value : Xid) (stamp : ℕ)
  | proposed (value : Xid) (stamp : ℕ) (epoch : Option ℕ)
  deriving DecidableEq, Repr

structure Call where
  node : NodeId
  job : Job
  /-- The term in which the node led with a reseeded counter when the call arrived. -/
  served : Option ℕ
  progress : Progress
  /-- The caller has not been refused. -/
  waiting : Bool
  deriving DecidableEq, Repr

def Call.read (c : Call) : Option (Xid × ℕ) :=
  match c.progress with
  | .arrived => none
  | .built value stamp | .proposed value stamp _ => some (value, stamp)

def Job.ops (job : Job) (value : Xid) : List (WriteOp Row) :=
  match job with
  | .begin _ => [nextGlobalXidOp ⟨value⟩]
  | .decision g commit =>
    [.clog g (if commit then .committed else .aborted), nextGlobalXidOp ⟨value⟩]

structure Allocator (Row : Type) where
  log : List (List (WriteOp Row))
  term : ℕ
  leader : Option NodeId
  /-- The last term whose leader passed the read barrier and reseeded. -/
  barrier : ℕ
  gtms : NodeId → Gtm
  calls : ℕ → Option Call
  /-- What the successful calls of `begin_global_durable` returned. -/
  returned : List Xid
  clock : ℕ
  /-- The stamp of the last batch applied. -/
  lastStamp : ℕ

inductive AllocAct
  | begin (i : ℕ) (n : NodeId)
  | decide (i : ℕ) (n : NodeId) (g : Xid) (commit : Bool)
  | read (i : ℕ)
  | propose (i : ℕ)
  | apply (i : ℕ)
  | refuse (i : ℕ)
  | elect (n : NodeId)
  | crash (n : NodeId) (applied : ℕ)
  | reseed
  deriving DecidableEq, Repr

namespace Allocator

def initial : Allocator Row :=
  ⟨[], 0, none, 0, fun _ => .open (.empty : Store Row), fun _ => none, [], 1, 0⟩

def storeAt (A : Allocator Row) (i : ℕ) : Store Row := (A.log.take i).foldl applyBatch .empty

def tip (A : Allocator Row) : Store Row := A.log.foldl applyBatch .empty

def next (A : Allocator Row) : Xid := readNextGlobal A.tip

def serves (A : Allocator Row) (n : NodeId) : Bool :=
  decide (A.leader = some n) && decide (A.barrier = A.term)

def setCall (A : Allocator Row) (i : ℕ) (c : Option Call) : Allocator Row :=
  { A with calls := Function.update A.calls i c }

def arrive (A : Allocator Row) (i : ℕ) (n : NodeId) (job : Job) (served : Option ℕ) (gtm : Gtm) :
    Allocator Row :=
  { A.setCall i (some ⟨n, job, served, .arrived, true⟩) with
    gtms := Function.update A.gtms n gtm }

/-- Allocation is gated: it runs on the leader after its reseed. -/
def begin (A : Allocator Row) (i : ℕ) (n : NodeId) : Option (Allocator Row) :=
  if A.calls i = none ∧ A.serves n = true then
    let (g, gtm) := (A.gtms n).beginGlobal
    some (A.arrive i n (.begin g) (some A.term) gtm)
  else none

/-- A decision is not gated. -/
def decide (A : Allocator Row) (i : ℕ) (n : NodeId) (g : Xid) (commit : Bool) :
    Option (Allocator Row) :=
  if A.calls i = none then
    let served := if A.serves n then some A.term else none
    some (A.arrive i n (.decision g commit) served (A.gtms n))
  else none

def built (A : Allocator Row) (i : ℕ) (c : Call) : Allocator Row :=
  { A.setCall i (some { c with progress := .built (A.gtms c.node).nextGlobal A.clock }) with
    clock := A.clock + 1 }

def read (A : Allocator Row) (i : ℕ) : Option (Allocator Row) :=
  match A.calls i with
  | some c => if c.progress = .arrived then some (A.built i c) else none
  | none => none

/-- The term under which node `n` proposes; without leading it proposes nothing. -/
def epochOf (A : Allocator Row) (n : NodeId) : Option ℕ :=
  if A.leader = some n then some A.term else none

def propose (A : Allocator Row) (i : ℕ) : Option (Allocator Row) :=
  match A.calls i with
  | some c =>
    match c.progress with
    | .built value stamp =>
      let progress := .proposed value stamp (A.epochOf c.node)
      some (A.setCall i (some { c with progress }))
    | _ => none
  | none => none

def reply (c : Call) : List Xid :=
  match c.job with
  | .begin g => if c.waiting then [g] else []
  | .decision _ _ => []

def applied (A : Allocator Row) (i : ℕ) (c : Call) (value : Xid) (stamp : ℕ) : Allocator Row :=
  { A.setCall i none with
    log := A.log ++ [c.job.ops value]
    returned := A.returned ++ reply c
    lastStamp := stamp }

/-- A batch can be applied until a leader of a later term has passed its barrier. -/
def apply (A : Allocator Row) (i : ℕ) : Option (Allocator Row) :=
  match A.calls i with
  | some c =>
    match c.progress with
    | .proposed value stamp (some epoch) =>
      if A.barrier ≤ epoch then
        some (A.applied i c value stamp)
      else none
    | _ => none
  | none => none

/-- The caller gets an error; the batch may be applied all the same. -/
def refuse (A : Allocator Row) (i : ℕ) : Option (Allocator Row) :=
  match A.calls i with
  | some c =>
    match c.progress with
    | .proposed _ _ _ => some (A.setCall i (some { c with waiting := false }))
    | _ => none
  | none => none

def elect (A : Allocator Row) (n : NodeId) : Allocator Row :=
  { A with term := A.term + 1, leader := some n }

/-- What is left of a call when node `n` restarts. -/
def survives (n : NodeId) (c : Call) : Option Call :=
  if c.node = n then
    match c.progress with
    | .proposed _ _ _ => some { c with waiting := false }
    | _ => none
  else some c

/-- Node `n` restarts on a replica that has applied a prefix of the log. -/
def crash (A : Allocator Row) (n : NodeId) (applied : ℕ) : Allocator Row :=
  { A with
    leader := if A.leader = some n then none else A.leader
    gtms := Function.update A.gtms n (.open (A.storeAt applied))
    calls := fun i => (A.calls i).bind (survives n) }

/-- The read barrier and `reseed_gtm` of leader `n`. -/
def reseeded (A : Allocator Row) (n : NodeId) : Allocator Row :=
  { A with
    barrier := A.term
    gtms := Function.update A.gtms n ((A.gtms n).reseedFromApplied A.tip) }

def reseed (A : Allocator Row) : Option (Allocator Row) :=
  match A.leader with
  | some n => if A.barrier < A.term then some (A.reseeded n) else none
  | none => none

def step (A : Allocator Row) : AllocAct → Option (Allocator Row)
  | .begin i n => A.begin i n
  | .decide i n g commit => A.decide i n g commit
  | .read i => A.read i
  | .propose i => A.propose i
  | .apply i => A.apply i
  | .refuse i => A.refuse i
  | .elect n => some (A.elect n)
  | .crash n applied => some (A.crash n applied)
  | .reseed => A.reseed

end Allocator

end Crabgresql.Cluster
