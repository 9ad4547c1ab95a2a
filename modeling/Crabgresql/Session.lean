import Crabgresql.Exec

/-!
# Sessions of one engine

A session runs statements against the shared store, running set, lock table and
sequences of its engine. A statement is a sequence of atomic steps: allocate the
xid, take the snapshot, scan, then for every scanned row filter, lock and
recheck, and at the end propose one batch; the commit of the batch, the
deregistration of the xid and the release of its locks are steps of their own.
Other sessions may run between any two of them.
-/

namespace Crabgresql.Session

open Mvcc Kv Procarray Lockmgr Exec

variable {Row : Type}

structure Config where
  mode : PersistMode
  /-- The engine has a global transaction manager or a barrier to range 0. -/
  multiRange : Bool
  deriving DecidableEq, Repr

structure TxnCtx where
  xid : Option Xid
  snapshot : Snapshot
  repeatableRead : Bool
  globalSnapshot : Option Snapshot
  writtenRows : List RowKey
  deriving DecidableEq, Repr

inductive TxnState
  | idle
  | inTransaction (c : TxnCtx)
  | failed (c : TxnCtx)
  deriving DecidableEq, Repr

/-- The locals of a statement in execution. -/
structure Frame (Row : Type) where
  xid : Xid
  snapshot : Snapshot
  gsnap : Snapshot
  repeatableRead : Bool
  autocommit : Bool
  work : Work Row
  /-- Scanned rows the loop has not reached. -/
  todo : List (RowId × Row)
  changes : List (Change Row)
  seqOps : List (WriteOp Row)

def Frame.key (f : Frame Row) (r : RowId) : RowKey := (f.work.table, r)

/-- A batch handed to the committer. -/
structure Batch (Row : Type) where
  xid : Xid
  work : Work Row
  seqOps : List (WriteOp Row)
  changes : List (Change Row)
  outcome : Option XidStatus
  nextXid : Option Xid

namespace Batch

def clogOps (b : Batch Row) : List (WriteOp Row) :=
  match b.outcome with
  | some st => [.clog b.xid st]
  | none => []

def nextXidOps (b : Batch Row) : List (WriteOp Row) :=
  match b.nextXid with
  | some n => [.counter .nextXid n]
  | none => []

def rowOps (b : Batch Row) : List (WriteOp Row) := b.changes.flatMap (Change.rowOps b.xid)

def ops (b : Batch Row) : List (WriteOp Row) := b.seqOps ++ b.rowOps ++ b.clogOps ++ b.nextXidOps

/-- A batch that only records the outcome of `x`. -/
def record (x : Xid) (st : XidStatus) (nextXid : Option Xid) : Batch Row :=
  ⟨x, .invalid, [], [], some st, nextXid⟩

end Batch

/-- What the session does when its commit returns. `close ack` ends the transaction, and reports a
commit to the client when `ack` is set and the batch went through. -/
inductive After
  | keep
  | enlist
  | close (ack : Bool)
  deriving DecidableEq, Repr

inductive Pc (Row : Type)
  | ready
  | starting (w : Work Row) (x : Xid) (autocommit : Bool)
  | scanning (f : Frame Row)
  | looping (f : Frame Row)
  | acquiring (f : Frame Row) (r : RowId)
  | locked (f : Frame Row) (r : RowId)
  | committing (b : Batch Row) (epoch : ℕ) (after : After)
  | preparing (x : Xid)
  | finishing (x : Xid) (ack : Bool)
  | releasing (x : Xid) (ack : Bool)

structure Sess (Row : Type) where
  txn : TxnState
  globalXid : Option Xid
  pc : Pc Row
  /-- The error of the last statement. -/
  err : Option ExecError

def Sess.new : Sess Row := ⟨.idle, none, .ready, none⟩

def TxnState.localXid : TxnState → Option Xid
  | .inTransaction c | .failed c => c.xid
  | .idle => none

def TxnState.writtenRows : TxnState → List RowKey
  | .inTransaction c | .failed c => c.writtenRows
  | .idle => []

/-- A statement error aborts an open block and leaves an idle session idle. -/
def TxnState.fail : TxnState → TxnState
  | .inTransaction c => .failed c
  | other => other

/-- A REPEATABLE READ block keeps the snapshot of its BEGIN. -/
def TxnState.holdsSnapshot : TxnState → Bool
  | .inTransaction c => c.repeatableRead
  | _ => false

@[simp] theorem localXid_fail (txn : TxnState) : txn.fail.localXid = txn.localXid := by
  cases txn <;> rfl

/-- The shared state of an engine as one of its sessions sees it. -/
structure View (Row : Type) where
  kv : Store Row
  pa : ProcArray
  lm : LockMgr
  seq : SequenceManager
  self : Sess Row

/-- What a step reads from outside the engine. `epoch` is the term in which a batch is proposed. -/
structure Env where
  cfg : Config
  glob : GlobalView
  epoch : ℕ

def commitBatch (mode : PersistMode) (kv : Store Row) (ops : List (WriteOp Row)) : Store Row :=
  match mode with
  | .durable => writeBatch kv ops
  | .replicated => applyBatch kv ops

def globalReadSnapshot (env : Env) (stored : Option Snapshot) : Snapshot :=
  match stored with
  | some s => s
  | none => if env.cfg.multiRange then durableGlobalSnapshot env.glob else noGlobalSnapshot

def foldNextXid (env : Env) (pa : ProcArray) : Option Xid :=
  match env.cfg.mode with
  | .durable => none
  | .replicated => some pa.nextXid

/-- Global transactions, not decided in this replica, under which another transaction wrote one
of the given rows. -/
def siblingGlobals (kv : Store Row) (glob : GlobalView) (li g : Xid) (written : List RowKey) :
    List Xid :=
  written.flatMap fun k =>
    (kv.rowVersions k).filterMap fun t =>
      if t.xmin = li then none
      else
        match kv.clogGet t.xmin with
        | .prepared gOld =>
          if gOld ≠ g ∧ (glob.clog gOld).isTerminal = false then some gOld else none
        | _ => none

/-- The marker adopts the smallest of them in place of `g`. -/
def effectiveGlobalXid (kv : Store Row) (glob : GlobalView) (txn : TxnState) (g : Xid) : Xid :=
  match txn.localXid with
  | none => g
  | some li => (siblingGlobals kv glob li g txn.writtenRows).min?.getD g

namespace View

variable (env : Env) (v : View Row)

def setPc (pc : Pc Row) : View Row := { v with self := { v.self with pc := pc } }

def fail (f : Frame Row) (e : ExecError) : View Row :=
  { v with
    self :=
      { v.self with
        txn := v.self.txn.fail
        err := some e
        pc :=
          if f.autocommit then
            if f.work.isWrite then .committing (.record f.xid .aborted none) env.epoch (.close false)
            else .finishing f.xid false
          else .ready } }

def reject : View Row := { v with self := { v.self with err := some .inFailedTransaction } }

def begin (rr : Bool) : Option (View Row) :=
  match v.self.pc, v.self.txn with
  | .ready, .idle =>
    some { v with
      self :=
        { v.self with
          err := none
          txn := .inTransaction
            ⟨none, v.pa.snapshot, rr, if rr then some (globalReadSnapshot env none) else none, []⟩ } }
  | .ready, .inTransaction _ => some { v with self := { v.self with err := none } }
  | .ready, .failed _ => some v.reject
  | _, _ => none

def select : Option (View Row) :=
  match v.self.pc, v.self.txn with
  | .ready, .idle => some { v with self := { v.self with err := none } }
  | .ready, .inTransaction c =>
    some { v with
      self :=
        { v.self with
          err := none
          txn := .inTransaction
            (if c.repeatableRead then c else { c with snapshot := v.pa.snapshot }) } }
  | .ready, .failed _ => some v.reject
  | _, _ => none

def selectFails : Option (View Row) :=
  v.select.map fun v =>
    { v with
      self := { v.self with txn := v.self.txn.fail, err := v.self.err.or (some .evaluation) } }

def abortCtx (c : TxnCtx) : View Row :=
  { v with
    self :=
      { v.self with
        err := none
        txn := .idle
        pc :=
          match c.xid with
          | some x => .committing (.record x .aborted none) env.epoch (.close false)
          | none => .ready } }

def commit : Option (View Row) :=
  match v.self.pc, v.self.txn with
  | .ready, .idle => some { v with self := { v.self with err := none } }
  | .ready, .inTransaction c =>
    some { v with
      self :=
        { v.self with
          err := none
          txn := .idle
          pc :=
            match c.xid with
            | some x =>
              .committing (.record x .committed (foldNextXid env v.pa)) env.epoch (.close true)
            | none => .ready } }
  | .ready, .failed c => some (v.abortCtx env c)
  | _, _ => none

def rollback : Option (View Row) :=
  match v.self.pc, v.self.txn with
  | .ready, .idle => some { v with self := { v.self with err := none } }
  | .ready, .inTransaction c | .ready, .failed c => some (v.abortCtx env c)
  | _, _ => none

/-- The first step of a statement: the xid is allocated unless the block already has one. -/
def start (w : Work Row) : Option (View Row) :=
  match v.self.pc, v.self.txn with
  | .ready, .idle =>
    let (x, kv, pa) := v.pa.beginWrite env.cfg.mode v.kv
    some { v with kv := kv, pa := pa, self := { v.self with err := none, pc := .starting w x true } }
  | .ready, .inTransaction c =>
    match c.xid with
    | some x => some { v with self := { v.self with err := none, pc := .starting w x false } }
    | none =>
      let (x, kv, pa) := v.pa.beginWrite env.cfg.mode v.kv
      some { v with
        kv := kv
        pa := pa
        self :=
          { v.self with
            err := none
            txn := .inTransaction { c with xid := some x }
            pc := .starting w x false } }
  | .ready, .failed _ => some v.reject
  | _, _ => none

/-- The statement's snapshots: fresh ones unless the block is REPEATABLE READ. -/
def takeSnapshot : Option (View Row) :=
  match v.self.pc, v.self.txn with
  | .starting w x true, _ =>
    some (v.setPc (.scanning
      ⟨x, v.pa.snapshot, globalReadSnapshot env none, false, true, w, [], [], []⟩))
  | .starting w x false, .inTransaction c =>
    let c' := if c.repeatableRead then c else { c with snapshot := v.pa.snapshot }
    let gsnap := globalReadSnapshot env (if c.repeatableRead then c.globalSnapshot else none)
    some { v with
      self :=
        { v.self with
          txn := .inTransaction c'
          pc := .scanning ⟨x, c'.snapshot, gsnap, c.repeatableRead, false, w, [], [], []⟩ } }
  | _, _ => none

def scan : Option (View Row) :=
  match v.self.pc with
  | .scanning f =>
    match f.work with
    | .invalid => some (v.fail env f .evaluation)
    | .insert t rows =>
      if rows = [] then some (v.setPc (.looping f))
      else
        let (start, kv, seq, ops) := v.seq.alloc env.cfg.mode v.kv t rows.length
        let v' : View Row := { v with kv := kv, seq := seq }
        match insertChanges t start rows with
        | .error e => some (v'.fail env f e)
        | .ok cs => some (v'.setPc (.looping { f with changes := cs, seqOps := ops }))
    | w =>
      some (v.setPc (.looping { f with
        todo := (scanLive v.kv env.glob f.gsnap f.snapshot (some f.xid) w.table).map
          fun e => (e.1, e.2.2) }))
  | _ => none

/-- The scanned row is filtered before it is locked. -/
def next : Option (View Row) :=
  match v.self.pc with
  | .looping f =>
    match f.todo with
    | [] => none
    | (r, row) :: rest =>
      match f.work.matchRow row with
      | .error e => some (v.fail env f e)
      | .ok false => some (v.setPc (.looping { f with todo := rest }))
      | .ok true => some (v.setPc (.acquiring { f with todo := rest } r))
  | _ => none

def acquire (pick : Xid) : Option (View Row) :=
  match v.self.pc with
  | .acquiring f r =>
    match v.lm.acquire (f.key r) f.work.lockMode f.xid pick with
    | none => none
    | some (.granted lm) => some (View.setPc { v with lm := lm } (.locked f r))
    | some (.waiting lm) => some { v with lm := lm }
    | some (.deadlock lm) => some (View.fail env { v with lm := lm } f .deadlock)
  | _ => none

def recheck : Option (View Row) :=
  match v.self.pc with
  | .locked f r =>
    match evalPlanQual v.kv env.glob v.pa f.snapshot (f.key r) f.xid f.repeatableRead with
    | .error e => some (v.fail env f e)
    | .ok none => some (v.setPc (.looping f))
    | .ok (some found) =>
      match f.work.change (f.key r) found with
      | .error e => some (v.fail env f e)
      | .ok none => some (v.setPc (.looping f))
      | .ok (some c) => some (v.setPc (.looping { f with changes := f.changes ++ [c] }))
  | _ => none

def touched (ops : List (WriteOp Row)) : List RowKey :=
  ops.filterMap fun op =>
    match op with
    | .version k _ => some k.rowKey
    | _ => none

/-- The statement's loop is over and its batch goes to the committer. -/
def propose : Option (View Row) :=
  match v.self.pc with
  | .looping f =>
    if f.todo ≠ [] then none
    else if !f.work.isWrite then
      some (v.setPc (if f.autocommit then .finishing f.xid false else .ready))
    else if f.autocommit then
      some (v.setPc (.committing
        ⟨f.xid, f.work, f.seqOps, f.changes, some .committed, foldNextXid env v.pa⟩
        env.epoch (.close true)))
    else
      match v.self.txn with
      | .inTransaction c =>
        let rows := touched (f.seqOps ++ f.changes.flatMap (Change.rowOps f.xid))
        let txn := .inTransaction { c with writtenRows := c.writtenRows ++ rows }
        let marker := v.self.globalXid.map (effectiveGlobalXid v.kv env.glob txn)
        some { v with
          self :=
            { v.self with
              txn := txn
              globalXid := marker
              pc := .committing
                ⟨f.xid, f.work, f.seqOps, f.changes, marker.map .prepared, foldNextXid env v.pa⟩
                env.epoch .keep } }
      | _ => none
  | _ => none

def apply (ok : Bool) : Option (View Row) :=
  match v.self.pc with
  | .committing b _ after =>
    let kv := if ok then commitBatch env.cfg.mode v.kv b.ops else v.kv
    let err := if ok then v.self.err else v.self.err.or (some .unavailable)
    let self : Sess Row :=
      match after with
      | .keep =>
        if ok then
          { v.self with pc := if v.self.globalXid.isSome then .preparing b.xid else .ready }
        else { v.self with pc := .ready, txn := v.self.txn.fail, err := err }
      | .enlist =>
        if ok then { v.self with pc := .preparing b.xid } else { v.self with pc := .ready, err := err }
      | .close ack => { v.self with pc := .finishing b.xid (ack && ok), err := err }
    some { v with kv := kv, self := self }
  | _ => none

def finish : Option (View Row) :=
  match v.self.pc with
  | .preparing x => some (View.setPc { v with pa := v.pa.finish x } .ready)
  | .finishing x ack => some (View.setPc { v with pa := v.pa.finish x } (.releasing x ack))
  | _ => none

def release : Option (View Row) :=
  match v.self.pc with
  | .releasing x _ => some (View.setPc { v with lm := v.lm.releaseAll x } .ready)
  | _ => none

/-- `join_global`: the marker of an already written transaction is proposed without the xid
counter. -/
def join (g : Xid) : Option (View Row) :=
  match v.self.pc with
  | .ready =>
    match v.self.txn.localXid with
    | none => some { v with self := { v.self with err := none, globalXid := some g } }
    | some x =>
      let eff := effectiveGlobalXid v.kv env.glob v.self.txn g
      some { v with
        self :=
          { v.self with
            err := none
            globalXid := some eff
            pc := .committing (.record x (.prepared eff) none) env.epoch .enlist } }
  | _ => none

/-- `finish_current_txn`: the release after a global decision, or a dropped connection. Nothing is
recorded. -/
def drop : Option (View Row) :=
  match v.self.pc with
  | .ready =>
    let self : Sess Row := { v.self with globalXid := none, txn := .idle }
    match v.self.txn.localXid with
    | none => some { v with self := self }
    | some x => some { v with pa := v.pa.finish x, lm := v.lm.releaseAll x, self := self }
  | _ => none

end View

inductive Act (Row : Type)
  | begin (rr : Bool)
  | select
  | commit
  | rollback
  | start (w : Work Row)
  | takeSnapshot
  | scan
  | next
  | acquire (pick : Xid)
  | recheck
  | propose
  | apply (ok : Bool)
  | finish
  | release
  | join (g : Xid)
  | drop

def step (env : Env) (v : View Row) : Act Row → Option (View Row)
  | .begin rr => v.begin env rr
  | .select => v.select
  | .commit => v.commit env
  | .rollback => v.rollback env
  | .start w => v.start env w
  | .takeSnapshot => v.takeSnapshot env
  | .scan => v.scan env
  | .next => v.next env
  | .acquire pick => v.acquire env pick
  | .recheck => v.recheck env
  | .propose => v.propose env
  | .apply ok => v.apply env ok
  | .finish => v.finish
  | .release => v.release
  | .join g => v.join env g
  | .drop => v.drop

def Pc.frame : Pc Row → Option (Frame Row)
  | .scanning f | .looping f | .acquiring f _ | .locked f _ => some f
  | _ => none

def activeXid (self : Sess Row) : Option Xid :=
  match self.pc with
  | .ready => self.txn.localXid
  | .starting _ x _ | .preparing x | .finishing x _ => some x
  | .scanning f | .looping f | .acquiring f _ | .locked f _ => some f.xid
  | .committing b _ _ => some b.xid
  | .releasing _ _ => none

def pendingChanges (self : Sess Row) : List (Change Row) :=
  match self.pc with
  | .looping f | .acquiring f _ | .locked f _ => f.changes
  | .committing b _ _ => b.changes
  | _ => []

end Crabgresql.Session
