import Crabgresql.Single.System

/-!
# The invariant of the single-range engine

Per row, the versions in the store form a chain in the order of the history:
each version is stamped with the next transaction of the chain, and only the
last transaction of a chain may still be running. A running transaction in a
chain holds the row's exclusive lock or created the row. Per session, a snapshot
sees a prefix of every chain, and a pending change was computed from the last
image of its row.
-/

namespace Crabgresql.Single

open Mvcc Kv Procarray Lockmgr Exec Session Engine

variable {Row : Type}

namespace Shared

variable (sh : Shared Row)

def Committed (x : Xid) : Prop := sh.kv.clogGet x = .committed

/-- Ended without a commit record: none of its stamps and versions is ever visible. -/
def Dead (x : Xid) : Prop := sh.pa.Finished x ∧ ¬ sh.Committed x

def nextRowid (t : TableId) : ℕ := sh.seq.current sh.kv t

end Shared

structure RowInv (sh : Shared Row) (k : RowKey) : Prop where
  nodup : (sh.log.chain k).Nodup
  linked : Chronicle.Linked Entry.pre Entry.post none (sh.log.rowLog k)
  version : ∀ x t, sh.kv.version k x = some t → t.xmin = x ∧ (x ∈ sh.log.chain k ∨ sh.Dead x)
  settled : ∀ a ∈ (sh.log.chain k).dropLast, sh.Committed a ∧ sh.pa.Finished a
  stamped : ∀ i a b, (sh.log.chain k)[i]? = some a → (sh.log.chain k)[i + 1]? = some b →
    ∃ r, sh.log.image k a = some r ∧ sh.kv.version k a = some ⟨a, b, r⟩
  live : ∀ a r, (sh.log.chain k).getLast? = some a → sh.log.image k a = some r →
    ∃ m, sh.kv.version k a = some ⟨a, m, r⟩ ∧ (m = invalidXid ∨ sh.Dead m)
  gone : ∀ a t, (sh.log.chain k).getLast? = some a → sh.log.image k a = none →
    sh.kv.version k a = some t → t.xmax = a
  guarded : ∀ a ∈ sh.log.chain k, a ∈ sh.pa.running →
    sh.lm.HoldsExclusive k a ∨ (sh.log.chain k).head? = some a

/-- The change is what the statement prescribes for its pre-image. -/
def Entry.Valid (e : Entry Row) : Prop :=
  match e.work, e.change with
  | .update _ _ set, .update _ _ cur next => set cur = .ok next
  | .delete _ _, .delete _ _ _ => True
  | .insert _ rows, .insert _ row => .ok row ∈ rows
  | _, _ => False

structure SharedInv (sh : Shared Row) : Prop where
  next_pos : 0 < sh.pa.nextXid
  zero : invalidXid ∉ sh.pa.running ∧ sh.kv.clogGet invalidXid = .inProgress
  running_lt : ∀ x ∈ sh.pa.running, x < sh.pa.nextXid
  clog_lt : ∀ x, sh.kv.clogGet x ≠ .inProgress → x < sh.pa.nextXid
  unprepared : ∀ x g, sh.kv.clogGet x ≠ .prepared g
  sole : sh.lm.Sole
  row : ∀ k, RowInv sh k
  hist_committed : ∀ e ∈ sh.log.hist, sh.Committed e.xid
  pend_open : ∀ e ∈ sh.log.pend, e.xid ∈ sh.pa.running ∧ ¬ sh.Committed e.xid
  rowid_lt : ∀ k x t, sh.kv.version k x = some t → k.2 < sh.nextRowid k.1
  key_lt : ∀ e ∈ sh.log.hist ++ sh.log.pend, e.key.2 < sh.nextRowid e.key.1
  valid : ∀ e ∈ sh.log.hist ++ sh.log.pend, e.Valid

/-- A snapshot sees a prefix of every chain, and all of a chain in which its owner is. -/
structure ViewInv (sh : Shared Row) (S : Snapshot) (own : Option Xid) : Prop where
  finished : ∀ a, S.canSee a → sh.pa.Finished a
  closed : ∀ k, (sh.log.chain k).Pairwise fun a b => S.canSee b → S.canSee a
  covers : ∀ k x, own = some x → x ∈ sh.log.chain k → ∀ a ∈ sh.log.chain k, a ≠ x → S.canSee a

/-- The row existed for `x` when it was scanned. -/
def Target (sh : Shared Row) (S : Snapshot) (x : Xid) (k : RowKey) : Prop :=
  ∃ a, (sh.log.chain k).head? = some a ∧ (a = x ∨ S.canSee a)

/-- `x` has locked the row, every other transaction of its chain has ended, and the version
created by `curXmin` with row `cur` is the last one. `cover` is the snapshot of a REPEATABLE READ
block, which must see the whole chain. -/
structure Current (sh : Shared Row) (x : Xid) (cover : Option Snapshot) (k : RowKey)
    (curXmin : Xid) (cur : Row) : Prop where
  lock : sh.lm.HoldsExclusive k x
  last : (sh.log.chain k).getLast? = some curXmin
  image : sh.log.image k curXmin = some cur
  others : ∀ a ∈ sh.log.chain k, a ≠ x → sh.Committed a ∧ sh.pa.Finished a
  covered : ∀ S, cover = some S → ∀ a ∈ sh.log.chain k, a ≠ x → S.canSee a

def Pending (sh : Shared Row) (x : Xid) (cover : Option Snapshot) : Change Row → Prop
  | .insert k _ =>
    sh.log.rowLog k = [] ∧ (∀ y, sh.kv.version k y = none) ∧ k.2 < sh.nextRowid k.1
  | .update k curXmin cur _ | .delete k curXmin cur => Current sh x cover k curXmin cur

structure ChangesInv (sh : Shared Row) (x : Xid) (cover : Option Snapshot) (w : Work Row)
    (cs : List (Change Row)) : Prop where
  pending : ∀ c ∈ cs, Pending sh x cover c
  nodup : (cs.map Change.key).Nodup
  valid : ∀ c ∈ cs, Entry.Valid ⟨x, w, c⟩

def coverOf (repeatableRead : Bool) (S : Snapshot) : Option Snapshot :=
  if repeatableRead then some S else none

/-- An autocommit statement runs in an idle session, any other in the block that owns its xid. -/
def Block (txn : TxnState) (x : Xid) (autocommit repeatableRead : Bool) (S : Snapshot) : Prop :=
  if autocommit then txn = .idle ∧ repeatableRead = false
  else ∃ c, txn = .inTransaction c ∧ c.xid = some x ∧ c.repeatableRead = repeatableRead ∧
    c.snapshot = S

structure FrameInv (sh : Shared Row) (txn : TxnState) (f : Frame Row) (targets : List RowId) :
    Prop where
  view : ViewInv sh f.snapshot (some f.xid)
  block : Block txn f.xid f.autocommit f.repeatableRead f.snapshot
  seqOps : f.seqOps = []
  target : ∀ r ∈ targets, Target sh f.snapshot f.xid (f.key r)
  nodup : targets.Nodup
  apart : ∀ r ∈ targets, ∀ c ∈ f.changes, c.key ≠ f.key r
  changes : ChangesInv sh f.xid (coverOf f.repeatableRead f.snapshot) f.work f.changes

structure BatchInv (sh : Shared Row) (txn : TxnState) (b : Batch Row) (after : After) : Prop where
  seqOps : b.seqOps = []
  nextXid : b.nextXid = none
  after : match after with
    | .keep => b.outcome = none ∧ ∃ c, txn = .inTransaction c ∧ c.xid = some b.xid ∧
        ChangesInv sh b.xid (coverOf c.repeatableRead c.snapshot) b.work b.changes
    | .close _ => txn = .idle ∧
        (b.outcome = some .committed ∨ b.outcome = some .aborted ∧ b.changes = []) ∧
        ChangesInv sh b.xid none b.work b.changes
    | .enlist => False

def PcInv (sh : Shared Row) (txn : TxnState) : Pc Row → Prop
  | .ready => True
  | .starting _ x autocommit =>
    if autocommit then txn = .idle else ∃ c, txn = .inTransaction c ∧ c.xid = some x
  | .scanning f => FrameInv sh txn f [] ∧ f.todo = [] ∧ f.changes = []
  | .looping f => FrameInv sh txn f (f.todo.map Prod.fst)
  | .acquiring f r => FrameInv sh txn f (r :: f.todo.map Prod.fst)
  | .locked f r => FrameInv sh txn f (r :: f.todo.map Prod.fst) ∧
    (f.work.lockMode = .exclusive → sh.lm.HoldsExclusive (f.key r) f.xid)
  | .committing b _ after => BatchInv sh txn b after
  | .preparing _ => False
  | .finishing _ _ => txn = .idle
  | .releasing x _ => txn = .idle ∧ sh.pa.Finished x

def isFinishing (self : Sess Row) : Bool :=
  match self.pc with
  | .finishing _ _ => true
  | _ => false

structure SessInv (sh : Shared Row) (u : Sess Row) : Prop where
  global : u.globalXid = none
  running : ∀ x, activeXid u = some x → x ∈ sh.pa.running
  undecided : ∀ x, activeXid u = some x → isFinishing u = false →
    sh.kv.clogGet x = .inProgress
  block : ∀ c, u.txn = .inTransaction c ∨ u.txn = .failed c → c.repeatableRead = true →
    ViewInv sh c.snapshot c.xid
  pc : PcInv sh u.txn u.pc

structure Inv (T : Tracked Row) : Prop where
  shared : SharedInv T.sh
  sess : ∀ s, SessInv T.sh (T.sessions s)
  uniq : ∀ s s' x, activeXid (T.sessions s) = some x → activeXid (T.sessions s') = some x → s = s'
  apart : ∀ s s' k, k ∈ insertKeys (pendingChanges (T.sessions s)) →
    k ∈ insertKeys (pendingChanges (T.sessions s')) → s = s'

end Crabgresql.Single
