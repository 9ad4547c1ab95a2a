import Crabgresql.Kv

/-!
# The running-transaction registry and the rowid sequences

Both own an in-memory counter. In `durable` mode an allocation persists the new
counter value before it returns. In `replicated` mode it does not: the session
folds a put of the counter into some later batch, and a new leader lifts its
counters from the applied store.
-/

namespace Crabgresql.Procarray

open Mvcc Kv

inductive PersistMode
  | durable
  | replicated
  deriving DecidableEq, Repr

variable {Row : Type}

structure ProcArray where
  nextXid : Xid
  running : List Xid
  deriving DecidableEq, Repr

namespace ProcArray

def durableNext (kv : Store Row) : Xid := max ((kv.counters .nextXid).getD 1) 1

def «open» (kv : Store Row) : ProcArray := ⟨durableNext kv, []⟩

/-- The running set is ordered in the source; an xid is registered once. -/
def register (running : List Xid) (x : Xid) : List Xid :=
  if x ∈ running then running else running.orderedInsert (· ≤ ·) x

def beginWrite (mode : PersistMode) (kv : Store Row) (pa : ProcArray) :
    Xid × Store Row × ProcArray :=
  let xid := pa.nextXid
  (xid,
    match mode with
    | .durable => put kv (.counter .nextXid (xid + 1))
    | .replicated => kv,
    ⟨xid + 1, register pa.running xid⟩)

def reseedFromApplied (kv : Store Row) (pa : ProcArray) : ProcArray :=
  { pa with nextXid := max pa.nextXid (durableNext kv) }

def snapshot (pa : ProcArray) : Snapshot :=
  ⟨pa.running.head?.getD pa.nextXid, pa.nextXid, pa.running⟩

def finish (pa : ProcArray) (x : Xid) : ProcArray :=
  { pa with running := pa.running.filter (· ≠ x) }

def Finished (pa : ProcArray) (x : Xid) : Prop := x < pa.nextXid ∧ x ∉ pa.running

instance (pa : ProcArray) (x : Xid) : Decidable (pa.Finished x) :=
  inferInstanceAs (Decidable (_ ∧ _))

@[simp] theorem mem_register {running : List Xid} {x y : Xid} :
    y ∈ register running x ↔ y = x ∨ y ∈ running := by
  unfold register
  split_ifs with h
  · constructor
    · exact .inr
    · rintro (rfl | hy)
      · exact h
      · exact hy
  · simp [List.mem_orderedInsert]

@[simp] theorem nextXid_finish (pa : ProcArray) (x : Xid) :
    (pa.finish x).nextXid = pa.nextXid := rfl

@[simp] theorem mem_running_finish {pa : ProcArray} {x y : Xid} :
    y ∈ (pa.finish x).running ↔ y ∈ pa.running ∧ y ≠ x := by
  simp [finish]

@[simp] theorem canSee_snapshot {pa : ProcArray} {x : Xid} :
    pa.snapshot.canSee x ↔ pa.Finished x := Iff.rfl

end ProcArray

structure SequenceManager where
  next : TableId → Option ℕ

namespace SequenceManager

def new : SequenceManager := ⟨fun _ => none⟩

def readSeqKv (kv : Store Row) (t : TableId) : ℕ := (kv.counters (.seq t)).getD 1

def current (kv : Store Row) (s : SequenceManager) (t : TableId) : ℕ :=
  (s.next t).getD (readSeqKv kv t)

def set (s : SequenceManager) (t : TableId) (n : ℕ) : SequenceManager :=
  ⟨Function.update s.next t (some n)⟩

@[simp] theorem next_set (s : SequenceManager) (t t' : TableId) (n : ℕ) :
    (s.set t n).next t' = if t' = t then some n else s.next t' :=
  Function.update_apply _ _ _ _

/-- First rowid of the block, the store, the manager, and the put left to the caller. -/
def alloc (mode : PersistMode) (kv : Store Row) (s : SequenceManager) (t : TableId) (count : ℕ) :
    ℕ × Store Row × SequenceManager × List (WriteOp Row) :=
  let next := s.current kv t
  let op : WriteOp Row := .counter (.seq t) (next + count)
  let s' : SequenceManager := s.set t (next + count)
  match mode with
  | .durable => (next, put kv op, s', [])
  | .replicated => (next, kv, s', [op])

def reseedFromApplied (_ : SequenceManager) : SequenceManager := new

end SequenceManager

end Crabgresql.Procarray
