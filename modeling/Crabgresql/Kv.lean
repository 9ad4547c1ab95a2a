import Crabgresql.Mvcc

/-!
# The store of one range

Every key of the byte store that the transaction code reads is one of three
kinds: a row version under `(table, rowid, xid)`, a commit-log entry under an
xid, or a counter. A batch is a list of puts. `put` is the plain store;
`applyOp` is the replicated state machine, which merges two of the counter
kinds by maximum and keeps a terminal commit-log entry.
-/

namespace Crabgresql.Kv

open Std (ExtTreeMap TransOrd TransCmp LawfulEqOrd)
open Mvcc List

structure VersionKey where
  table : TableId
  rowid : RowId
  xid : Xid
  deriving DecidableEq, Repr

namespace VersionKey

/-- The byte order of version keys: table, then rowid, then creator. -/
def order : VersionKey → VersionKey → Ordering :=
  compareLex (compareOn VersionKey.table)
    (compareLex (compareOn VersionKey.rowid) (compareOn VersionKey.xid))

instance : Ord VersionKey := ⟨order⟩

instance : TransOrd VersionKey :=
  inferInstanceAs (TransCmp (compareLex (compareOn VersionKey.table)
    (compareLex (compareOn VersionKey.rowid) (compareOn VersionKey.xid))))

theorem order_eq {a b : VersionKey} (h : compare a b = .eq) : a = b := by
  have h' : order a b = .eq := h
  simp only [order, compareLex, compareOn, Ordering.then_eq_eq, Nat.compare_eq_eq] at h'
  obtain ⟨htable, hrowid, hxid⟩ := h'
  cases a
  cases b
  simp_all

instance : LawfulEqOrd VersionKey := ⟨order_eq⟩

def rowKey (k : VersionKey) : RowKey := (k.table, k.rowid)

end VersionKey

def versionKey (k : RowKey) (x : Xid) : VersionKey := ⟨k.1, k.2, x⟩

@[simp] theorem rowKey_versionKey (k : RowKey) (x : Xid) : (versionKey k x).rowKey = k := rfl

@[simp] theorem versionKey_inj {k k' : RowKey} {x x' : Xid} :
    versionKey k x = versionKey k' x' ↔ k = k' ∧ x = x' := by
  simp [versionKey, Prod.ext_iff, and_assoc]

inductive CounterKey
  | nextXid
  | nextGlobalXid
  | clogScanLo
  | seq (t : TableId)
  deriving DecidableEq, Repr

inductive WriteOp (Row : Type)
  | version (k : VersionKey) (t : Tuple Row)
  | clog (x : Xid) (st : XidStatus)
  | counter (k : CounterKey) (n : ℕ)

structure Store (Row : Type) where
  versions : ExtTreeMap VersionKey (Tuple Row)
  clog : ExtTreeMap Xid XidStatus
  counters : CounterKey → Option ℕ

variable {Row : Type}

namespace Store

def empty : Store Row := ⟨∅, ∅, fun _ => none⟩

def version (kv : Store Row) (k : RowKey) (x : Xid) : Option (Tuple Row) :=
  kv.versions[versionKey k x]?

/-- An absent entry reads as in progress. -/
def clogGet (kv : Store Row) (x : Xid) : XidStatus := kv.clog[x]?.getD .inProgress

def rowVersions (kv : Store Row) (k : RowKey) : List (Tuple Row) :=
  (kv.versions.toList.filter fun e => decide (e.1.rowKey = k)).map Prod.snd

def rowids (kv : Store Row) (t : TableId) : List RowId :=
  (((kv.versions.toList.filter fun e => decide (e.1.table = t)).map
    fun e => e.1.rowid).dedup).insertionSort (· ≤ ·)

def setVersion (kv : Store Row) (k : VersionKey) (t : Tuple Row) : Store Row :=
  { kv with versions := kv.versions.insert k t }

def setClog (kv : Store Row) (x : Xid) (st : XidStatus) : Store Row :=
  { kv with clog := kv.clog.insert x st }

def setCounter (kv : Store Row) (k : CounterKey) (n : ℕ) : Store Row :=
  { kv with counters := Function.update kv.counters k (some n) }

end Store

/-- The plain put of a local engine. -/
def put (kv : Store Row) : WriteOp Row → Store Row
  | .version k t => kv.setVersion k t
  | .clog x st => kv.setClog x st
  | .counter k n => kv.setCounter k n

def writeBatch (kv : Store Row) (ops : List (WriteOp Row)) : Store Row := ops.foldl put kv

/-- Only the local xid counter and the rowid sequences; the global xid counter and the
recovery watermark are not among them. -/
def isCounterKey : CounterKey → Bool
  | .nextXid | .seq _ => true
  | .nextGlobalXid | .clogScanLo => false

def applyOp (kv : Store Row) : WriteOp Row → Store Row
  | .counter k n =>
    if isCounterKey k then kv.setCounter k (max ((kv.counters k).getD 0) n)
    else kv.setCounter k n
  | .clog x st => if (kv.clogGet x).isTerminal then kv else kv.setClog x st
  | .version k t => kv.setVersion k t

def applyBatch (kv : Store Row) (ops : List (WriteOp Row)) : Store Row := ops.foldl applyOp kv

section Access

variable (kv : Store Row)

@[simp] theorem version_empty (k : RowKey) (x : Xid) :
    (Store.empty : Store Row).version k x = none :=
  ExtTreeMap.getElem?_empty

@[simp] theorem clogGet_empty (x : Xid) : (Store.empty : Store Row).clogGet x = .inProgress := by
  simp [Store.clogGet, Store.empty]

@[simp] theorem version_setVersion (k k' : RowKey) (x x' : Xid) (t : Tuple Row) :
    (kv.setVersion (versionKey k x) t).version k' x' =
      if k = k' ∧ x = x' then some t else kv.version k' x' := by
  simp only [Store.setVersion, Store.version, ExtTreeMap.getElem?_insert, Std.compare_eq_iff_eq,
    versionKey_inj]

@[simp] theorem clogGet_setVersion (k : VersionKey) (t : Tuple Row) (x : Xid) :
    (kv.setVersion k t).clogGet x = kv.clogGet x := rfl

@[simp] theorem counters_setVersion (k : VersionKey) (t : Tuple Row) :
    (kv.setVersion k t).counters = kv.counters := rfl

@[simp] theorem version_setClog (x : Xid) (st : XidStatus) (k : RowKey) (y : Xid) :
    (kv.setClog x st).version k y = kv.version k y := rfl

@[simp] theorem clogGet_setClog (x y : Xid) (st : XidStatus) :
    (kv.setClog x st).clogGet y = if x = y then st else kv.clogGet y := by
  simp only [Store.setClog, Store.clogGet, ExtTreeMap.getElem?_insert, Std.compare_eq_iff_eq]
  split_ifs <;> rfl

@[simp] theorem counters_setClog (x : Xid) (st : XidStatus) :
    (kv.setClog x st).counters = kv.counters := rfl

@[simp] theorem version_setCounter (c : CounterKey) (n : ℕ) (k : RowKey) (x : Xid) :
    (kv.setCounter c n).version k x = kv.version k x := rfl

@[simp] theorem clogGet_setCounter (c : CounterKey) (n : ℕ) (x : Xid) :
    (kv.setCounter c n).clogGet x = kv.clogGet x := rfl

@[simp] theorem counters_setCounter (c c' : CounterKey) (n : ℕ) :
    (kv.setCounter c n).counters c' = if c' = c then some n else kv.counters c' := by
  simp only [Store.setCounter, Function.update_apply]

theorem mem_rowVersions {k : RowKey} {t : Tuple Row} :
    t ∈ kv.rowVersions k ↔ ∃ x, kv.version k x = some t := by
  simp only [Store.rowVersions, List.mem_map, mem_filter, decide_eq_true_eq, Prod.exists,
    ExtTreeMap.mem_toList_iff_getElem?_eq_some, Store.version]
  constructor
  · rintro ⟨key, t', ⟨hget, rfl⟩, rfl⟩
    exact ⟨key.xid, hget⟩
  · rintro ⟨x, hget⟩
    exact ⟨versionKey k x, t, ⟨hget, rfl⟩, rfl⟩

theorem mem_rowids {t : TableId} {r : RowId} :
    r ∈ kv.rowids t ↔ ∃ x v, kv.version (t, r) x = some v := by
  simp only [Store.rowids, mem_insertionSort, mem_dedup, List.mem_map, mem_filter,
    decide_eq_true_eq, Prod.exists, ExtTreeMap.mem_toList_iff_getElem?_eq_some, Store.version]
  constructor
  · rintro ⟨key, v, ⟨hget, rfl⟩, rfl⟩
    exact ⟨key.xid, v, hget⟩
  · rintro ⟨x, v, hget⟩
    exact ⟨versionKey (t, r) x, v, ⟨hget, rfl⟩, rfl⟩

theorem rowVersions_pairwise (k : RowKey) {R : Tuple Row → Tuple Row → Prop}
    (h : ∀ x y t u, x ≠ y → kv.version k x = some t → kv.version k y = some u → R t u) :
    (kv.rowVersions k).Pairwise R := by
  unfold Store.rowVersions
  rw [pairwise_map]
  have hdistinct := (ExtTreeMap.distinct_keys_toList (t := kv.versions)).filter
    fun e => decide (e.1.rowKey = k)
  refine List.Pairwise.imp_of_mem ?_ hdistinct
  intro e e' he he' hne
  simp only [mem_filter, decide_eq_true_eq] at he he'
  have hget := ExtTreeMap.mem_toList_iff_getElem?_eq_some.mp he.1
  have hget' := ExtTreeMap.mem_toList_iff_getElem?_eq_some.mp he'.1
  refine h e.1.xid e'.1.xid e.2 e'.2 ?_ ?_ ?_
  · intro hx
    apply hne
    rw [Std.compare_eq_iff_eq]
    have hrow := he.2.trans he'.2.symm
    simp only [VersionKey.rowKey, Prod.mk.injEq] at hrow
    cases h1 : e.1
    cases h2 : e'.1
    simp_all
  · rw [← he.2]
    exact hget
  · rw [← he'.2]
    exact hget'

theorem rowids_nodup (t : TableId) : (kv.rowids t).Nodup := by
  unfold Store.rowids
  exact (perm_insertionSort _ _).nodup_iff.mpr (nodup_dedup _)

end Access

section Batches

variable (kv : Store Row)

@[simp] theorem writeBatch_nil : writeBatch kv [] = kv := rfl

@[simp] theorem writeBatch_append (ops ops' : List (WriteOp Row)) :
    writeBatch kv (ops ++ ops') = writeBatch (writeBatch kv ops) ops' :=
  foldl_append

@[simp] theorem applyBatch_nil : applyBatch kv [] = kv := rfl

@[simp] theorem applyBatch_append (ops ops' : List (WriteOp Row)) :
    applyBatch kv (ops ++ ops') = applyBatch (applyBatch kv ops) ops' :=
  foldl_append

end Batches

end Crabgresql.Kv
