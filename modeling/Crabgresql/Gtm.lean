import Crabgresql.Kv

/-!
# Global transaction ids

Range 0 hands out global xids from an in-memory counter whose durable copy is
one more counter of its store. The counter is put with every allocation and with
every decision; a new leader lifts its own to the applied one.
-/

namespace Crabgresql

open Mvcc Kv

structure Gtm where
  nextGlobal : Xid
  deriving DecidableEq, Repr

namespace Gtm

variable {Row : Type}

/-- The durable counter, which never reads below the base. -/
def readNextGlobal (kv : Store Row) : Xid :=
  max ((kv.counters .nextGlobalXid).getD globalXidBase) globalXidBase

def «open» (kv : Store Row) : Gtm := ⟨readNextGlobal kv⟩

def beginGlobal (gtm : Gtm) : Xid × Gtm := (gtm.nextGlobal, ⟨gtm.nextGlobal + 1⟩)

def nextGlobalXidOp (gtm : Gtm) : WriteOp Row := .counter .nextGlobalXid gtm.nextGlobal

def reseedFromApplied (gtm : Gtm) (kv : Store Row) : Gtm :=
  ⟨max gtm.nextGlobal (readNextGlobal kv)⟩

theorem readNextGlobal_put (kv : Store Row) (gtm : Gtm) :
    readNextGlobal (applyOp kv gtm.nextGlobalXidOp) = max gtm.nextGlobal globalXidBase := by
  simp [readNextGlobal, nextGlobalXidOp, applyOp, isCounterKey]

theorem base_le_readNextGlobal (kv : Store Row) : globalXidBase ≤ readNextGlobal kv :=
  le_max_right _ _

end Gtm

end Crabgresql
