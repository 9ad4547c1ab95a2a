import Crabgresql.Cluster.Xids

/-!
# No xid is allocated twice

The xid a leader allocates after its reseed is named by no prefix of the log, in
every run whose batches without the counter follow the counter. The abort record
of a transaction that only locked rows need not, and then the next leader hands
out the same xid again.
-/

namespace Crabgresql.Cluster

open Mvcc Kv Procarray Lockmgr Exec Session Engine Recovery MultiRangeCluster

variable {Row : Type}

theorem xidInv_exec {acts : List (ClusterAct Row)} {C : MultiRangeCluster Row}
    (h : Runs.exec step initial acts = some C)
    (hok : Runs.Along step (OnRange fun _ => Folded) .initial acts)
    (r : RangeId) : XidInv (C.ranges r) :=
  range_invariant (I := fun _ R => XidInv R) (fun _ _ _ _ hI hf hs => xidInv_step hI hf hs)
    (fun _ _ _ _ hI => hI) xidInv_initial hok h

/-- `begin_write` on a leader that has reseeded returns an xid that no replica names. -/
theorem beginWrite_fresh {acts : List (ClusterAct Row)} {C : MultiRangeCluster Row}
    (h : Runs.exec step initial acts = some C)
    (hok : Runs.Along step (OnRange fun _ => Folded) .initial acts)
    {r : RangeId} {n : NodeId} (hlead : (C.ranges r).leader = some n)
    (hseed : (C.ranges r).seeded = true) (i : ℕ) : ¬ Names ((C.ranges r).storeAt i)
      (((C.ranges r).nodes n).pa.beginWrite .replicated ((C.ranges r).storeAt i)).1 := by
  have hI := xidInv_exec h hok r
  intro hnames
  have hlt := hI.named _ (names_storeAt hnames)
  exact absurd (hI.lead n hlead hseed) (not_le.mpr hlt)

section Runs

def noLag : Lag := ⟨[], globalXidBase⟩

/-- Node `n` is elected, settles and opens its gate. Without scanned entries the watermark stays. -/
def openGate (n : NodeId) (advance : Bool) : List (RangeAct ℕ) :=
  [.elect n, .settle n, .relock n noLag, .scan n noLag, .unlock n, .rescan n noLag] ++
    (if advance then [.advance n true] else []) ++ [.serve n]

def calls (n : NodeId) (s : SessionId) (acts : List (Act ℕ)) : List (RangeAct ℕ) :=
  acts.map fun a => .call n s a noLag

def onRange (r : RangeId) (acts : List (RangeAct ℕ)) : List (ClusterAct ℕ) := acts.map (.on r)

def insertOne : Work ℕ := .insert 1 [.ok 1]

def lockAll : Work ℕ := .lockRows 1 .exclusive fun _ => .ok true

/-- `BEGIN; SELECT ... FOR UPDATE; ROLLBACK` on node 0, then a failover to node 1. -/
def lockOnlyRun : List (ClusterAct ℕ) :=
  onRange 0 (openGate 0 false ++
    calls 0 0 [.begin false, .start lockAll, .takeSnapshot, .scan, .propose, .rollback,
      .apply true, .finish, .release] ++
    openGate 1 true)

def insertRun : List (ClusterAct ℕ) :=
  onRange 0 (openGate 0 false ++
    calls 0 0 [.start insertOne, .takeSnapshot, .scan, .propose, .apply true, .finish, .release] ++
    openGate 1 true)

def nextAllocation (C : MultiRangeCluster ℕ) : Option Xid :=
  (C.step (.on 0 (.call 1 0 (.start insertOne) noLag))).bind fun C' =>
    activeXid (((C'.ranges 0).nodes 1).sessions 0)

end Runs

/-- The rolled-back transaction's record names xid 1, and the next leader allocates 1. -/
theorem beginWrite_reuses_aborted : ∃ C : MultiRangeCluster ℕ,
      Runs.exec step initial lockOnlyRun = some C ∧
      (C.ranges 0).serving 1 = true ∧ (C.ranges 0).tip.clogGet 1 = .aborted ∧
      nextAllocation C = some 1 :=
  Runs.exists_some (by decide)

/-- After an INSERT and a failover the next leader's xid is new. -/
theorem beginWrite_fresh_after_insert : ∃ C : MultiRangeCluster ℕ,
      Runs.exec step initial insertRun = some C ∧
      (C.ranges 0).tip.clogGet 1 = .committed ∧
      ¬ Names (C.ranges 0).tip
        (((C.ranges 0).nodes 1).pa.beginWrite .replicated (C.ranges 0).tip).1 := by
  obtain ⟨C, hC, hlead, hseeded, hcommitted⟩ :
      ∃ C ∈ Runs.exec step initial insertRun,
        (C.ranges 0).leader = some 1 ∧ (C.ranges 0).seeded = true ∧
        (C.ranges 0).tip.clogGet 1 = .committed := by decide
  have hfold : Runs.Along step (OnRange fun _ => Folded)
      (initial : MultiRangeCluster ℕ) insertRun := by decide
  have hfresh := beginWrite_fresh hC hfold hlead hseeded (C.ranges 0).log.length
  rw [Range.storeAt_length] at hfresh
  exact ⟨C, hC, hcommitted, hfresh⟩

end Crabgresql.Cluster
