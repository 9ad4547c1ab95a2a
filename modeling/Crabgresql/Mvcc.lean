import Mathlib

/-!
# Transaction ids, outcomes, snapshots and tuple visibility

The commit log maps an xid to its recorded outcome; an absent entry reads as
`inProgress`. A snapshot is the running set at a point in time. A tuple version
is visible when its creator is visible and its deleter, if any, is not.
Xids are 64-bit counters in the source; no function here wraps, so they are
natural numbers.
-/

namespace Crabgresql.Mvcc

variable {s : Snapshot} {x : Xid}

abbrev Xid := ℕ
abbrev TableId := ℕ
abbrev RowId := ℕ
abbrev RowKey := TableId × RowId

/-- The `xmax` of a live version; never a real transaction. -/
def invalidXid : Xid := 0

/-- Global xids are allocated from here on; every local xid is below. -/
def globalXidBase : Xid := 2 ^ 63

def u64Max : ℕ := 2 ^ 64 - 1

inductive XidStatus
  | inProgress
  | committed
  | aborted
  | prepared (g : Xid)
  deriving DecidableEq, Repr

/-- A recorded decision that the write-once log keeps. -/
def XidStatus.isTerminal : XidStatus → Bool
  | .committed | .aborted => true
  | .inProgress | .prepared _ => false

structure Snapshot where
  xmin : Xid
  xmax : Xid
  xip : List Xid
  deriving DecidableEq, Repr

/-- The source searches the sorted `xip` by bisection, which finds exactly its members. -/
def Snapshot.isRunning (s : Snapshot) (x : Xid) : Bool :=
  decide (s.xmax ≤ x) || decide (x ∈ s.xip)

/-- Settled, whatever the outcome, when the snapshot was taken. -/
def Snapshot.canSee (s : Snapshot) (x : Xid) : Prop := x < s.xmax ∧ x ∉ s.xip

instance (s : Snapshot) (x : Xid) : Decidable (s.canSee x) :=
  inferInstanceAs (Decidable (_ ∧ _))

theorem isRunning_eq_false : s.isRunning x = false ↔ s.canSee x := by
  simp [Snapshot.isRunning, Snapshot.canSee]

theorem isRunning_eq_true : s.isRunning x = true ↔ ¬ s.canSee x := by
  rw [← isRunning_eq_false, Bool.not_eq_false]

def committedVisible (x : Xid) (s : Snapshot) (own : Option Xid) (status : Xid → XidStatus) :
    Bool :=
  if some x = own then true
  else if s.isRunning x then false
  else decide (status x = .committed)

def satisfiesMvcc (xmin xmax : Xid) (s : Snapshot) (own : Option Xid)
    (status : Xid → XidStatus) : Bool :=
  if !committedVisible xmin s own status then false
  else if xmax = invalidXid then true
  else !committedVisible xmax s own status

theorem committedVisible_iff {own : Option Xid} {status : Xid → XidStatus} :
    committedVisible x s own status = true ↔
      own = some x ∨ s.canSee x ∧ status x = .committed := by
  unfold committedVisible
  by_cases ho : some x = own
  · simp [ho.symm]
  · rw [if_neg ho]
    have ho' : own ≠ some x := fun h => ho h.symm
    by_cases hr : s.canSee x
    · rw [isRunning_eq_false.mpr hr]
      simp [ho', hr]
    · rw [isRunning_eq_true.mpr hr]
      simp [ho', hr]

theorem satisfiesMvcc_iff {xmin xmax : Xid} {own : Option Xid} {status : Xid → XidStatus} :
    satisfiesMvcc xmin xmax s own status = true ↔
      committedVisible xmin s own status = true ∧
        (xmax = invalidXid ∨ committedVisible xmax s own status = false) := by
  unfold satisfiesMvcc
  cases committedVisible xmin s own status with
  | false => simp
  | true =>
    by_cases hx : xmax = invalidXid <;> simp [hx]

/-- One stored row version: creator, deleter or `invalidXid`, and the row itself. -/
structure Tuple (Row : Type) where
  xmin : Xid
  xmax : Xid
  row : Row
  deriving DecidableEq, Repr

end Crabgresql.Mvcc
