import Crabgresql.Exec

/-!
# Recovery functions of an engine

A new leader scans the commit log of its range from the durable watermark for
prepare markers whose global transaction is not decided in its replica of
range 0, relocks the rows they wrote, and moves the watermark past the markers
that are decided.
-/

namespace Crabgresql.Recovery

open Mvcc Kv Lockmgr Exec

variable {Row : Type}

def clogScanLo (kv : Store Row) : ℕ := (kv.counters .clogScanLo).getD 0

def clogScan (kv : Store Row) (lo : ℕ) : List (Xid × XidStatus) :=
  kv.clog.toList.filter fun e => decide (lo ≤ e.1) && decide (e.1 < globalXidBase)

/-- The markers among the scanned entries whose global transaction is undecided in the replica. -/
def inDoubt (glob : GlobalView) (scan : List (Xid × XidStatus)) : List (Xid × Xid) :=
  scan.filterMap fun e =>
    match e.2 with
    | .prepared g => if (glob.clog g).isTerminal then none else some (e.1, g)
    | _ => none

/-- The global xids in doubt, and the new watermark: the first marker in doubt, or one past the
last scanned entry. -/
def inDoubtGlobalsFrom (kv : Store Row) (glob : GlobalView) (lo : ℕ) : List Xid × ℕ :=
  let scan := clogScan kv lo
  let open_ := inDoubt glob scan
  let firstUndecided := open_.head?.map Prod.fst
  let maxLi := scan.getLast?.map Prod.fst
  (((open_.map Prod.snd).dedup).insertionSort (· ≤ ·),
    max ((firstUndecided.or (maxLi.map (· + 1))).getD lo) lo)

def reacquireInDoubtLocks (kv : Store Row) (glob : GlobalView) (lm : LockMgr) :
    LockMgr × List (Xid × Xid) :=
  let open_ := inDoubt glob (clogScan kv (clogScanLo kv))
  let keys := kv.versions.toList.map Prod.fst
  ((keys.filter fun k => decide (1 ≤ k.table) && decide (k.xid ∈ open_.map Prod.fst)).foldl
    (fun lm k => lm.reacquireExclusive k.rowKey k.xid) lm, open_)

/-- The first local xid at or above the watermark with a marker for `g`. -/
def stagedLocalFor (kv : Store Row) (g : Xid) : Option Xid :=
  ((clogScan kv (clogScanLo kv)).find? fun e => decide (e.2 = .prepared g)).map Prod.fst

section Scan

variable {kv : Store Row}

theorem mem_clogScan {lo : ℕ} {x : Xid} {st : XidStatus} :
    (x, st) ∈ clogScan kv lo ↔ kv.clog[x]? = some st ∧ lo ≤ x ∧ x < globalXidBase := by
  simp [clogScan, Std.ExtTreeMap.mem_toList_iff_getElem?_eq_some]

theorem clogGet_prepared {x g : Xid} :
    kv.clogGet x = .prepared g ↔ kv.clog[x]? = some (.prepared g) := by
  unfold Store.clogGet
  cases kv.clog[x]? with
  | none | some => simp

theorem mem_inDoubt {glob : GlobalView} {scan : List (Xid × XidStatus)} {x g : Xid} :
    (x, g) ∈ inDoubt glob scan ↔
      (x, .prepared g) ∈ scan ∧ (glob.clog g).isTerminal = false := by
  simp only [inDoubt, List.mem_filterMap]
  constructor
  · rintro ⟨⟨y, st⟩, hmem, hst⟩
    cases st with
    | prepared =>
      simp only at hst
      split_ifs at hst with hterm
      cases hst
      exact ⟨hmem, by simpa using hterm⟩
    | _ => cases hst
  · rintro ⟨hmem, hterm⟩
    exact ⟨_, hmem, by simp [hterm]⟩

end Scan

end Crabgresql.Recovery
