import Crabgresql.Procarray
import Crabgresql.Lockmgr

/-!
# Statement execution

The visibility resolver that dereferences prepare markers to the global commit
log, the scans, the recheck of a locked row against concurrent commits, and the
row versions a statement puts. Expression evaluation is a parameter of the
statement: a filter or an assignment is a function of the row that may fail.
-/

namespace Crabgresql.Exec

open Mvcc Kv Procarray Lockmgr

inductive ExecError
  | serializationFailure
  | deadlock
  | inFailedTransaction
  | unavailable
  | evaluation
  deriving DecidableEq, Repr

variable {Row : Type}

/-- A replica of range 0 as one engine reads it: global decisions and the global xid counter. -/
structure GlobalView where
  clog : Xid → XidStatus
  nextGlobal : Xid

def GlobalView.initial : GlobalView := ⟨fun _ => .inProgress, globalXidBase⟩

def noGlobalSnapshot : Snapshot := ⟨globalXidBase, globalXidBase, []⟩

def durableGlobalSnapshot (glob : GlobalView) : Snapshot := ⟨globalXidBase, glob.nextGlobal, []⟩

/-- The view under which every marker is resolved by the global log itself. -/
def settledGlobal : Snapshot := ⟨0, u64Max, []⟩

def globalStatus (kv : Store Row) (glob : GlobalView) (gsnap : Snapshot) (x : Xid) : XidStatus :=
  match kv.clogGet x with
  | .prepared g => if gsnap.isRunning g then .inProgress else glob.clog g
  | other => other

section Visible

variable (status : Xid → XidStatus) (snap : Snapshot) (own : Option Xid)

def isLive (t : Tuple Row) : Bool := satisfiesMvcc t.xmin t.xmax snap own status

def liveVersions (versions : List (Tuple Row)) : List (Tuple Row) :=
  versions.filter (isLive status snap own)

def keepGreatest (acc : Option (Xid × Row)) (t : Tuple Row) : Option (Xid × Row) :=
  match acc with
  | none => some (t.xmin, t.row)
  | some (cur, row) => if cur < t.xmin then some (t.xmin, t.row) else some (cur, row)

def findVisibleOne (versions : List (Tuple Row)) : Option (Xid × Row) :=
  (liveVersions status snap own versions).foldl keepGreatest none

variable {t : Tuple Row} {versions : List (Tuple Row)}

theorem isLive_iff : isLive status snap own t = true ↔
      committedVisible t.xmin snap own status = true ∧
        (t.xmax = invalidXid ∨ committedVisible t.xmax snap own status = false) :=
  satisfiesMvcc_iff

theorem mem_liveVersions : t ∈ liveVersions status snap own versions ↔
      t ∈ versions ∧ isLive status snap own t = true := by
  simp [liveVersions]

theorem foldl_keepGreatest {l : List (Tuple Row)} {acc : Option (Xid × Row)} {v : Xid × Row}
    (h : l.foldl keepGreatest acc = some v) : acc = some v ∨ ∃ t ∈ l, v = (t.xmin, t.row) := by
  induction l generalizing acc with
  | nil => exact .inl h
  | cons t l ih =>
    rcases ih h with hacc | ⟨t', ht', hv⟩
    · cases acc with
      | none =>
        refine .inr ⟨t, by simp, ?_⟩
        simpa [keepGreatest] using hacc.symm
      | some =>
        simp only [keepGreatest] at hacc
        split_ifs at hacc with hlt
        · exact .inr ⟨t, by simp, (Option.some.inj hacc).symm⟩
        · exact .inl hacc
    · exact .inr ⟨t', by simp [ht'], hv⟩

theorem foldl_keepGreatest_isSome {l : List (Tuple Row)} {acc : Option (Xid × Row)}
    (h : acc.isSome ∨ l ≠ []) : (l.foldl keepGreatest acc).isSome := by
  induction l generalizing acc with
  | nil => simpa using h
  | cons t l ih =>
    refine ih (.inl ?_)
    cases acc with
    | none => rfl
    | some =>
      simp only [keepGreatest]
      split_ifs <;> rfl

theorem findVisibleOne_some {v : Xid × Row} (h : findVisibleOne status snap own versions = some v) :
    ∃ t ∈ versions, isLive status snap own t = true ∧ v = (t.xmin, t.row) := by
  rcases foldl_keepGreatest h with hnone | ⟨t, ht, hv⟩
  · cases hnone
  · rw [mem_liveVersions] at ht
    exact ⟨t, ht.1, ht.2, hv⟩

theorem findVisibleOne_isSome (ht : t ∈ versions) (hl : isLive status snap own t = true) :
    (findVisibleOne status snap own versions).isSome := by
  refine foldl_keepGreatest_isSome (.inr ?_)
  exact List.ne_nil_of_mem ((mem_liveVersions status snap own).mpr ⟨ht, hl⟩)

end Visible

def scanLive (kv : Store Row) (glob : GlobalView) (gsnap snap : Snapshot) (own : Option Xid)
    (t : TableId) : List (RowId × Xid × Row) :=
  (kv.rowids t).filterMap fun r =>
    (findVisibleOne (globalStatus kv glob gsnap) snap own (kv.rowVersions (t, r))).map fun v =>
      (r, v.1, v.2)

theorem scanLive_rowids_sublist (kv : Store Row) (glob : GlobalView) (gsnap snap : Snapshot)
    (own : Option Xid) (t : TableId) :
    ((scanLive kv glob gsnap snap own t).map Prod.fst).Sublist (kv.rowids t) := by
  unfold scanLive
  induction kv.rowids t with
  | nil => simp
  | cons r rs ih =>
    rw [List.filterMap_cons]
    cases findVisibleOne (globalStatus kv glob gsnap) snap own (kv.rowVersions (t, r)) with
    | none => exact ih.cons r
    | some => exact ih.cons_cons r

/-- Some version of the row was superseded or deleted by a transaction, not `x`, that committed
after the snapshot. -/
def changedSince (kv : Store Row) (glob : GlobalView) (snap : Snapshot) (k : RowKey) (x : Xid) :
    Bool :=
  (kv.rowVersions k).any fun t =>
    decide (t.xmax ≠ invalidXid) && decide (t.xmax ≠ x) &&
      decide (globalStatus kv glob settledGlobal t.xmax = .committed) &&
      !decide (snap.canSee t.xmax)

def evalPlanQual (kv : Store Row) (glob : GlobalView) (pa : ProcArray) (snap : Snapshot)
    (k : RowKey) (x : Xid) (repeatableRead : Bool) : Except ExecError (Option (Xid × Row)) :=
  let status := globalStatus kv glob settledGlobal
  if changedSince kv glob snap k x then
    if repeatableRead then .error .serializationFailure
    else .ok (findVisibleOne status pa.snapshot (some x) (kv.rowVersions k))
  else .ok (findVisibleOne status snap (some x) (kv.rowVersions k))

/-- A statement that takes an xid. `invalid` is one that fails before it touches a row. -/
inductive Work (Row : Type)
  | insert (t : TableId) (rows : List (Except ExecError Row))
  | update (t : TableId) (filter : Row → Except ExecError Bool) (set : Row → Except ExecError Row)
  | delete (t : TableId) (filter : Row → Except ExecError Bool)
  | lockRows (t : TableId) (mode : LockMode) (filter : Row → Except ExecError Bool)
  | invalid

namespace Work

def table : Work Row → TableId
  | .insert t _ | .update t _ _ | .delete t _ | .lockRows t _ _ => t
  | .invalid => 0

def matchRow : Work Row → Row → Except ExecError Bool
  | .update _ filter _, row | .delete _ filter, row | .lockRows _ _ filter, row => filter row
  | .insert _ _, _ | .invalid, _ => .ok false

def lockMode : Work Row → LockMode
  | .lockRows _ mode _ => mode
  | _ => .exclusive

/-- A locking read returns rows and puts nothing. -/
def isWrite : Work Row → Bool
  | .lockRows _ _ _ => false
  | _ => true

def isInsert : Work Row → Bool
  | .insert _ _ => true
  | _ => false

end Work

/-- What one statement does to one row. `curXmin` and `cur` are the version the recheck found. -/
inductive Change (Row : Type)
  | insert (k : RowKey) (row : Row)
  | update (k : RowKey) (curXmin : Xid) (cur next : Row)
  | delete (k : RowKey) (curXmin : Xid) (cur : Row)

namespace Change

def key : Change Row → RowKey
  | .insert k _ | .update k _ _ _ | .delete k _ _ => k

def pre : Change Row → Option Row
  | .insert _ _ => none
  | .update _ _ cur _ | .delete _ _ cur => some cur

def post : Change Row → Option Row
  | .insert _ row => some row
  | .update _ _ _ next => some next
  | .delete _ _ _ => none

/-- The puts of a change by `x`. Deleting an own version and deleting another's are the same put:
the version keeps its creator and row and gets `xmax = x`. -/
def rowOps (x : Xid) : Change Row → List (WriteOp Row)
  | .insert k row => [.version (versionKey k x) ⟨x, invalidXid, row⟩]
  | .update k curXmin cur next =>
    if curXmin = x then [.version (versionKey k x) ⟨x, invalidXid, next⟩]
    else
      [.version (versionKey k curXmin) ⟨curXmin, x, cur⟩,
        .version (versionKey k x) ⟨x, invalidXid, next⟩]
  | .delete k curXmin cur => [.version (versionKey k curXmin) ⟨curXmin, x, cur⟩]

/-- The version of the changed row under `y` after the puts. -/
def newVersion (x : Xid) (c : Change Row) (old : Xid → Option (Tuple Row)) (y : Xid) :
    Option (Tuple Row) :=
  match c with
  | .insert _ row => if y = x then some ⟨x, invalidXid, row⟩ else old y
  | .update _ curXmin cur next =>
    if y = x then some ⟨x, invalidXid, next⟩
    else if y = curXmin then some ⟨curXmin, x, cur⟩ else old y
  | .delete _ curXmin cur => if y = curXmin then some ⟨curXmin, x, cur⟩ else old y

variable (kv : Store Row) (x : Xid)

theorem version_rowOps (c : Change Row) (y : Xid) :
    (writeBatch kv (c.rowOps x)).version c.key y = c.newVersion x (kv.version c.key) y := by
  cases c with
  | insert | delete => simp [rowOps, writeBatch, put, key, newVersion, eq_comm]
  | update k curXmin =>
    by_cases hx : curXmin = x
    · by_cases hy : y = x
      · simp [rowOps, writeBatch, put, key, newVersion, hx, hy]
      · simp [rowOps, writeBatch, put, key, newVersion, hx, hy, Ne.symm hy]
    · simp [rowOps, writeBatch, put, key, newVersion, hx, eq_comm]

theorem version_rowOps_ne {c : Change Row} {k : RowKey} (h : k ≠ c.key) (y : Xid) :
    (writeBatch kv (c.rowOps x)).version k y = kv.version k y := by
  cases c with
  | insert k' | delete k' => simp [rowOps, writeBatch, put, show k' ≠ k from Ne.symm h]
  | update k' curXmin =>
    have h' : k' ≠ k := Ne.symm h
    by_cases hx : curXmin = x <;> simp [rowOps, writeBatch, put, hx, h']

@[simp] theorem clogGet_rowOps (c : Change Row) (y : Xid) :
    (writeBatch kv (c.rowOps x)).clogGet y = kv.clogGet y := by
  cases c with
  | insert | delete => rfl
  | update k curXmin => by_cases hx : curXmin = x <;> simp [rowOps, writeBatch, put, hx]

@[simp] theorem counters_rowOps (c : Change Row) :
    (writeBatch kv (c.rowOps x)).counters = kv.counters := by
  cases c with
  | insert | delete => rfl
  | update k curXmin => by_cases hx : curXmin = x <;> simp [rowOps, writeBatch, put, hx]

end Change

section WriteChanges

variable (kv : Store Row) (x : Xid)

theorem version_flatMap_rowOps_ne {cs : List (Change Row)} {k : RowKey}
    (h : k ∉ cs.map Change.key) (y : Xid) :
    (writeBatch kv (cs.flatMap (Change.rowOps x))).version k y = kv.version k y := by
  induction cs generalizing kv with
  | nil => rfl
  | cons c cs ih =>
    simp only [List.map_cons, List.mem_cons, not_or] at h
    rw [List.flatMap_cons, writeBatch_append, ih _ h.2, Change.version_rowOps_ne _ _ h.1]

theorem version_flatMap_rowOps {cs : List (Change Row)} (hnd : (cs.map Change.key).Nodup)
    {c : Change Row} (hc : c ∈ cs) (y : Xid) :
    (writeBatch kv (cs.flatMap (Change.rowOps x))).version c.key y =
      c.newVersion x (kv.version c.key) y := by
  induction cs generalizing kv with
  | nil => cases hc
  | cons c' cs ih =>
    rw [List.map_cons, List.nodup_cons] at hnd
    rw [List.flatMap_cons, writeBatch_append]
    rcases List.mem_cons.mp hc with rfl | hmem
    · rw [version_flatMap_rowOps_ne _ _ hnd.1, Change.version_rowOps]
    · have hne : c.key ≠ c'.key := by
        intro heq
        exact hnd.1 (heq ▸ List.mem_map_of_mem hmem)
      rw [ih _ hnd.2 hmem]
      have hold : (writeBatch kv (c'.rowOps x)).version c.key = kv.version c.key :=
        funext fun z => Change.version_rowOps_ne kv x hne z
      rw [hold]

@[simp] theorem clogGet_flatMap_rowOps (cs : List (Change Row)) (y : Xid) :
    (writeBatch kv (cs.flatMap (Change.rowOps x))).clogGet y = kv.clogGet y := by
  induction cs generalizing kv with
  | nil => rfl
  | cons c cs ih => rw [List.flatMap_cons, writeBatch_append, ih, Change.clogGet_rowOps]

@[simp] theorem counters_flatMap_rowOps (cs : List (Change Row)) :
    (writeBatch kv (cs.flatMap (Change.rowOps x))).counters = kv.counters := by
  induction cs generalizing kv with
  | nil => rfl
  | cons c cs ih => rw [List.flatMap_cons, writeBatch_append, ih, Change.counters_rowOps]

end WriteChanges

/-- The filter is checked again on the row the recheck found. -/
def Work.change (w : Work Row) (k : RowKey) (found : Xid × Row) :
    Except ExecError (Option (Change Row)) := do
  if ← w.matchRow found.2 then
    match w with
    | .update _ _ set => return some (.update k found.1 found.2 (← set found.2))
    | .delete _ _ => return some (.delete k found.1 found.2)
    | _ => return none
  else return none

theorem Work.change_some {w : Work Row} {k : RowKey} {found : Xid × Row} {c : Change Row}
    (h : w.change k found = .ok (some c)) :
    (∃ t filter set next, w = .update t filter set ∧ set found.2 = .ok next ∧
        c = .update k found.1 found.2 next) ∨
      ∃ t filter, w = .delete t filter ∧ c = .delete k found.1 found.2 := by
  cases w with
  | insert | invalid => cases h
  | lockRows t mode filter =>
    simp only [Work.change, Work.matchRow] at h
    cases hm : filter found.2 with
    | error =>
      rw [hm] at h
      cases h
    | ok m =>
      rw [hm] at h
      cases m <;> cases h
  | update t filter set =>
    simp only [Work.change, Work.matchRow] at h
    cases hm : filter found.2 with
    | error =>
      rw [hm] at h
      cases h
    | ok m =>
      rw [hm] at h
      cases m with
      | false => cases h
      | true =>
        cases hs : set found.2 with
        | error => simp [hs, bind, Except.bind] at h
        | ok next =>
          simp [hs, bind, Except.bind, pure, Except.pure] at h
          exact .inl ⟨t, filter, set, next, rfl, hs, h.symm⟩
  | delete t filter =>
    simp only [Work.change, Work.matchRow] at h
    cases hm : filter found.2 with
    | error =>
      rw [hm] at h
      cases h
    | ok m =>
      rw [hm] at h
      cases m with
      | false => cases h
      | true =>
        cases h
        exact .inr ⟨t, filter, rfl, rfl⟩

/-- The rows of an INSERT get consecutive rowids; the first failing expression fails it. -/
def insertChanges (t : TableId) : ℕ → List (Except ExecError Row) →
    Except ExecError (List (Change Row))
  | _, [] => .ok []
  | start, row :: rows => do
    let r ← row
    let rest ← insertChanges t (start + 1) rows
    return .insert (t, start) r :: rest

theorem insertChanges_ok {t : TableId} {start : ℕ} {rows : List (Except ExecError Row)}
    {cs : List (Change Row)} (h : insertChanges t start rows = .ok cs) :
    (cs.map Change.key).Nodup ∧ ∀ c ∈ cs, ∃ (r : ℕ) (row : Row),
      c = .insert (t, r) row ∧ start ≤ r ∧ r < start + rows.length ∧ Except.ok row ∈ rows := by
  induction rows generalizing start cs with
  | nil =>
    cases h
    simp
  | cons row rows ih =>
    cases row with
    | error => cases h
    | ok row =>
      simp only [insertChanges, bind, Except.bind] at h
      cases hrest : insertChanges t (start + 1) rows with
      | error =>
        rw [hrest] at h
        cases h
      | ok rest =>
        rw [hrest] at h
        cases h
        obtain ⟨hnd, hall⟩ := ih hrest
        refine ⟨?_, ?_⟩
        · rw [List.map_cons, List.nodup_cons]
          refine ⟨?_, hnd⟩
          intro hmem
          obtain ⟨c, hc, hkey⟩ := List.mem_map.mp hmem
          obtain ⟨r, row', rfl, hle, -⟩ := hall c hc
          have hr : (r : ℕ) = start := congrArg Prod.snd hkey
          omega
        · intro c hc
          rcases List.mem_cons.mp hc with rfl | hc
          · exact ⟨start, row, rfl, le_rfl, by simp, by simp⟩
          · obtain ⟨r, row', rfl, hle, hlt, hmem⟩ := hall c hc
            refine ⟨r, row', rfl, by omega, ?_, by simp [hmem]⟩
            rw [List.length_cons]
            omega

def insertKeys (cs : List (Change Row)) : List RowKey :=
  cs.filterMap fun c =>
    match c with
    | .insert k _ => some k
    | _ => none

end Crabgresql.Exec
