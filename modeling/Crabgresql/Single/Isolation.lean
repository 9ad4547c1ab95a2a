import Crabgresql.Effects
import Crabgresql.Single.Reach

/-!
# Isolation on a single range

At most one version of a row is visible to any view that is still read, and no
committed change of a row is lost.
-/

namespace Crabgresql.Single

open Mvcc Kv Procarray Lockmgr Exec Session Engine

variable {Row : Type}

/-- The views under which rows are read: a snapshot taken now, alone or for a running
transaction; the snapshot of a REPEATABLE READ block; the snapshot of a statement that is still
scanning and locking rows. The snapshot a READ COMMITTED block keeps after a statement is not one
of them: the next statement replaces it before it reads. -/
inductive ReadView (e : SqlEngine Row) : Snapshot → Option Xid → Prop
  | fresh : ReadView e e.pa.snapshot none
  | freshOwn (s : SessionId) (x : Xid) (hx : activeXid (e.sessions s) = some x) :
      ReadView e e.pa.snapshot (some x)
  | block (s : SessionId) (c : TxnCtx)
      (hc : (e.sessions s).txn = .inTransaction c ∨ (e.sessions s).txn = .failed c)
      (hrr : c.repeatableRead = true) : ReadView e c.snapshot c.xid
  | statement (s : SessionId) (f : Frame Row) (r : RowId)
      (hf : (e.sessions s).pc = .scanning f ∨ (e.sessions s).pc = .looping f ∨
        (e.sessions s).pc = .acquiring f r ∨ (e.sessions s).pc = .locked f r) :
      ReadView e f.snapshot (some f.xid)

theorem PcInv.view {sh : Shared Row} {txn : TxnState} {pc : Pc Row} (h : PcInv sh txn pc)
    {f : Frame Row} {r : RowId}
    (hf : pc = .scanning f ∨ pc = .looping f ∨ pc = .acquiring f r ∨ pc = .locked f r) :
    ViewInv sh f.snapshot (some f.xid) := by
  rcases hf with rfl | rfl | rfl | rfl
  · exact h.1.view
  · exact FrameInv.view h
  · exact FrameInv.view h
  · exact h.1.view

theorem activeXid_of_frame {u : Sess Row} {f : Frame Row} {r : RowId}
    (hf : u.pc = .scanning f ∨ u.pc = .looping f ∨ u.pc = .acquiring f r ∨ u.pc = .locked f r) :
    activeXid u = some f.xid := by
  unfold activeXid
  rcases hf with hf | hf | hf | hf <;> rw [hf]

theorem ReadView.viewInv {T : Tracked Row} (h : Inv T) {S : Snapshot} {own : Option Xid}
    (hv : ReadView T.engine S own) :
    ViewInv T.sh S own ∧ ∀ x, own = some x → x ∈ T.sh.pa.running := by
  cases hv with
  | fresh =>
    have hrun : ∀ x, (none : Option Xid) = some x → x ∈ T.sh.pa.running := fun x hx => by cases hx
    exact ⟨viewInv_snapshot h.shared hrun, hrun⟩
  | freshOwn s x hx =>
    have hrun : ∀ y, some x = some y → y ∈ T.sh.pa.running := by
      intro y hy
      cases hy
      exact (h.sess s).running x hx
    exact ⟨viewInv_snapshot h.shared hrun, hrun⟩
  | block s c hc hrr =>
    refine ⟨(h.sess s).block c hc hrr, ?_⟩
    intro x hx
    exact (h.sess s).running x (activeXid_of_block (h.sess s).pc hc hx)
  | statement s f r hf =>
    refine ⟨(h.sess s).pc.view hf, ?_⟩
    intro x hx
    cases hx
    exact (h.sess s).running f.xid (activeXid_of_frame hf)

/-- In every reachable state every read view sees at most one version of each row. -/
theorem at_most_one_live {cs : List (Call Row)} {e : SqlEngine Row}
    (h : Runs.exec step initial cs = some e) {S : Snapshot} {own : Option Xid}
    (hv : ReadView e S own) (glob : GlobalView) (gsnap : Snapshot) (k : RowKey) :
    (liveVersions (globalStatus e.kv glob gsnap) S own (e.kv.rowVersions k)).length ≤ 1 := by
  obtain ⟨T, hI, rfl⟩ := inv_engine h
  obtain ⟨hview, hrun⟩ := hv.viewInv hI
  have hstatus : globalStatus T.engine.kv glob gsnap = T.sh.kv.clogGet :=
    globalStatus_eq hI.shared glob gsnap
  rw [hstatus]
  exact liveVersions_length hI.shared hview hrun

section Runs

def insertTen : Work ℕ := .insert 1 [.ok 10]

def addOne : Work ℕ := .update 1 (fun _ => .ok true) fun v => .ok (v + 1)

def autocommit (s : SessionId) (w : Work ℕ) (rows : List (Act ℕ)) : List (Call ℕ) :=
  ((.start w :: .takeSnapshot :: .scan :: rows ++ [.propose, .apply true, .finish, .release] :
    List (Act ℕ))).map fun a => (s, a)

/-- Session 1 scans under READ COMMITTED, session 2 updates the row and commits, then session 1
locks the row, finds it changed and updates the new version. -/
def overtakenRun : List (Call ℕ) :=
  autocommit 0 insertTen [] ++
    [(1, .begin false), (1, .start addOne), (1, .takeSnapshot), (1, .scan), (1, .next)] ++
    autocommit 2 addOne [.next, .acquire 0, .recheck] ++
    [(1, .acquire 0), (1, .recheck), (1, .propose), (1, .apply true)]

/-- Live versions of row `k` under the snapshot the open block of session `s` holds. -/
def heldLive (s : SessionId) (k : RowKey) (e : SqlEngine ℕ) : Option ℕ :=
  match (e.sessions s).txn with
  | .inTransaction c =>
    some (liveVersions (globalStatus e.kv .initial noGlobalSnapshot) c.snapshot c.xid
      (e.kv.rowVersions k)).length
  | _ => none

end Runs

/-- The snapshot that a READ COMMITTED block still holds after its statement shows the version it
superseded and its own version at once. -/
theorem held_snapshot_shows_two : ∃ e : SqlEngine ℕ, Runs.exec step initial overtakenRun = some e ∧
      heldLive 1 (1, 1) e = some 2 := by
  have h : (Runs.exec step initial overtakenRun).bind (heldLive 1 (1, 1)) = some 2 := by decide
  exact Option.bind_eq_some_iff.mp h

/-- After the same run, the snapshot taken now for session 1 shows at most one version. -/
theorem at_most_one_live_overtaken :
    ∃ e : SqlEngine ℕ, Runs.exec step initial overtakenRun = some e ∧
      activeXid (e.sessions 1) = some 2 ∧
      (liveVersions (globalStatus e.kv .initial noGlobalSnapshot) e.pa.snapshot (some 2)
        (e.kv.rowVersions (1, 1))).length ≤ 1 := by
  have h : (Runs.exec step initial overtakenRun).bind (fun e => activeXid (e.sessions 1)) =
      some 2 := by decide
  obtain ⟨e, he, hx⟩ := Option.bind_eq_some_iff.mp h
  exact ⟨e, he, hx, at_most_one_live he (.freshOwn 1 2 hx) _ _ _⟩

/-! ## Overwriting a row -/

theorem BatchInv.current {sh : Shared Row} {txn : TxnState} {b : Batch Row} {after : After}
    (h : BatchInv sh txn b after) {c : Change Row} (hc : c ∈ b.changes)
    (hpre : c.pre.isSome = true) : ∃ cover curXmin cur, Current sh b.xid cover c.key curXmin cur ∧
      ∀ ctx, txn = .inTransaction ctx → ctx.repeatableRead = true → cover = some ctx.snapshot := by
  obtain ⟨cover, hchanges, hcover⟩ : ∃ cover, ChangesInv sh b.xid cover b.work b.changes ∧
      ∀ ctx, txn = .inTransaction ctx → ctx.repeatableRead = true → cover = some ctx.snapshot := by
    have hafter := h.after
    cases after with
    | keep =>
      obtain ⟨-, ctx, rfl, -, hchanges⟩ := hafter
      refine ⟨_, hchanges, fun ctx' htxn hrr => ?_⟩
      cases htxn
      exact if_pos hrr
    | close =>
      obtain ⟨rfl, -, hchanges⟩ := hafter
      exact ⟨_, hchanges, nofun⟩
    | enlist => exact hafter.elim
  have hpending := hchanges.pending c hc
  cases c with
  | insert => cases hpre
  | update k curXmin cur | delete k curXmin cur => exact ⟨cover, curXmin, cur, hpending, hcover⟩

/-- When the update or delete of a row goes to the committer, its transaction alone has the row
locked, and every other transaction with a version of the row has ended. In a REPEATABLE READ block
those of them that committed had ended when the block took its snapshot: the first updater wins. -/
theorem overwritten_row_settled (cs : List (Call Row)) {e : SqlEngine Row}
    (h : Runs.exec step initial cs = some e) {s : SessionId} {b : Batch Row} {epoch : ℕ}
    {after : After} (hpc : (e.sessions s).pc = .committing b epoch after) {c : Change Row}
    (hc : c ∈ b.changes) (hpre : c.pre.isSome = true) :
    (∃ l, e.lm.locks c.key = some l ∧ l.mode = .exclusive ∧ l.holders = [b.xid]) ∧
      ∀ x t, e.kv.version c.key x = some t → x ≠ b.xid → e.pa.Finished x ∧
        ∀ ctx, (e.sessions s).txn = .inTransaction ctx → ctx.repeatableRead = true →
          e.kv.clogGet x = .committed → ctx.snapshot.canSee x := by
  obtain ⟨T, hI, rfl⟩ := inv_engine h
  have hbatch := (hI.sess s).pc
  rw [show (T.sessions s).pc = _ from hpc] at hbatch
  obtain ⟨cover, curXmin, cur, hcur, hcover⟩ := BatchInv.current hbatch hc hpre
  refine ⟨?_, fun x t ht hne => ?_⟩
  · obtain ⟨l, hl, hmode, hx⟩ := hcur.lock
    obtain ⟨y, hy⟩ := hI.shared.sole c.key l hl hmode
    rw [hy, List.mem_singleton] at hx
    exact ⟨l, hl, hmode, hx ▸ hy⟩
  · obtain ⟨-, hin | hdead⟩ := (hI.shared.row c.key).version x t ht
    · refine ⟨(hcur.others x hin hne).2, fun ctx htxn hrr _ => ?_⟩
      exact hcur.covered ctx.snapshot (hcover ctx htxn hrr) x hin hne
    · exact ⟨hdead.1, fun _ _ _ hcom => absurd hcom hdead.2⟩

/-- A REPEATABLE READ block hands the update of a row to the committer. -/
def repeatableRun : List (Call ℕ) :=
  autocommit 0 insertTen [] ++ [.begin true, .start addOne, .takeSnapshot, .scan, .next,
    .acquire 0, .recheck, .propose].map fun a => (1, a)

theorem overwritten_row_settled_update : ∃ (e : SqlEngine ℕ) (b : Batch ℕ) (epoch : ℕ),
    Runs.exec step initial repeatableRun = some e ∧ (e.sessions 1).pc = .committing b epoch .keep ∧
      ∃ l, e.lm.locks (1, 1) = some l ∧ l.mode = .exclusive ∧ l.holders = [b.xid] :=
  ⟨_, _, _, rfl, rfl, (overwritten_row_settled repeatableRun (s := 1) (c := .update (1, 1) 1 10 11)
    rfl rfl List.mem_cons_self rfl).1⟩

end Crabgresql.Single
