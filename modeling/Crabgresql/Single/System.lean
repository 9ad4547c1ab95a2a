import Crabgresql.Lib.Runs
import Crabgresql.Lib.Chronicle
import Crabgresql.Engine

/-!
# The single-range engine and its history

An engine in `durable` mode whose committer never fails, with any number of
sessions; no global transaction reaches it. The history attached to a run lists
the row changes of committed transactions in the order of their commits, and the
changes that open transactions have written so far. It is never read by a step.
-/

namespace Crabgresql.Single

open Mvcc Kv Procarray Lockmgr Exec Session Engine

variable {Row : Type}

def env : Env := ⟨⟨.durable, false⟩, .initial, 0⟩

/-- Commits succeed and no session joins a global transaction. -/
def admits : Act Row → Bool
  | .join _ => false
  | .apply ok => ok
  | _ => true

abbrev Call (Row : Type) := SessionId × Act Row

/-- A step of a session, or a plain read of it that fails. -/
inductive Event (Row : Type)
  | call (c : Call Row)
  | readError (s : SessionId)

def Event.session : Event Row → SessionId
  | .call c => c.1
  | .readError s => s

def step (e : SqlEngine Row) (c : Call Row) : Option (SqlEngine Row) :=
  if admits c.2 then e.step env c.1 c.2 else none

def initial : SqlEngine Row := .boot .empty

/-- A change of one row, with the transaction and the statement that made it. -/
structure Entry (Row : Type) where
  xid : Xid
  work : Work Row
  change : Change Row

namespace Entry

def key (e : Entry Row) : RowKey := e.change.key
def pre (e : Entry Row) : Option Row := e.change.pre
def post (e : Entry Row) : Option Row := e.change.post

@[simp] theorem key_mk (x : Xid) (w : Work Row) (c : Change Row) :
    (⟨x, w, c⟩ : Entry Row).key = c.key := rfl

end Entry

structure History (Row : Type) where
  /-- Changes of committed transactions, in commit order. -/
  hist : List (Entry Row)
  /-- Changes written by transactions that have not ended. -/
  pend : List (Entry Row)

namespace History

def empty : History Row := ⟨[], []⟩

def entries (b : Batch Row) : List (Entry Row) := b.changes.map fun c => ⟨b.xid, b.work, c⟩

def write (h : History Row) (b : Batch Row) : History Row :=
  match b.outcome with
  | some .committed =>
    ⟨h.hist ++ h.pend.filter (fun e => e.xid = b.xid) ++ entries b,
      h.pend.filter fun e => e.xid ≠ b.xid⟩
  | _ => ⟨h.hist, h.pend ++ entries b⟩

def discard (h : History Row) (x : Xid) : History Row :=
  ⟨h.hist, h.pend.filter fun e => e.xid ≠ x⟩

def after (h : History Row) (self : Sess Row) : Act Row → History Row
  | .apply true =>
    match self.pc with
    | .committing b _ _ => h.write b
    | _ => h
  | .finish =>
    match self.pc with
    | .finishing x _ => h.discard x
    | _ => h
  | .drop =>
    match self.txn.localXid with
    | some x => h.discard x
    | none => h
  | _ => h

def rowLog (h : History Row) (k : RowKey) : List (Entry Row) :=
  (h.hist ++ h.pend).filter fun e => e.key = k

def chain (h : History Row) (k : RowKey) : List Xid := Chronicle.authors Entry.xid (h.rowLog k)

def image (h : History Row) (k : RowKey) (x : Xid) : Option Row :=
  Chronicle.lastImage Entry.xid Entry.post (h.rowLog k) x

end History

/-- Everything the sessions share, with the history. -/
structure Shared (Row : Type) where
  kv : Store Row
  pa : ProcArray
  lm : LockMgr
  seq : SequenceManager
  log : History Row

structure Tracked (Row : Type) where
  sh : Shared Row
  sessions : SessionId → Sess Row

namespace Tracked

def engine (T : Tracked Row) : SqlEngine Row := ⟨T.sh.kv, T.sh.pa, T.sh.lm, T.sh.seq, T.sessions⟩

def initial : Tracked Row := ⟨⟨.empty, .open (.empty : Store Row), .new, .new, .empty⟩, fun _ => .new⟩

def view (T : Tracked Row) (s : SessionId) : View Row :=
  ⟨T.sh.kv, T.sh.pa, T.sh.lm, T.sh.seq, T.sessions s⟩

def set (T : Tracked Row) (s : SessionId) (v : View Row) (log : History Row) : Tracked Row :=
  ⟨⟨v.kv, v.pa, v.lm, v.seq, log⟩, Function.update T.sessions s v.self⟩

def step (T : Tracked Row) (c : Call Row) : Option (Tracked Row) :=
  if admits c.2 then
    (Session.step env (T.view c.1) c.2).map fun v =>
      T.set c.1 v (T.sh.log.after (T.sessions c.1) c.2)
  else none

theorem step_cases {T T' : Tracked Row} {c : Call Row} (h : T.step c = some T') :
    admits c.2 = true ∧ ∃ v, Session.step env (T.view c.1) c.2 = some v ∧
      T' = T.set c.1 v (T.sh.log.after (T.sessions c.1) c.2) := by
  unfold step at h
  split_ifs at h with hadm
  obtain ⟨v, hv, rfl⟩ := Option.map_eq_some_iff.mp h
  exact ⟨hadm, v, hv, rfl⟩

def event (T : Tracked Row) : Event Row → Option (Tracked Row)
  | .call c => T.step c
  | .readError s => (T.view s).selectFails.map fun v => T.set s v T.sh.log

theorem step_engine (T : Tracked Row) (c : Call Row) :
    Single.step T.engine c = (T.step c).map engine := by
  unfold Single.step Tracked.step
  split_ifs
  · change (Session.step env (T.view c.1) c.2).map _ = _
    rw [Option.map_map]
    rfl
  · rfl

theorem exec_engine {T : Tracked Row} {e : SqlEngine Row} {cs : List (Call Row)}
    (h : Runs.exec Single.step T.engine cs = some e) :
    ∃ T', Runs.exec step T cs = some T' ∧ T'.engine = e := by
  induction cs generalizing T with
  | nil =>
    cases h
    exact ⟨T, rfl, rfl⟩
  | cons c cs ih =>
    obtain ⟨u, hu, hrest⟩ := Runs.exec_cons.mp h
    rw [step_engine, Option.map_eq_some_iff] at hu
    obtain ⟨U, hU, rfl⟩ := hu
    obtain ⟨T', hT', he⟩ := ih hrest
    exact ⟨T', Runs.exec_cons.mpr ⟨U, hU, hT'⟩, he⟩

end Tracked

end Crabgresql.Single
